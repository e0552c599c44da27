namespace ScriptLexer

/-- A blank separates and is dropped. The line feed is not among them, for it also counts. -/
def isBlank (c : Char) : Bool := c == ' ' || c == '\r' || c == '\t'

def isWordStart (c : Char) : Bool := c.isAlpha || c == '_'

def isWordPart (c : Char) : Bool := isWordStart c || c.isDigit

end ScriptLexer
