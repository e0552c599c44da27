namespace ScriptLexer

inductive LexicalError where
  | unexpectedCharacter (line : Nat) (character : Char)
  | unterminatedString (line : Nat)
  /-- Any other fault, in its own words. -/
  | other (line : Nat) (message : String)
deriving DecidableEq, Repr

namespace LexicalError

def line : LexicalError → Nat
  | unexpectedCharacter line _ => line
  | unterminatedString line => line
  | other line _ => line

/-- The character stands in the message as itself, whatever it is. -/
def message : LexicalError → String
  | unexpectedCharacter _ character => "Unexpected character '" ++ character.toString ++ "'."
  | unterminatedString _ => "Unterminated string."
  | other _ message => message

def toText (error : LexicalError) : String :=
  "[line " ++ toString error.line ++ "] Error: " ++ error.message

end LexicalError

end ScriptLexer
