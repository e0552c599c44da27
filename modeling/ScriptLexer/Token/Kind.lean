import ScriptLexer.Token.Keyword

namespace ScriptLexer

inductive Kind where
  | leftParen | rightParen | leftBrace | rightBrace
  | comma | dot | semicolon
  | plus | minus | star | slash | power
  | bitAnd | bitOr | bitXor
  | bang | bangEqual | equal | equalEqual
  | greater | greaterEqual | less | lessEqual
  | and | or
  | identifier | string | number
  | keyword (word : Keyword)
  | endOfFile
deriving DecidableEq, Repr

namespace Kind

def name : Kind → String
  | leftParen => "LeftParen"
  | rightParen => "RightParen"
  | leftBrace => "LeftBrace"
  | rightBrace => "RightBrace"
  | comma => "Comma"
  | dot => "Dot"
  | semicolon => "Semicolon"
  | plus => "Plus"
  | minus => "Minus"
  | star => "Star"
  | slash => "Slash"
  | power => "Power"
  | bitAnd => "BitAnd"
  | bitOr => "BitOr"
  | bitXor => "BitXor"
  | bang => "Bang"
  | bangEqual => "BangEqual"
  | equal => "Equal"
  | equalEqual => "EqualEqual"
  | greater => "Greater"
  | greaterEqual => "GreaterEqual"
  | less => "Less"
  | lessEqual => "LessEqual"
  | and => "And"
  | or => "Or"
  | identifier => "Identifier"
  | string => "String"
  | number => "Number"
  | keyword word => word.name
  | endOfFile => "EndOfFile"

/-- An operator that one certain character, directly behind it, makes into a longer one. -/
structure Extensible where
  second : Char
  long : Kind
  short : Kind
deriving DecidableEq, Repr

def extensible? : Char → Option Extensible
  | '!' => some ⟨'=', bangEqual, bang⟩
  | '=' => some ⟨'=', equalEqual, equal⟩
  | '<' => some ⟨'=', lessEqual, less⟩
  | '>' => some ⟨'=', greaterEqual, greater⟩
  | '&' => some ⟨'&', and, bitAnd⟩
  | '|' => some ⟨'|', or, bitOr⟩
  | '*' => some ⟨'*', power, star⟩
  | _ => none

/-- The characters that are a token whatever follows. A slash is not among them, since two of
them begin a comment. -/
def single? : Char → Option Kind
  | '(' => some leftParen
  | ')' => some rightParen
  | '{' => some leftBrace
  | '}' => some rightBrace
  | ',' => some comma
  | '.' => some dot
  | ';' => some semicolon
  | '-' => some minus
  | '+' => some plus
  | '^' => some bitXor
  | _ => none

/-- A word is a keyword if it is reserved and a name otherwise. -/
def ofWord (word : String) : Kind :=
  match Keyword.ofSpelling? word with
  | some reserved => keyword reserved
  | none => identifier

end Kind

end ScriptLexer
