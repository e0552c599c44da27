import ScriptLexer.Binary64.Shortest
import ScriptLexer.Token.Kind

namespace ScriptLexer

/-- The value of a literal. `==` compares numbers as numbers, decidable equality compares bits. -/
inductive Literal where
  | number (value : Binary64)
  | string (contents : String)
deriving DecidableEq, BEq, Repr

def Literal.toText : Literal → String
  | .number value => value.toText
  | .string contents => contents

structure Token where
  kind : Kind
  lexeme : String
  literal : Option Literal
  line : Nat
deriving DecidableEq, BEq, Repr

namespace Token

/-- The token that ends every scan. It has no text. -/
def endOfFile (line : Nat) : Token := ⟨.endOfFile, "", none, line⟩

/-- The kind, the lexeme and the value with a space between them. The second space is written even
when there is no value. -/
def toText (token : Token) : String :=
  token.kind.name ++ " " ++ token.lexeme ++ " " ++ (token.literal.map Literal.toText).getD ""

end Token

end ScriptLexer
