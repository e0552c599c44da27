namespace ScriptLexer

inductive Keyword where
  | classKw | elseKw | falseKw | funcKw | ifKw | nilKw | printKw
  | returnKw | superKw | thisKw | trueKw | varKw | whileKw
deriving DecidableEq, Repr

namespace Keyword

def name : Keyword → String
  | classKw => "Class"
  | elseKw => "Else"
  | falseKw => "False"
  | funcKw => "Func"
  | ifKw => "If"
  | nilKw => "Nil"
  | printKw => "Print"
  | returnKw => "Return"
  | superKw => "Super"
  | thisKw => "This"
  | trueKw => "True"
  | varKw => "Var"
  | whileKw => "While"

/-- Every reserved spelling with its keyword. -/
def spellings : List (String × Keyword) :=
  [("class", classKw), ("else", elseKw), ("false", falseKw), ("func", funcKw), ("if", ifKw),
   ("let", varKw), ("nil", nilKw), ("print", printKw), ("return", returnKw), ("super", superKw),
   ("this", thisKw), ("true", trueKw), ("var", varKw), ("while", whileKw)]

def ofSpelling? (word : String) : Option Keyword := spellings.lookup word

end Keyword

end ScriptLexer
