import ScriptLexer.Scanner

namespace ScriptLexer

namespace Grammar

/-- The texts of operators and delimiters. -/
def symbols : List (List Char × Kind) :=
  [(['('], .leftParen), ([')'], .rightParen), (['{'], .leftBrace), (['}'], .rightBrace),
   ([','], .comma), (['.'], .dot), ([';'], .semicolon), (['-'], .minus), (['+'], .plus),
   (['^'], .bitXor), (['/'], .slash),
   (['!'], .bang), (['='], .equal), (['<'], .less), (['>'], .greater), (['&'], .bitAnd),
   (['|'], .bitOr), (['*'], .star),
   (['!', '='], .bangEqual), (['=', '='], .equalEqual), (['<', '='], .lessEqual),
   (['>', '='], .greaterEqual), (['&', '&'], .and), (['|', '|'], .or), (['*', '*'], .power)]

/-- The words that are no identifiers. -/
def keywords : List (String × Keyword) :=
  [("class", .classKw), ("else", .elseKw), ("false", .falseKw), ("func", .funcKw), ("if", .ifKw),
   ("let", .varKw), ("nil", .nilKw), ("print", .printKw), ("return", .returnKw), ("super", .superKw),
   ("this", .thisKw), ("true", .trueKw), ("var", .varKw), ("while", .whileKw)]

/-- A text that a pattern matches, and what it is read as. -/
inductive Matches : List Char → Reading → Prop
  | symbol {text kind} : (text, kind) ∈ symbols → Matches text (.token kind none)
  | string {contents} : '"' ∉ contents →
      Matches ('"' :: contents ++ ['"']) (.token .string (some (.string (String.ofList contents))))
  | whole {digits value} : digits ≠ [] → (∀ c ∈ digits, c.isDigit = true) →
      Decimal.ofChars? digits = some value →
      Matches digits (.token .number (some (.number (.ofDecimal value))))
  | fraction {digits places value} : digits ≠ [] → (∀ c ∈ digits, c.isDigit = true) →
      places ≠ [] → (∀ c ∈ places, c.isDigit = true) →
      Decimal.ofChars? (digits ++ '.' :: places) = some value →
      Matches (digits ++ '.' :: places) (.token .number (some (.number (.ofDecimal value))))
  | reserved {first others keyword} : first.isAlpha = true ∨ first = '_' →
      (∀ c ∈ others, c.isAlphanum = true ∨ c = '_') →
      (String.ofList (first :: others), keyword) ∈ keywords →
      Matches (first :: others) (.token (.keyword keyword) none)
  | identifier {first others} : first.isAlpha = true ∨ first = '_' →
      (∀ c ∈ others, c.isAlphanum = true ∨ c = '_') →
      (∀ keyword, (String.ofList (first :: others), keyword) ∉ keywords) →
      Matches (first :: others) (.token .identifier none)
  | space {c} : c ∈ [' ', '\r', '\t', '\n'] → Matches [c] .skipped
  | comment {body} : '\n' ∉ body → Matches ('/' :: '/' :: body) .skipped

/-- The text is the longest at the front of the source that any pattern matches. -/
structure Longest (source text : List Char) (reading : Reading) : Prop where
  found : Matches text reading
  isPrefix : text <+: source
  maximal : ∀ other otherReading, Matches other otherReading → other <+: source →
    other.length ≤ text.length

/-- No pattern matches at the front of the source. -/
def Unmatched (source : List Char) : Prop := ∀ text reading, Matches text reading → ¬text <+: source

/-- The items of a source, the first character of which is on the given line. -/
inductive Lexes : Nat → List Char → List Item → Prop
  | finish {line} : Lexes line [] [.token (.endOfFile line)]
  | skip {line text rest items} : Longest (text ++ rest) text .skipped →
      Lexes (line + text.count '\n') rest items → Lexes line (text ++ rest) items
  | token {line text rest kind literal items} : Longest (text ++ rest) text (.token kind literal) →
      Lexes (line + text.count '\n') rest items →
      Lexes line (text ++ rest) (.token ⟨kind, String.ofList text, literal, line⟩ :: items)
  | unterminated {line contents items} : Unmatched ('"' :: contents) →
      Lexes (line + contents.count '\n') [] items →
      Lexes line ('"' :: contents) (.error (.unterminatedString (line + contents.count '\n')) :: items)
  | unexpected {line c rest items} : Unmatched (c :: rest) → c ≠ '"' → Lexes line rest items →
      Lexes line (c :: rest) (.error (.unexpectedCharacter line c) :: items)

end Grammar

end ScriptLexer
