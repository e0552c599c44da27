import ScriptLexer.Proofs.SegmentItems

namespace ScriptLexer

/-- What a first character is known to be from its class. -/
def Lead.Describes : Lead → Char → Prop
  | .operator rule, c => Kind.extensible? c = some rule
  | .delimiter kind, c => Kind.single? c = some kind
  | .slash, c => c = '/'
  | .blank, c => isBlank c = true
  | .newline, c => c = '\n'
  | .quote, c => c = '"'
  | .digit, c => c.isDigit = true
  | .letter, c => isWordStart c = true
  | .stray, _ => True

theorem describes_lead (c : Char) : (Lead.of c).Describes c := by
  unfold Lead.of
  split
  · next extensible => exact extensible
  · next single => exact single
  · repeat' split
    all_goals trivial

/-- The class of the first character of the tokens of a kind. The end of the file has no text, and
its class is that of no token. -/
def Kind.lead : Kind → Lead
  | slash => .slash
  | bang | bangEqual => .operator ⟨'=', bangEqual, bang⟩
  | equal | equalEqual => .operator ⟨'=', equalEqual, equal⟩
  | less | lessEqual => .operator ⟨'=', lessEqual, less⟩
  | greater | greaterEqual => .operator ⟨'=', greaterEqual, greater⟩
  | bitAnd | and => .operator ⟨'&', and, bitAnd⟩
  | bitOr | or => .operator ⟨'|', or, bitOr⟩
  | star | power => .operator ⟨'*', power, star⟩
  | identifier | keyword _ => .letter
  | string => .quote
  | number => .digit
  | endOfFile => .stray
  | delimiter => .delimiter delimiter

namespace Lexeme

theorem lead_eq_kind_lead (lexeme : Lexeme) : lexeme.lead = lexeme.kind.lead := by
  cases lexeme with
  | delimiter c kind single =>
    unfold Kind.single? at single
    split at single <;> cases single <;> rfl
  | slash => rfl
  | short c rule extensible =>
    unfold Kind.extensible? at extensible
    split at extensible <;> cases extensible <;> rfl
  | long c rule extensible =>
    unfold Kind.extensible? at extensible
    split at extensible <;> cases extensible <;> rfl
  | string contents noQuote => rfl
  | number whole fraction => rfl
  | word first others start parts =>
    simp only [kind, Kind.ofWord]
    split <;> rfl

theorem kind_ne_endOfFile (lexeme : Lexeme) : lexeme.kind ≠ .endOfFile := by
  intro ending
  have stray := lexeme.lead_eq_kind_lead
  rw [ending] at stray
  cases lexeme <;> cases stray

end Lexeme

/-- Only a lexeme yields a token. -/
theorem Segment.exists_lexeme_of_item? {segment : Segment} {line : Nat} {found : Token}
    (yields : segment.item? line = some (.token found)) :
    ∃ lexeme : Lexeme, segment = .token lexeme ∧
      found = ⟨lexeme.kind, String.ofList lexeme.text, lexeme.literal, line⟩ := by
  cases segment with
  | token lexeme =>
    cases yields
    exact ⟨lexeme, rfl, rfl⟩
  | _ => cases yields

/-- All of a token but the line on which it stands. -/
def Token.content (token : Token) : Kind × String × Option Literal :=
  (token.kind, token.lexeme, token.literal)

def Lexeme.content (lexeme : Lexeme) : Kind × String × Option Literal :=
  (lexeme.kind, String.ofList lexeme.text, lexeme.literal)

theorem Token.kind_eq_of_content_eq {token : Token} {lexeme : Lexeme}
    (same : token.content = lexeme.content) : token.kind = lexeme.kind :=
  (Prod.mk.inj same).1

theorem Token.text_eq_of_content_eq {token : Token} {lexeme : Lexeme}
    (same : token.content = lexeme.content) : token.lexeme.toList = lexeme.text := by
  have sameLexeme : token.lexeme = String.ofList lexeme.text :=
    (Prod.mk.inj (Prod.mk.inj same).2).1
  rw [sameLexeme, String.toList_ofList]

end ScriptLexer
