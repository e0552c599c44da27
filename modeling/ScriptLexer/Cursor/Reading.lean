import ScriptLexer.CharClass
import ScriptLexer.Cursor.Basic
import ScriptLexer.LexicalError
import ScriptLexer.Token.Basic

namespace ScriptLexer

/-- A lexeme read: blank, comment or line end; a token; or an error. -/
inductive Reading where
  | skipped
  | token (kind : Kind) (literal : Option Literal)
  | error (error : LexicalError)
deriving DecidableEq, Repr

namespace Cursor

/-- After a slash: a second one begins a comment, which ends before the line feed. -/
def readSlash (c : Cursor) : Reading × Cursor :=
  match c.accept '/' with
  | (true, after) => (.skipped, (after.takeUntil (· == '\n')).2)
  | (false, after) => (.token .slash none, after)

/-- After an operator that a certain character makes longer. -/
def readExtensible (c : Cursor) (operator : Kind.Extensible) : Reading × Cursor :=
  match c.accept operator.second with
  | (true, after) => (.token operator.long none, after)
  | (false, after) => (.token operator.short none, after)

/-- After a quote: all up to the next quote, over as many lines as it takes. Nothing is escaped.
When no quote follows, the error stands on the last line of the source. -/
def readString (c : Cursor) : Reading × Cursor :=
  let (contents, inside) := c.takeUntil (· == '"')
  let inside := inside.addLines (contents.count '\n')
  match inside.advance? with
  | none => (.error (.unterminatedString inside.line), inside)
  | some (_, after) => (.token .string (some (.string (String.ofList contents))), after)

def takeDigits (c : Cursor) : Cursor := (c.takeUntil (!·.isDigit)).2

/-- Takes a point and the digits behind it, if at least one digit is there. -/
def takeFraction (c : Cursor) : Cursor :=
  match c.rest with
  | '.' :: next :: _ => if next.isDigit then (c.accept '.').2.takeDigits else c
  | _ => c

/-- After a digit: the number is read from the whole lexeme, however long it is. -/
def readNumber (c : Cursor) : Reading × Cursor :=
  let after := c.takeDigits.takeFraction
  match Decimal.ofChars? after.taken with
  | some value => (.token .number (some (.number (.ofDecimal value))), after)
  | none =>
    (.error (.other after.line
      ("Could not convert " ++ String.ofList after.taken ++ " into a number.")), after)

/-- After a letter or underscore. -/
def readWord (c : Cursor) : Reading × Cursor :=
  let after := (c.takeUntil (!isWordPart ·)).2
  (.token (.ofWord (String.ofList after.taken)) none, after)

/-- Reads on after the first character of a lexeme, with the longest lexeme that it begins. -/
def read (c : Cursor) (first : Char) : Reading × Cursor :=
  match Kind.extensible? first, Kind.single? first with
  | some operator, _ => c.readExtensible operator
  | none, some kind => (.token kind none, c)
  | none, none =>
    if first = '/' then c.readSlash
    else if isBlank first then (.skipped, c)
    else if first = '\n' then (.skipped, c.addLines 1)
    else if first = '"' then c.readString
    else if first.isDigit then c.readNumber
    else if isWordStart first then c.readWord
    else (.error (.unexpectedCharacter c.line first), c)

/-- Begins a lexeme and reads all of it; nothing if the source has ended. -/
def readLexeme? (c : Cursor) : Option (Reading × Cursor) :=
  match c.restart.advance? with
  | none => none
  | some (first, begun) => some (begun.read first)

theorem takes_takeDigits (c : Cursor) : ∃ moved, c.Takes moved c.takeDigits :=
  ⟨_, takes_takeUntil c _⟩

theorem takes_takeFraction (c : Cursor) : ∃ moved, c.Takes moved c.takeFraction := by
  unfold takeFraction
  split
  · split
    · obtain ⟨moved, takes⟩ := takes_takeDigits (c.accept '.').2
      exact ⟨_, (takes_accept c '.').1.append takes⟩
    · exact ⟨[], .nothing c⟩
  · exact ⟨[], .nothing c⟩

theorem takes_readSlash (c : Cursor) : ∃ moved, c.Takes moved c.readSlash.2 := by
  have accepted := (takes_accept c '/').1
  unfold readSlash
  split <;> simp only [*] at accepted
  · exact ⟨_, accepted.append (takes_takeUntil _ _)⟩
  · exact ⟨_, accepted⟩

theorem takes_readExtensible (c : Cursor) (operator : Kind.Extensible) :
    ∃ moved, c.Takes moved (c.readExtensible operator).2 := by
  have accepted := (takes_accept c operator.second).1
  unfold readExtensible
  split <;> simp only [*] at accepted <;> exact ⟨_, accepted⟩

theorem takes_readString (c : Cursor) : ∃ moved, c.Takes moved c.readString.2 := by
  have inside := (takes_takeUntil c (· == '"')).addLines
    ((c.takeUntil (· == '"')).1.count '\n')
  simp only [readString]
  split
  · exact ⟨_, inside⟩
  · next step => exact ⟨_, inside.append (takes_of_advance? step).1⟩

theorem takes_readNumber (c : Cursor) : ∃ moved, c.Takes moved c.readNumber.2 := by
  obtain ⟨whole, first⟩ := takes_takeDigits c
  obtain ⟨fraction, second⟩ := takes_takeFraction c.takeDigits
  simp only [readNumber]
  split <;> exact ⟨_, first.append second⟩

theorem takes_readWord (c : Cursor) : ∃ moved, c.Takes moved c.readWord.2 :=
  ⟨_, takes_takeUntil c _⟩

/-- Whatever the first character, reading on only takes characters from the rest. -/
theorem takes_read (c : Cursor) (first : Char) : ∃ moved, c.Takes moved (c.read first).2 := by
  unfold read
  split
  · exact takes_readExtensible c _
  · exact ⟨[], .nothing c⟩
  · repeat' split
    · exact takes_readSlash c
    · exact ⟨[], .nothing c⟩
    · exact ⟨[], (Takes.nothing c).addLines 1⟩
    · exact takes_readString c
    · exact takes_readNumber c
    · exact takes_readWord c
    · exact ⟨[], .nothing c⟩

theorem readLexeme?_eq_none_iff {c : Cursor} : c.readLexeme? = none ↔ c.rest = [] := by
  have atEnd : c.restart.advance? = none ↔ c.rest = [] := advance?_eq_none_iff
  rw [← atEnd]
  unfold readLexeme?
  split <;> simp [*]

/-- A lexeme has at least its first character, and it is all that is taken then. -/
theorem takes_of_readLexeme? {c after : Cursor} {reading : Reading}
    (lexeme : c.readLexeme? = some (reading, after)) :
    ∃ first moved, c.rest = first :: moved ++ after.rest ∧ after.taken = first :: moved := by
  unfold readLexeme? at lexeme
  split at lexeme
  · simp at lexeme
  · next first begun started =>
    have begins := (takes_of_advance? started).1
    obtain ⟨moved, takes⟩ := begun.takes_read first
    rw [Option.some.inj lexeme] at takes
    have whole := begins.append takes
    exact ⟨first, moved, by simpa [restart] using whole.rest_eq,
      by simpa [restart] using whole.taken_eq⟩

theorem readLexeme?_rest_length_lt {c after : Cursor} {reading : Reading}
    (lexeme : c.readLexeme? = some (reading, after)) : after.rest.length < c.rest.length := by
  obtain ⟨first, moved, rest, -⟩ := takes_of_readLexeme? lexeme
  simp only [rest, List.cons_append, List.length_cons, List.length_append]
  omega

end Cursor

end ScriptLexer
