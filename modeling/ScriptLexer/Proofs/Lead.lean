import ScriptLexer.Cursor.Reading

namespace ScriptLexer

/-- What may begin with a character. -/
inductive Lead where
  | operator (rule : Kind.Extensible)
  | delimiter (kind : Kind)
  | slash | blank | newline | quote | digit | letter
  | stray
deriving DecidableEq, Repr

/-- The class of a character. A stray one begins nothing. -/
def Lead.of (c : Char) : Lead :=
  match Kind.extensible? c, Kind.single? c with
  | some rule, _ => .operator rule
  | none, some kind => .delimiter kind
  | none, none =>
    if c = '/' then .slash
    else if isBlank c then .blank
    else if c = '\n' then .newline
    else if c = '"' then .quote
    else if c.isDigit then .digit
    else if isWordStart c then .letter
    else .stray

/-- Reads on after a first character of the given class. -/
def Cursor.readAfter (c : Cursor) (first : Char) : Lead → Reading × Cursor
  | .operator rule => c.readExtensible rule
  | .delimiter kind => (.token kind none, c)
  | .slash => c.readSlash
  | .blank => (.skipped, c)
  | .newline => (.skipped, c.addLines 1)
  | .quote => c.readString
  | .digit => c.readNumber
  | .letter => c.readWord
  | .stray => (.error (.unexpectedCharacter c.line first), c)

theorem Cursor.read_eq_readAfter (c : Cursor) (first : Char) :
    c.read first = c.readAfter first (Lead.of first) := by
  unfold read Lead.of
  cases Kind.extensible? first with
  | some rule => rfl
  | none =>
    cases Kind.single? first with
    | some kind => rfl
    | none =>
      dsimp only
      repeat' split
      all_goals rfl

theorem isWordStart_iff {c : Char} : isWordStart c = true ↔ c.isAlpha = true ∨ c = '_' := by
  simp [isWordStart]

/-- The digits stand before the letters. -/
theorem isDigit_eq_false_of_isAlpha {c : Char} (alpha : c.isAlpha = true) : c.isDigit = false := by
  have case : c.isUpper = true ∨ c.isLower = true := Bool.or_eq_true_iff.mp alpha
  have letter : 'A'.val ≤ c.val := by
    rcases case with upper | lower
    · exact (of_decide_eq_true upper).1
    · have first : 'a'.val ≤ c.val := of_decide_eq_true (Bool.and_eq_true_iff.mp lower).1
      exact UInt32.le_trans (by decide) first
  apply Bool.eq_false_iff.mpr
  intro digit
  have last : c.val ≤ '9'.val := of_decide_eq_true (Bool.and_eq_true_iff.mp digit).2
  exact absurd (UInt32.le_trans letter last) (by decide)

theorem isWordPart_of_isDigit {c : Char} (digit : c.isDigit = true) : isWordPart c = true := by
  simp [isWordPart, digit]

theorem isWordPart_of_isWordStart {c : Char} (start : isWordStart c = true) : isWordPart c = true := by
  simp [isWordPart, start]

/-- No character of a word or number has a use of its own. -/
theorem lead_of_isWordPart {c : Char} (part : isWordPart c = true) :
    Lead.of c = if c.isDigit then .digit else .letter := by
  have noOperator : Kind.extensible? c = none := by
    unfold Kind.extensible?
    split <;> first | rfl | exact absurd part (by decide)
  have noDelimiter : Kind.single? c = none := by
    unfold Kind.single?
    split <;> first | rfl | exact absurd part (by decide)
  have noSlash : c ≠ '/' := by rintro rfl; exact absurd part (by decide)
  have noNewline : c ≠ '\n' := by rintro rfl; exact absurd part (by decide)
  have noQuote : c ≠ '"' := by rintro rfl; exact absurd part (by decide)
  have noBlank : ¬isBlank c = true := by
    intro blank
    simp only [isBlank, Bool.or_eq_true, beq_iff_eq] at blank
    rcases blank with (rfl | rfl) | rfl <;> exact absurd part (by decide)
  simp only [Lead.of, noOperator, noDelimiter, noSlash, noNewline, noQuote, noBlank, if_false,
    Bool.false_eq_true]
  by_cases digit : c.isDigit = true
  · simp only [digit, if_true]
  · simp only [isWordPart, digit, Bool.or_false] at part
    simp only [digit, part, if_true]

theorem lead_of_isDigit {c : Char} (digit : c.isDigit = true) : Lead.of c = .digit := by
  rw [lead_of_isWordPart (isWordPart_of_isDigit digit), if_pos digit]

theorem lead_of_isWordStart {c : Char} (start : isWordStart c = true) : Lead.of c = .letter := by
  have noDigit : c.isDigit = false := by
    rcases isWordStart_iff.mp start with alpha | rfl
    · exact isDigit_eq_false_of_isAlpha alpha
    · rfl
  rw [lead_of_isWordPart (isWordPart_of_isWordStart start), noDigit, if_neg Bool.false_ne_true]

theorem lead_of_isBlank {c : Char} (blank : isBlank c = true) : Lead.of c = .blank := by
  simp only [isBlank, Bool.or_eq_true, beq_iff_eq] at blank
  rcases blank with (rfl | rfl) | rfl <;> rfl

theorem lead_of_extensible? {c : Char} {rule : Kind.Extensible}
    (extensible : Kind.extensible? c = some rule) : Lead.of c = .operator rule := by
  simp only [Lead.of, extensible]

theorem lead_of_single? {c : Char} {kind : Kind} (single : Kind.single? c = some kind) :
    Lead.of c = .delimiter kind := by
  have noOperator : Kind.extensible? c = none := by
    unfold Kind.extensible?
    split <;> first | rfl | cases single
  simp only [Lead.of, noOperator, single]

end ScriptLexer
