import ScriptLexer.Proofs.Lead

namespace ScriptLexer

/-- A run of characters of a class ends where this text begins. -/
def EndsRun (inRun : Char → Bool) (rest : List Char) : Prop := ∀ c ∈ rest.head?, inRun c = false

@[simp] theorem endsRun_nil {inRun : Char → Bool} : EndsRun inRun [] := by simp [EndsRun]

@[simp] theorem endsRun_cons {inRun : Char → Bool} {c : Char} {rest : List Char} :
    EndsRun inRun (c :: rest) ↔ inRun c = false := by simp [EndsRun]

/-- Digits end at a point. -/
theorem endsRun_isDigit_point (rest : List Char) : EndsRun Char.isDigit ('.' :: rest) :=
  endsRun_cons.mpr (by decide)

theorem endsRun_bne (stop : Char) (rest : List Char) : EndsRun (· != stop) (stop :: rest) :=
  endsRun_cons.mpr (bne_self_eq_false stop)

theorem endsRun_beq_iff {stop : Char} {rest : List Char} :
    EndsRun (· == stop) rest ↔ rest.head? ≠ some stop := by
  cases rest with
  | nil => simp
  | cons next rest => simp

theorem endsRun_dropWhile (inRun : Char → Bool) (text : List Char) :
    EndsRun inRun (text.dropWhile inRun) := by
  intro c head
  have stop := List.head?_dropWhile_not inRun text
  rw [Option.mem_def.mp head] at stop
  exact stop

/-- More text behind the end of a run cannot prolong it, unless the end was that of the source. -/
theorem EndsRun.append {inRun : Char → Bool} {rest more : List Char} (ends : EndsRun inRun rest)
    (endsMore : EndsRun inRun more) : EndsRun inRun (rest ++ more) := by
  cases rest with
  | nil => exact endsMore
  | cons c rest => simpa using ends

theorem EndsRun.takeWhile_eq_nil {inRun : Char → Bool} {rest : List Char} (ends : EndsRun inRun rest) :
    rest.takeWhile inRun = [] := by
  cases rest with
  | nil => rfl
  | cons c rest => exact List.takeWhile_cons_of_neg (by simpa using ends)

theorem EndsRun.dropWhile_eq_self {inRun : Char → Bool} {rest : List Char} (ends : EndsRun inRun rest) :
    rest.dropWhile inRun = rest := by
  cases rest with
  | nil => rfl
  | cons c rest => exact List.dropWhile_cons_of_neg (by simpa using ends)

/-- A run cut off where it ends is all that is taken from the front, and the rest is left. -/
theorem EndsRun.takeWhile_append {inRun : Char → Bool} {run rest : List Char}
    (ends : EndsRun inRun rest) (inside : ∀ c ∈ run, inRun c = true) :
    (run ++ rest).takeWhile inRun = run := by
  rw [List.takeWhile_append_of_pos inside, ends.takeWhile_eq_nil, List.append_nil]

theorem EndsRun.dropWhile_append {inRun : Char → Bool} {run rest : List Char}
    (ends : EndsRun inRun rest) (inside : ∀ c ∈ run, inRun c = true) :
    (run ++ rest).dropWhile inRun = rest := by
  rw [List.dropWhile_append_of_pos inside, ends.dropWhile_eq_self]

theorem bne_of_not_mem {stop : Char} {run : List Char} (absent : stop ∉ run) :
    ∀ c ∈ run, (c != stop) = true :=
  fun _ member => bne_iff_ne.mpr fun same => absent (same ▸ member)

/-- One or more digits. -/
structure Digits where
  chars : List Char
  chars_ne_nil : chars ≠ []
  isDigit_of_mem : ∀ c ∈ chars, c.isDigit = true

/-- The text of one token. -/
inductive Lexeme where
  | delimiter (c : Char) (kind : Kind) (single : Kind.single? c = some kind)
  | slash
  | short (c : Char) (rule : Kind.Extensible) (extensible : Kind.extensible? c = some rule)
  | long (c : Char) (rule : Kind.Extensible) (extensible : Kind.extensible? c = some rule)
  | string (contents : List Char) (noQuote : '"' ∉ contents)
  | number (whole : Digits) (fraction : Option Digits)
  | word (first : Char) (others : List Char) (start : isWordStart first = true)
    (parts : ∀ c ∈ others, isWordPart c = true)

namespace Lexeme

def numberText (whole : Digits) : Option Digits → List Char
  | none => whole.chars
  | some fraction => whole.chars ++ '.' :: fraction.chars

def numberValue (whole : Digits) : Option Digits → Decimal
  | none => ⟨Nat.ofDigitChars 10 whole.chars 0, 0⟩
  | some fraction => ⟨Nat.ofDigitChars 10 (whole.chars ++ fraction.chars) 0, fraction.chars.length⟩

def text : Lexeme → List Char
  | delimiter c _ _ => [c]
  | slash => ['/']
  | short c _ _ => [c]
  | long c rule _ => [c, rule.second]
  | string contents _ => '"' :: (contents ++ ['"'])
  | number whole fraction => numberText whole fraction
  | word first others _ _ => first :: others

def kind : Lexeme → Kind
  | delimiter _ kind _ => kind
  | slash => .slash
  | short _ rule _ => rule.short
  | long _ rule _ => rule.long
  | string _ _ => .string
  | number _ _ => .number
  | word first others _ _ => .ofWord (String.ofList (first :: others))

def literal : Lexeme → Option Literal
  | string contents _ => some (.string (String.ofList contents))
  | number whole fraction => some (.number (.ofDecimal (numberValue whole fraction)))
  | _ => none

def lead : Lexeme → Lead
  | delimiter _ kind _ => .delimiter kind
  | slash => .slash
  | short _ rule _ => .operator rule
  | long _ rule _ => .operator rule
  | string _ _ => .quote
  | number _ _ => .digit
  | word _ _ _ _ => .letter

/-- What follows does not belong to the lexeme. Only behind digits without a fraction does a second
character count, for a point takes part in a number if a digit follows it. -/
def EndsBefore : Lexeme → List Char → Prop
  | slash, rest => EndsRun (· == '/') rest
  | short _ rule _, rest => EndsRun (· == rule.second) rest
  | number _ fraction, rest => EndsRun Char.isDigit rest ∧
      (fraction = none → ∀ more, rest = '.' :: more → EndsRun Char.isDigit more)
  | word _ _ _ _, rest => EndsRun isWordPart rest
  | _, _ => True

/-- The text of a number is always read, and as its value. -/
theorem ofChars?_numberText (whole : Digits) (fraction : Option Digits) :
    Decimal.ofChars? (numberText whole fraction) = some (numberValue whole fraction) := by
  cases fraction with
  | none =>
    have taken : whole.chars.takeWhile Char.isDigit = whole.chars := by
      simpa using endsRun_nil.takeWhile_append whole.isDigit_of_mem
    have dropped : whole.chars.dropWhile Char.isDigit = [] := by
      simpa using endsRun_nil.dropWhile_append whole.isDigit_of_mem
    simp [Decimal.ofChars?, numberText, numberValue, taken, dropped, whole.chars_ne_nil]
  | some fraction =>
    have point := endsRun_isDigit_point fraction.chars
    have taken := point.takeWhile_append whole.isDigit_of_mem
    have dropped := point.dropWhile_append whole.isDigit_of_mem
    have digits : fraction.chars.all Char.isDigit = true := List.all_eq_true.mpr fraction.isDigit_of_mem
    simp [Decimal.ofChars?, numberText, numberValue, taken, dropped, whole.chars_ne_nil,
      fraction.chars_ne_nil, digits]

theorem endsBefore_nil (lexeme : Lexeme) : lexeme.EndsBefore [] := by
  cases lexeme with
  | number whole fraction => exact ⟨endsRun_nil, fun _ _ point => nomatch point⟩
  | slash => exact endsRun_nil
  | short c rule extensible => exact endsRun_nil
  | word first others start parts => exact endsRun_nil
  | _ => trivial

theorem text_ne_nil (lexeme : Lexeme) : lexeme.text ≠ [] := by
  cases lexeme with
  | number whole fraction => cases fraction <;> simp [text, numberText, whole.chars_ne_nil]
  | _ => simp [text]

/-- The first character tells the form. -/
theorem lead_of_text {lexeme : Lexeme} {first : Char} {others : List Char}
    (begins : lexeme.text = first :: others) : Lead.of first = lexeme.lead := by
  cases lexeme with
  | delimiter c kind single =>
    obtain ⟨rfl, -⟩ := List.cons.inj begins
    exact lead_of_single? single
  | slash =>
    obtain ⟨rfl, -⟩ := List.cons.inj begins
    rfl
  | short c rule extensible =>
    obtain ⟨rfl, -⟩ := List.cons.inj begins
    exact lead_of_extensible? extensible
  | long c rule extensible =>
    obtain ⟨rfl, -⟩ := List.cons.inj begins
    exact lead_of_extensible? extensible
  | string contents noQuote =>
    obtain ⟨rfl, -⟩ := List.cons.inj begins
    rfl
  | number whole fraction =>
    obtain ⟨digit, digits, cut⟩ := List.exists_cons_of_ne_nil whole.chars_ne_nil
    have same : digit = first := by
      cases fraction <;> simp only [text, numberText, cut, List.cons_append] at begins <;>
        exact (List.cons.inj begins).1
    exact lead_of_isDigit (whole.isDigit_of_mem first (by simp [cut, same]))
  | word c others start parts =>
    obtain ⟨rfl, -⟩ := List.cons.inj begins
    exact lead_of_isWordStart start

end Lexeme

end ScriptLexer
