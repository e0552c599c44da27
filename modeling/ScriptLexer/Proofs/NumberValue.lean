import Mathlib.Order.WithBot
import ScriptLexer.Proofs.DecimalText
import ScriptLexer.Proofs.GrammarSegment
import ScriptLexer.Proofs.Nearest

namespace ScriptLexer

-- Powers are those of the core library, whatever else is imported.
attribute [local instance (high)] instPowNat

namespace Binary64

/-- The number that a double without sign stands for, infinity being above all others. -/
def extended (x : Binary64) : WithTop ℚ := if x.isInfinite then ⊤ else x.value

/-- Without signs the order of the bits is that of the numbers. -/
theorem extended_le_extended {x y : Binary64} (hx : x.IsUnsigned) (hy : y.IsUnsigned)
    (atMost : x.magnitude ≤ y.magnitude) : x.extended ≤ y.extended := by
  rcases Nat.lt_or_eq_of_le atMost with below | equal
  · cases infinite : y.isInfinite with
    | true =>
      rw [extended, extended, if_pos infinite]
      exact le_top
    | false =>
      have otherFinite : y.IsFinite := ⟨hy.isNumber, infinite⟩
      have finite : x.IsFinite :=
        isFinite_iff_magnitude.mpr (Nat.lt_trans below (isFinite_iff_magnitude.mp otherFinite))
      have order := value_lt_value hx.noSign hy.noSign below
      simpa [extended, finite.isBounded, infinite] using order.le
  · rw [hx.ext hy equal]

theorem extended_ofRatio_le {num den other otherDen : Nat} (positive : 0 < den)
    (otherPositive : 0 < otherDen) (atMost : (num : ℚ) / den ≤ other / otherDen) :
    (ofRatio num den).extended ≤ (ofRatio other otherDen).extended := by
  rw [div_le_div_iff₀ (Nat.cast_pos.mpr positive) (Nat.cast_pos.mpr otherPositive)] at atMost
  refine extended_le_extended (isUnsigned_ofRatio _ _) (isUnsigned_ofRatio _ _) ?_
  rw [magnitude_ofRatio, magnitude_ofRatio]
  exact nearestMagnitude_le_nearestMagnitude positive otherPositive (by exact_mod_cast atMost)

end Binary64

/-- The number that digits stand for in front of a point. -/
def wholeValue (digits : List Char) : ℚ :=
  digits.foldl (fun value c => 10 * value + (c.toNat - '0'.toNat : Nat)) 0

/-- The number that digits stand for behind a point. -/
def fractionValue (digits : List Char) : ℚ :=
  digits.foldr (fun c value => ((c.toNat - '0'.toNat : Nat) + value) / 10) 0

/-- The number that is written as digits, or as digits, a point and digits. -/
def writtenValue (text : List Char) : ℚ :=
  wholeValue (text.takeWhile Char.isDigit) + fractionValue ((text.dropWhile Char.isDigit).drop 1)

/-- The other text has zeros more than the first, and only where they stand for nothing: in front, behind
a point that the digits did not have, or behind all when there is a point. -/
inductive Padded : List Char → List Char → Prop
  | front (text : List Char) (count : Nat) : Padded text (List.replicate count '0' ++ text)
  | point {text : List Char} (count : Nat) (digits : ∀ c ∈ text, c.isDigit = true) :
      Padded text (text ++ '.' :: List.replicate count '0')
  | behind {text : List Char} (count : Nat) (pointed : '.' ∈ text) :
      Padded text (text ++ List.replicate count '0')
  | trans {text middle other : List Char} (first : Padded text middle) (later : Padded middle other) :
      Padded text other

theorem foldl_wholeValue (digits : List Char) (start : Nat) :
    digits.foldl (fun (value : ℚ) c => 10 * value + (c.toNat - '0'.toNat : Nat)) start =
      Nat.ofDigitChars 10 digits start := by
  induction digits generalizing start with
  | nil => rfl
  | cons c digits ih =>
    rw [Nat.ofDigitChars_cons, ← ih, List.foldl_cons]
    push_cast
    rfl

theorem wholeValue_eq (digits : List Char) : wholeValue digits = Nat.ofDigitChars 10 digits 0 := by
  rw [← foldl_wholeValue, Nat.cast_zero, wholeValue]

theorem fractionValue_eq (digits : List Char) :
    fractionValue digits = Nat.ofDigitChars 10 digits 0 / 10 ^ digits.length := by
  induction digits with
  | nil => simp [fractionValue]
  | cons c digits ih =>
    rw [fractionValue, List.foldr_cons, ← fractionValue, ih, ← List.singleton_append, ofDigitChars_append,
      ofDigitChars_singleton, List.length_append, List.length_singleton, pow_add, pow_one]
    push_cast
    field_simp

theorem writtenValue_append {run rest : List Char} (digits : ∀ c ∈ run, c.isDigit = true)
    (ends : EndsRun Char.isDigit rest) :
    writtenValue (run ++ rest) = wholeValue run + fractionValue (rest.drop 1) := by
  rw [writtenValue, ends.takeWhile_append digits, ends.dropWhile_append digits]

theorem writtenValue_whole {run : List Char} (digits : ∀ c ∈ run, c.isDigit = true) :
    writtenValue run = wholeValue run := by
  have alone := writtenValue_append digits endsRun_nil
  rw [List.append_nil] at alone
  exact alone.trans (add_zero _)

/-- What is read from a text is the number that is written there. -/
theorem writtenValue_numberText (whole : Digits) (fraction : Option Digits) :
    writtenValue (Lexeme.numberText whole fraction) =
      ((Lexeme.numberValue whole fraction).digits : ℚ) /
        ((10 ^ (Lexeme.numberValue whole fraction).places : Nat) : ℚ) := by
  cases fraction with
  | none =>
    simp only [Lexeme.numberText, Lexeme.numberValue]
    rw [writtenValue_whole whole.isDigit_of_mem, wholeValue_eq, Nat.pow_zero, Nat.cast_one, div_one]
  | some fraction =>
    simp only [Lexeme.numberText, Lexeme.numberValue]
    rw [writtenValue_append whole.isDigit_of_mem (endsRun_isDigit_point _), List.drop_one, List.tail_cons,
      wholeValue_eq, fractionValue_eq, ofDigitChars_append]
    push_cast
    field_simp

theorem wholeValue_zeros_append (count : Nat) (digits : List Char) :
    wholeValue (List.replicate count '0' ++ digits) = wholeValue digits := by
  rw [wholeValue_eq, wholeValue_eq, ofDigitChars_zeros_append]

theorem fractionValue_zeros (count : Nat) : fractionValue (List.replicate count '0') = 0 := by
  rw [fractionValue_eq, Nat.ofDigitChars_replicate_zero, Nat.mul_zero, Nat.cast_zero, zero_div]

theorem fractionValue_append_zeros (digits : List Char) (count : Nat) :
    fractionValue (digits ++ List.replicate count '0') = fractionValue digits := by
  rw [fractionValue, List.foldr_append, ← fractionValue, fractionValue_zeros, fractionValue]

theorem Padded.writtenValue_eq {text other : List Char} (padded : Padded text other) :
    writtenValue other = writtenValue text := by
  induction padded with
  | front text count =>
    obtain ⟨run, rest, rfl, inRun, ends⟩ := Segment.exists_run Char.isDigit text
    have allDigits := List.forall_mem_append.mpr ⟨isDigit_zeros count, inRun⟩
    rw [← List.append_assoc, writtenValue_append allDigits ends, writtenValue_append inRun ends,
      wholeValue_zeros_append]
  | point count digits =>
    rw [writtenValue_append digits (endsRun_isDigit_point _), writtenValue_whole digits, List.drop_one,
      List.tail_cons, fractionValue_zeros, add_zero]
  | @behind text count pointed =>
    obtain ⟨run, rest, rfl, inRun, ends⟩ := Segment.exists_run Char.isDigit text
    cases rest with
    | nil =>
      rw [List.append_nil] at pointed
      exact absurd (inRun '.' pointed) (by decide)
    | cons point fraction =>
      have stops : EndsRun Char.isDigit (point :: fraction ++ List.replicate count '0') := ends
      rw [List.append_assoc, writtenValue_append inRun stops, writtenValue_append inRun ends,
        List.cons_append, List.drop_one, List.drop_one, List.tail_cons, List.tail_cons,
        fractionValue_append_zeros]
  | trans first later sameFirst sameLater => exact sameLater.trans sameFirst

namespace Token.IsFound

variable {token other : Token}

theorem number_cases (found : token.IsFound) (number : token.kind = .number) :
    ∃ whole fraction, token.lexeme.toList = Lexeme.numberText whole fraction ∧
      token.literal = some (.number (.ofDecimal (Lexeme.numberValue whole fraction))) := by
  rcases found.cases with ⟨lexeme, form⟩ | form
  · rw [form] at number
    have kind : lexeme.kind = .number := number
    have lead := lexeme.lead_eq_kind_lead
    rw [kind] at lead
    cases lexeme with
    | number whole fraction =>
      refine ⟨whole, fraction, ?_, ?_⟩
      · rw [form]
        exact String.toList_ofList
      · rw [form]
        rfl
    | _ => cases lead
  · rw [form] at number
    cases number

/-- A number has a value, and that is rounded from what is written. -/
theorem exists_isRounded (found : token.IsFound) (number : token.kind = .number) :
    ∃ x, token.literal = some (.number x) ∧ x.IsRounded (writtenValue token.lexeme.toList) := by
  obtain ⟨whole, fraction, text, literal⟩ := found.number_cases number
  refine ⟨_, literal, ?_⟩
  rw [text, writtenValue_numberText]
  exact Binary64.isRounded_ofRatio _ (Nat.pow_pos (by decide))

theorem literal_eq_of_writtenValue_eq (found : token.IsFound) (otherFound : other.IsFound)
    (number : token.kind = .number) (otherNumber : other.kind = .number)
    (same : writtenValue other.lexeme.toList = writtenValue token.lexeme.toList) :
    other.literal = token.literal := by
  obtain ⟨x, literal, rounded⟩ := found.exists_isRounded number
  obtain ⟨y, otherLiteral, otherRounded⟩ := otherFound.exists_isRounded otherNumber
  rw [same] at otherRounded
  rw [literal, otherLiteral, rounded.unique otherRounded]

theorem extended_le (found : token.IsFound) (otherFound : other.IsFound) (number : token.kind = .number)
    (otherNumber : other.kind = .number) {x y : Binary64} (literal : token.literal = some (.number x))
    (otherLiteral : other.literal = some (.number y))
    (atMost : writtenValue token.lexeme.toList ≤ writtenValue other.lexeme.toList) :
    x.extended ≤ y.extended := by
  obtain ⟨whole, fraction, text, form⟩ := found.number_cases number
  obtain ⟨otherWhole, otherFraction, otherText, otherForm⟩ := otherFound.number_cases otherNumber
  rw [text, otherText, writtenValue_numberText, writtenValue_numberText] at atMost
  obtain rfl := Literal.number.inj (Option.some.inj (literal.symm.trans form))
  obtain rfl := Literal.number.inj (Option.some.inj (otherLiteral.symm.trans otherForm))
  exact Binary64.extended_ofRatio_le (Nat.pow_pos (by decide)) (Nat.pow_pos (by decide)) atMost

end Token.IsFound

/-- The grammar reads digits, or digits, a point and digits, as the double that the written number is
rounded to, and it reads nothing else as a number. -/
theorem Grammar.matches_number_iff {text : List Char} {literal : Option Literal} :
    Matches text (.token .number literal) ↔ ∃ whole fraction x, text = Lexeme.numberText whole fraction ∧
      literal = some (.number x) ∧ x.IsRounded (writtenValue text) := by
  constructor
  · intro matched
    obtain ⟨segment, noError, rfl, reading⟩ := matched.exists_segment
    have read := reading 0
    cases segment with
    | token lexeme =>
      obtain ⟨kind, sameLiteral⟩ := Reading.token.inj read
      have lead := lexeme.lead_eq_kind_lead
      rw [kind] at lead
      cases lexeme with
      | number whole fraction =>
        refine ⟨whole, fraction, _, rfl, sameLiteral.symm, ?_⟩
        rw [Segment.text, Lexeme.text, writtenValue_numberText]
        exact Binary64.isRounded_ofRatio _ (Nat.pow_pos (by decide))
      | _ => cases lead
    | _ => cases read
  · rintro ⟨whole, fraction, x, rfl, rfl, rounded⟩
    have noError : ¬Segment.IsError (.token (.number whole fraction)) := id
    have matched := matches_segment 0 noError
    rw [writtenValue_numberText] at rounded
    rw [rounded.unique (Binary64.isRounded_ofRatio _ (Nat.pow_pos (by decide)))]
    exact matched

/-- A number that was found is the double that the written number is rounded to. So zeros that stand
for nothing change no bit of it, and a greater number never gives a smaller double. -/
theorem number_rounded :
    (∀ token : Token, token.IsFound → token.kind = .number →
      ∃ x, token.literal = some (.number x) ∧ x.IsRounded (writtenValue token.lexeme.toList) ∧
        ∀ y : Binary64, y.IsRounded (writtenValue token.lexeme.toList) → y = x) ∧
    (∀ token other : Token, token.IsFound → other.IsFound → token.kind = .number → other.kind = .number →
      (Padded token.lexeme.toList other.lexeme.toList → other.literal = token.literal) ∧
      ∀ x y : Binary64, token.literal = some (.number x) → other.literal = some (.number y) →
        writtenValue token.lexeme.toList ≤ writtenValue other.lexeme.toList →
        x.extended ≤ y.extended) := by
  refine ⟨fun token found number => ?_, fun token other found otherFound number otherNumber =>
    ⟨fun padded => ?_, fun x y literal otherLiteral atMost => ?_⟩⟩
  · obtain ⟨x, literal, rounded⟩ := found.exists_isRounded number
    exact ⟨x, literal, rounded, fun y otherRounded => otherRounded.unique rounded⟩
  · exact found.literal_eq_of_writtenValue_eq otherFound number otherNumber padded.writtenValue_eq
  · exact found.extended_le otherFound number otherNumber literal otherLiteral atMost

/-- The number lies halfway between two doubles and goes to the even one below it. Zeros around it leave
it there, but another digit turns it, however far to the right, to the double above. -/
theorem number_rounded_point :
    ∃ (token padded other : Token) (x y : Binary64), token ∈ (scan "9007199254740993").1 ∧
      padded ∈ (scan "009007199254740993.000").1 ∧ other ∈ (scan "9007199254740993.001").1 ∧
      token.literal = some (.number x) ∧ padded.literal = some (.number x) ∧
      other.literal = some (.number y) ∧ x.bits + 1 = y.bits ∧
      x.IsRounded (writtenValue "9007199254740993".toList) ∧ x.extended ≤ y.extended := by
  let x : Binary64 := ⟨4845873199050653696⟩
  let y : Binary64 := ⟨4845873199050653697⟩
  let token : Token := ⟨.number, "9007199254740993", some (.number x), 1⟩
  let padded : Token := ⟨.number, "009007199254740993.000", some (.number x), 1⟩
  let other : Token := ⟨.number, "9007199254740993.001", some (.number y), 1⟩
  have first : (scan "9007199254740993").1 = [token, .endOfFile 1] := by decide +kernel
  have second : (scan "009007199254740993.000").1 = [padded, .endOfFile 1] := by decide +kernel
  have third : (scan "9007199254740993.001").1 = [other, .endOfFile 1] := by decide +kernel
  have inFirst : token ∈ (scan "9007199254740993").1 := first ▸ List.mem_cons_self
  have inSecond : padded ∈ (scan "009007199254740993.000").1 := second ▸ List.mem_cons_self
  have inThird : other ∈ (scan "9007199254740993.001").1 := third ▸ List.mem_cons_self
  have digits : token.lexeme.toList.all Char.isDigit = true := by decide +kernel
  have text : padded.lexeme.toList =
      List.replicate 2 '0' ++ (token.lexeme.toList ++ '.' :: List.replicate 3 '0') := by
    decide +kernel
  have zeros : Padded token.lexeme.toList padded.lexeme.toList :=
    text ▸ (Padded.point 3 (List.all_eq_true.mp digits)).trans (.front _ 2)
  have atMost : writtenValue token.lexeme.toList ≤ writtenValue other.lexeme.toList := by
    decide +kernel
  obtain ⟨rounded, related⟩ := number_rounded
  obtain ⟨value, literal, isRounded, -⟩ := rounded token ⟨_, inFirst⟩ rfl
  obtain rfl : x = value := Literal.number.inj (Option.some.inj literal)
  have same := (related token padded ⟨_, inFirst⟩ ⟨_, inSecond⟩ rfl rfl).1 zeros
  have order := (related token other ⟨_, inFirst⟩ ⟨_, inThird⟩ rfl rfl).2 x y rfl rfl atMost
  exact ⟨token, padded, other, x, y, inFirst, inSecond, inThird, rfl, same.trans rfl, rfl, by decide,
    isRounded, order⟩

end ScriptLexer
