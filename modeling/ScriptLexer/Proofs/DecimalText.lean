import ScriptLexer.Proofs.Lexeme

namespace ScriptLexer

-- Powers are those of the core library, whatever else is imported.
attribute [local instance (high)] instPowNat

theorem isDigit_toDigits (n : Nat) : ∀ c ∈ Nat.toDigits 10 n, c.isDigit = true :=
  fun _ member => Nat.isDigit_of_mem_toDigits (by decide) (by decide) member

/-- Only zero itself begins with a zero. -/
theorem head?_toDigits_ne_zero {n : Nat} (positive : 0 < n) :
    (Nat.toDigits 10 n).head? ≠ some '0' := by
  induction n using Nat.strongRecOn with
  | ind n ih =>
    rcases Nat.lt_or_ge n 10 with small | large
    · rw [Nat.toDigits_of_lt_base small, List.head?_cons]
      intro zero
      exact Nat.ne_of_gt positive (Nat.digitChar_eq_zero.mp (Option.some.inj zero))
    · have front := ih (n / 10) (by omega) (by omega)
      obtain ⟨first, others, cut⟩ := List.exists_cons_of_ne_nil (@Nat.toDigits_ne_nil (n / 10) 10)
      rw [Nat.toDigits_of_base_le (by decide) large, cut]
      rwa [cut] at front

theorem getLast?_toDigits (n : Nat) : (Nat.toDigits 10 n).getLast? = some (n % 10).digitChar := by
  rw [Nat.toDigits_eq_if (by decide)]
  split
  · next small =>
    rw [Nat.mod_eq_of_lt small]
    rfl
  · exact List.getLast?_concat

theorem toDigits_mul_pow {n : Nat} (positive : 0 < n) (zeros : Nat) :
    Nat.toDigits 10 (n * 10 ^ zeros) = Nat.toDigits 10 n ++ List.replicate zeros '0' := by
  induction zeros with
  | zero => rw [Nat.pow_zero, Nat.mul_one, List.replicate_zero, List.append_nil]
  | succ zeros ih =>
    have power : 0 < n * 10 ^ zeros := Nat.mul_pos positive (Nat.pow_pos (by decide))
    rw [Nat.pow_succ, ← Nat.mul_assoc, Nat.toDigits_of_base_le (by decide) (by omega),
      Nat.mul_div_cancel _ (by decide), Nat.mul_mod_left, ih, List.append_assoc, List.replicate_succ']
    rfl

theorem ofDigitChars_append (front back : List Char) :
    Nat.ofDigitChars 10 (front ++ back) 0 =
      Nat.ofDigitChars 10 front 0 * 10 ^ back.length + Nat.ofDigitChars 10 back 0 := by
  rw [Nat.ofDigitChars_append, Nat.ofDigitChars_eq_ofDigitChars_zero, Nat.mul_comm]

theorem ofDigitChars_singleton (c : Char) : Nat.ofDigitChars 10 [c] 0 = c.toNat - '0'.toNat := by
  rw [Nat.ofDigitChars_cons, Nat.ofDigitChars_nil, Nat.mul_zero, Nat.zero_add]

theorem ofDigitChars_zeros_append (count : Nat) (digits : List Char) :
    Nat.ofDigitChars 10 (List.replicate count '0' ++ digits) 0 = Nat.ofDigitChars 10 digits 0 := by
  rw [ofDigitChars_append, Nat.ofDigitChars_replicate_zero, Nat.mul_zero, Nat.zero_mul, Nat.zero_add]

theorem isDigit_zeros (count : Nat) : ∀ c ∈ List.replicate count '0', c.isDigit = true := by
  intro c member
  rw [List.eq_of_mem_replicate member]
  rfl

theorem ofDigitChars_lt {digits : List Char} (inside : ∀ c ∈ digits, c.isDigit = true) :
    Nat.ofDigitChars 10 digits 0 < 10 ^ digits.length := by
  induction digits with
  | nil => decide
  | cons c digits ih =>
    obtain ⟨digit, others⟩ := List.forall_mem_cons.mp inside
    have small : c.toNat - '0'.toNat ≤ 9 := by
      have last : c.val ≤ '9'.val := of_decide_eq_true (Bool.and_eq_true_iff.mp digit).2
      exact Nat.sub_le_sub_right (UInt32.le_iff_toNat_le.mp last) '0'.toNat
    have rest := ih others
    have scaled := Nat.mul_le_mul_right (10 ^ digits.length) small
    rw [← List.singleton_append, ofDigitChars_append, ofDigitChars_singleton, List.length_append,
      List.length_singleton, Nat.pow_add, Nat.pow_one]
    omega

/-- No zero stands in front of other whole digits, and none behind a point at the end. -/
structure IsPlain (whole : Digits) (fraction : Option Digits) : Prop where
  leading : whole.chars.head? = some '0' → whole.chars = ['0']
  trailing : ∀ digits, fraction = some digits → digits.chars.getLast? ≠ some '0'

namespace Decimal

variable (d : Decimal)

theorem paddedDigits_eq : d.paddedDigits =
    List.replicate (d.places + 1 - (Nat.toDigits 10 d.digits).length) '0' ++
      Nat.toDigits 10 d.digits := rfl

theorem isDigit_paddedDigits : ∀ c ∈ d.paddedDigits, c.isDigit = true := by
  rw [paddedDigits_eq]
  exact List.forall_mem_append.mpr ⟨isDigit_zeros _, isDigit_toDigits d.digits⟩

theorem ofDigitChars_paddedDigits : Nat.ofDigitChars 10 d.paddedDigits 0 = d.digits := by
  rw [paddedDigits_eq, ofDigitChars_zeros_append, Nat.ofDigitChars_ten_toDigits]

theorem getLast?_paddedDigits : d.paddedDigits.getLast? = some (d.digits % 10).digitChar := by
  rw [paddedDigits_eq, List.getLast?_append, getLast?_toDigits]
  rfl

/-- Zeros are put in front only as far as they are needed for one digit before the point. -/
theorem leading_paddedDigits (head : d.paddedDigits.head? = some '0') :
    d.paddedDigits.take (d.paddedDigits.length - d.places) = ['0'] := by
  have written : 0 < (Nat.toDigits 10 d.digits).length := Nat.length_toDigits_pos
  rw [paddedDigits_eq] at head ⊢
  rcases Nat.lt_or_ge d.places (Nat.toDigits 10 d.digits).length with long | short
  · have noZeros : d.places + 1 - (Nat.toDigits 10 d.digits).length = 0 := Nat.sub_eq_zero_of_le long
    rw [noZeros, List.replicate_zero, List.nil_append] at head ⊢
    rcases Nat.eq_zero_or_pos d.digits with zero | positive
    · rw [zero, Nat.toDigits_zero] at long ⊢
      obtain pointless : d.places = 0 := Nat.lt_one_iff.mp long
      rw [pointless]
      rfl
    · exact absurd head (head?_toDigits_ne_zero positive)
  · obtain ⟨zeros, exactly⟩ : ∃ zeros, d.places + 1 - (Nat.toDigits 10 d.digits).length = zeros + 1 :=
      ⟨d.places - (Nat.toDigits 10 d.digits).length, by omega⟩
    have one : zeros + 1 + (Nat.toDigits 10 d.digits).length - d.places = 1 := by omega
    rw [exactly, List.length_append, List.length_replicate, one]
    rfl

/-- The written digits in front of the point, or all of them if there is none. -/
def wholeDigits : Digits where
  chars := d.paddedDigits.take (d.paddedDigits.length - d.places)
  chars_ne_nil := by
    have room := d.places_lt_paddedDigits_length
    refine List.ne_nil_of_length_pos ?_
    rw [List.length_take]
    omega
  isDigit_of_mem c member := d.isDigit_paddedDigits c (List.mem_of_mem_take member)

theorem length_drop_paddedDigits :
    (d.paddedDigits.drop (d.paddedDigits.length - d.places)).length = d.places := by
  have room := d.places_lt_paddedDigits_length
  rw [List.length_drop]
  omega

/-- The written digits behind the point, if there are any. -/
def fractionDigits? : Option Digits :=
  if pointless : d.places = 0 then none
  else some {
    chars := d.paddedDigits.drop (d.paddedDigits.length - d.places)
    chars_ne_nil := List.ne_nil_of_length_pos
      (d.length_drop_paddedDigits.symm ▸ Nat.pos_of_ne_zero pointless)
    isDigit_of_mem := fun c member => d.isDigit_paddedDigits c (List.mem_of_mem_drop member) }

theorem toChars_eq_numberText : d.toChars = Lexeme.numberText d.wholeDigits d.fractionDigits? := by
  simp only [toChars, fractionDigits?]
  split
  · next pointless =>
    simp only [Lexeme.numberText, wholeDigits]
    rw [pointless, Nat.sub_zero, List.take_length]
  · rfl

/-- The written form keeps the number and the places. -/
theorem numberValue_written : Lexeme.numberValue d.wholeDigits d.fractionDigits? = d := by
  have digits := d.ofDigitChars_paddedDigits
  simp only [fractionDigits?]
  split
  · next pointless =>
    simp only [Lexeme.numberValue, wholeDigits]
    rw [pointless, Nat.sub_zero, List.take_length, digits, ← pointless]
  · simp only [Lexeme.numberValue, wholeDigits]
    rw [List.take_append_drop, digits, length_drop_paddedDigits]

theorem isPlain_written (reduced : d.places = 0 ∨ d.digits % 10 ≠ 0) :
    IsPlain d.wholeDigits d.fractionDigits? := by
  have point : 0 < d.paddedDigits.length - d.places := Nat.sub_pos_of_lt d.places_lt_paddedDigits_length
  refine ⟨fun head => ?_, fun fraction behind last => ?_⟩
  · rw [wholeDigits, List.head?_take, if_neg (Nat.ne_of_gt point)] at head
    exact d.leading_paddedDigits head
  · simp only [fractionDigits?] at behind
    split at behind
    · cases behind
    · next pointed =>
      cases behind
      rw [List.getLast?_drop, if_neg (by omega), getLast?_paddedDigits] at last
      exact reduced.resolve_left pointed (Nat.digitChar_eq_zero.mp (Option.some.inj last))

/-- Only the texts of numbers are read. -/
theorem exists_numberText_of_ofChars? {text : List Char} {d : Decimal} (reads : ofChars? text = some d) :
    ∃ whole fraction, text = Lexeme.numberText whole fraction ∧
      Lexeme.numberValue whole fraction = d := by
  have cut := @List.takeWhile_append_dropWhile _ Char.isDigit text
  have inside : ∀ c ∈ text.takeWhile Char.isDigit, c.isDigit = true :=
    List.all_eq_true.mp List.all_takeWhile
  simp only [ofChars?, List.isEmpty_iff] at reads
  split at reads
  · cases reads
  · next begins =>
    let whole : Digits := ⟨text.takeWhile Char.isDigit, begins, inside⟩
    split at reads
    · next ends =>
      rw [ends, List.append_nil] at cut
      exact ⟨whole, none, cut.symm, Option.some.inj reads⟩
    · next point places rest =>
      split at reads
      · next form =>
        obtain ⟨rfl, nonempty, digits⟩ := form
        rw [rest] at cut
        exact ⟨whole, some ⟨places, nonempty, List.all_eq_true.mp digits⟩, cut.symm,
          Option.some.inj reads⟩
      · cases reads

end Decimal

theorem filter_isDigit {digits : List Char} (inside : ∀ c ∈ digits, c.isDigit = true) :
    digits.filter Char.isDigit = digits := List.filter_eq_self.mpr inside

/-- The number of a decimal is what its digits stand for with the point left out. -/
theorem ofDigitChars_filter_numberText (whole : Digits) (fraction : Option Digits) :
    Nat.ofDigitChars 10 ((Lexeme.numberText whole fraction).filter Char.isDigit) 0 =
      (Lexeme.numberValue whole fraction).digits := by
  cases fraction with
  | none => rw [Lexeme.numberText, filter_isDigit whole.isDigit_of_mem, Lexeme.numberValue]
  | some fraction =>
    rw [Lexeme.numberText, List.filter_append, List.filter_cons_of_neg (by decide),
      filter_isDigit whole.isDigit_of_mem, filter_isDigit fraction.isDigit_of_mem, Lexeme.numberValue]

theorem Decimal.filter_toChars (d : Decimal) : d.toChars.filter Char.isDigit = d.paddedDigits := by
  have all := filter_isDigit d.isDigit_paddedDigits
  simp only [toChars]
  split
  · exact all
  · rw [List.filter_append, List.filter_cons_of_neg (by decide), ← List.filter_append,
      List.take_append_drop, all]

/-- How many digits a written number has between the zeros at its ends. -/
def significantDigits (text : List Char) : Nat :=
  (((text.filter Char.isDigit).dropWhile (· == '0')).reverse.dropWhile (· == '0')).length

theorem exists_zeros_front (digits : List Char) :
    ∃ count, digits = List.replicate count '0' ++ digits.dropWhile (· == '0') := by
  have zeros : digits.takeWhile (· == '0') = List.replicate (digits.takeWhile (· == '0')).length '0' :=
    List.eq_replicate_of_mem fun c member => eq_of_beq (List.all_eq_true.mp List.all_takeWhile c member)
  refine ⟨(digits.takeWhile (· == '0')).length, ?_⟩
  rw [← zeros, List.takeWhile_append_dropWhile]

/-- The digits that count, between zeros. -/
theorem exists_significant (text : List Char) :
    ∃ front core back, text.filter Char.isDigit =
        List.replicate front '0' ++ (core ++ List.replicate back '0') ∧
      core.length = significantDigits text := by
  obtain ⟨front, cut⟩ := exists_zeros_front (text.filter Char.isDigit)
  obtain ⟨back, cutBack⟩ := exists_zeros_front ((text.filter Char.isDigit).dropWhile (· == '0')).reverse
  have turned := congrArg List.reverse cutBack
  rw [List.reverse_reverse, List.reverse_append, List.reverse_replicate] at turned
  exact ⟨front, _, back, turned ▸ cut, List.length_reverse⟩

/-- The zeros at the end aside, a number has no more digits than count. -/
theorem exists_lt_pow {text : List Char} {d : Decimal} (reads : Decimal.ofChars? text = some d) :
    ∃ core zeros : Nat, d.digits = core * 10 ^ zeros ∧ core < 10 ^ significantDigits text := by
  obtain ⟨whole, fraction, rfl, rfl⟩ := Decimal.exists_numberText_of_ofChars? reads
  have number := ofDigitChars_filter_numberText whole fraction
  obtain ⟨front, core, back, cut, length⟩ := exists_significant (Lexeme.numberText whole fraction)
  have inside : ∀ c ∈ core, c.isDigit = true := by
    intro c member
    have inText : c ∈ (Lexeme.numberText whole fraction).filter Char.isDigit := by
      rw [cut]
      exact List.mem_append_right _ (List.mem_append_left _ member)
    exact (List.mem_filter.mp inText).2
  refine ⟨Nat.ofDigitChars 10 core 0, back, ?_, length ▸ ofDigitChars_lt inside⟩
  rw [← number, cut, ofDigitChars_zeros_append, ofDigitChars_append, Nat.ofDigitChars_replicate_zero,
    List.length_replicate, Nat.mul_zero, Nat.add_zero]

theorem significantDigits_le {text core : List Char} {front back : Nat}
    (cut : text.filter Char.isDigit = List.replicate front '0' ++ (core ++ List.replicate back '0'))
    (begins : EndsRun (· == '0') (core ++ List.replicate back '0')) :
    significantDigits text ≤ core.length := by
  have zeros (count : Nat) : ∀ c ∈ List.replicate count '0', (c == '0') = true :=
    fun c member => beq_iff_eq.mpr (List.eq_of_mem_replicate member)
  rw [significantDigits, cut, begins.dropWhile_append (zeros front), List.reverse_append,
    List.reverse_replicate, List.dropWhile_append_of_pos (zeros back), ← core.length_reverse]
  exact (List.dropWhile_sublist _).length_le

end ScriptLexer
