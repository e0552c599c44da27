import Mathlib.Algebra.Order.Field.Basic
import Mathlib.Algebra.Order.Field.Rat
import Mathlib.Algebra.Order.Ring.Abs
import Mathlib.Tactic.FieldSimp
import Mathlib.Tactic.Linarith
import Mathlib.Tactic.Ring
import ScriptLexer.Proofs.Equality
import ScriptLexer.Proofs.Magnitude

namespace ScriptLexer

namespace Binary64

-- Powers are those of the core library, whatever else is imported.
attribute [local instance (high)] instPowNat

/-- Neither an infinity nor a NaN. -/
structure IsFinite (x : Binary64) : Prop where
  isNumber : x.isNaN = false
  isBounded : x.isInfinite = false

/-- The number that a finite double stands for. -/
def value (x : Binary64) : ℚ := (if x.isNegative then -1 else 1) * x.units / 2 ^ unitPlaces

/-- The double without sign that a number is rounded to: the nearest, of two equally near the even one,
and infinity from halfway between the greatest double and the next power of two on. -/
structure IsRounded (x : Binary64) (q : ℚ) : Prop where
  isUnsigned : x.IsUnsigned
  isInfinite_iff : x.isInfinite = true ↔ 2 ^ 1024 - 2 ^ 970 ≤ q
  nearest : x.isInfinite = false → ∀ y : Binary64, y.IsFinite → |x.value - q| ≤ |y.value - q|
  even : x.isInfinite = false → ∀ y : Binary64, y.IsFinite → y.value ≠ x.value →
    |y.value - q| = |x.value - q| → x.fraction % 2 = 0

section Distance

variable {a b q : ℚ}

theorem abs_sub_le_of_below (order : a ≤ b) (half : 2 * q ≤ a + b) : |a - q| ≤ |b - q| := by
  refine le_trans (abs_le'.mpr ⟨?_, ?_⟩) (le_abs_self _)
  · linarith
  · linarith

theorem abs_sub_le_of_above (order : b ≤ a) (half : a + b ≤ 2 * q) : |a - q| ≤ |b - q| := by
  refine le_trans (abs_le'.mpr ⟨?_, ?_⟩) (neg_le_abs _)
  · linarith
  · linarith

/-- Two points are equally far only from the point halfway between them. -/
theorem two_mul_eq_add_of_abs_eq (apart : b ≠ a) (same : |b - q| = |a - q|) : 2 * q = a + b := by
  rcases abs_eq_abs.mp same with equal | opposite
  · exact absurd (sub_left_inj.mp equal) apart
  · linarith

end Distance

theorem isInfinite_iff_magnitude {x : Binary64} :
    x.isInfinite = true ↔ x.magnitude = infinityMagnitude := by
  simp only [isInfinite, exponent, fraction, infinityMagnitude, topExponent, fractionBits,
    Bool.and_eq_true, beq_iff_eq]
  omega

/-- The magnitudes behind infinity are those of NaNs. -/
theorem isFinite_iff_magnitude {x : Binary64} : x.IsFinite ↔ x.magnitude < infinityMagnitude := by
  have bound : x.magnitude < 2 ^ magnitudeBits := Nat.mod_lt _ (Nat.two_pow_pos magnitudeBits)
  have split : x.IsFinite ↔ x.isNaN = false ∧ x.isInfinite = false :=
    ⟨fun finite => ⟨finite.isNumber, finite.isBounded⟩, fun both => ⟨both.1, both.2⟩⟩
  simp only [split, isNaN, isInfinite, exponent, fraction, infinityMagnitude, topExponent, fractionBits,
    magnitudeBits, Bool.and_eq_false_iff, beq_eq_false_iff_ne, bne_eq_false_iff_eq] at bound ⊢
  omega

theorem IsUnsigned.ext {x y : Binary64} (hx : x.IsUnsigned) (hy : y.IsUnsigned)
    (same : x.magnitude = y.magnitude) : x = y := by
  have bits (z : Binary64) (unsigned : z.IsUnsigned) : z.magnitude = z.bits.toNat :=
    Nat.mod_eq_of_lt (Nat.lt_of_not_le (of_decide_eq_false unsigned.noSign))
  rw [bits x hx, bits y hy] at same
  exact congrArg Binary64.mk (UInt64.toNat_inj.mp same)

theorem fraction_mod_two (x : Binary64) : x.fraction % 2 = x.magnitude % 2 := by
  rw [fraction, fractionBits]
  omega

theorem isUnsigned_ofMagnitude {m : Nat} (finite : m < infinityMagnitude) :
    (ofMagnitude m).IsUnsigned ∧ (ofMagnitude m).IsFinite ∧ (ofMagnitude m).magnitude = m := by
  have below : m < 2 ^ magnitudeBits := Nat.lt_trans finite (by decide)
  have isFinite : (ofMagnitude m).IsFinite :=
    isFinite_iff_magnitude.mpr ((magnitude_ofMagnitude below).symm ▸ finite)
  exact ⟨⟨isFinite.isNumber, isNegative_ofMagnitude below⟩, isFinite, magnitude_ofMagnitude below⟩

/-- Distances of values are distances of units. -/
theorem abs_div_sub (units q : ℚ) :
    |units / 2 ^ unitPlaces - q| = |units - q * 2 ^ unitPlaces| / 2 ^ unitPlaces := by
  have positive : (0 : ℚ) < 2 ^ unitPlaces := pow_pos two_pos _
  have together : units / 2 ^ unitPlaces - q = (units - q * 2 ^ unitPlaces) / 2 ^ unitPlaces := by
    field_simp
  rw [together, abs_div, abs_of_pos positive]

theorem value_of_noSign {x : Binary64} (noSign : x.isNegative = false) :
    x.value = unitsAt x.magnitude / 2 ^ unitPlaces := by
  simp [value, noSign, units_eq_unitsAt]

theorem value_of_sign {x : Binary64} (sign : x.isNegative = true) :
    x.value = -unitsAt x.magnitude / 2 ^ unitPlaces := by
  simp [value, sign, units_eq_unitsAt]

theorem value_lt_value {x y : Binary64} (hx : x.isNegative = false) (hy : y.isNegative = false)
    (below : x.magnitude < y.magnitude) : x.value < y.value := by
  rw [value_of_noSign hx, value_of_noSign hy]
  exact div_lt_div_of_pos_right (Nat.cast_lt.mpr (unitsAt_lt_unitsAt below)) (pow_pos two_pos _)

/-- A number of units lies between the points halfway to the neighbours of a magnitude, and on one of
these points only if the magnitude is even. -/
structure IsAround (m : Nat) (units : ℚ) : Prop where
  upper : 2 * units ≤ unitsAt m + unitsAt (m + 1)
  even_of_upper : 2 * units = unitsAt m + unitsAt (m + 1) → m % 2 = 0
  lower : ∀ k, k + 1 = m → (unitsAt k : ℚ) + unitsAt m ≤ 2 * units
  even_of_lower : ∀ k, k + 1 = m → (unitsAt k : ℚ) + unitsAt m = 2 * units → m % 2 = 0

section Around

variable {m k : Nat} {units : ℚ}

theorem cast_unitsAt_le {m k : Nat} (atMost : m ≤ k) : (unitsAt m : ℚ) ≤ unitsAt k :=
  Nat.cast_le.mpr (unitsAt_le_unitsAt atMost)

theorem IsAround.abs_le (around : IsAround m units) (k : Nat) :
    |unitsAt m - units| ≤ |unitsAt k - units| := by
  rcases Nat.lt_trichotomy k m with below | rfl | above
  · obtain ⟨last, rfl⟩ := Nat.exists_eq_add_of_lt below
    have order := @cast_unitsAt_le k (k + last) (Nat.le_add_right k last)
    have step := @cast_unitsAt_le (k + last) (k + last + 1) (Nat.le_succ _)
    have half := around.lower (k + last) rfl
    exact abs_sub_le_of_above (by linarith) (by linarith)
  · exact le_refl _
  · have order := cast_unitsAt_le above
    have step := @cast_unitsAt_le m (m + 1) (Nat.le_succ m)
    have half := around.upper
    exact abs_sub_le_of_below (by linarith) (by linarith)

theorem IsAround.mod_two_eq (around : IsAround m units) (apart : (unitsAt k : ℚ) ≠ unitsAt m)
    (same : |unitsAt k - units| = |unitsAt m - units|) : m % 2 = 0 := by
  have half := two_mul_eq_add_of_abs_eq apart same
  rcases Nat.lt_trichotomy k m with below | rfl | above
  · obtain ⟨last, rfl⟩ := Nat.exists_eq_add_of_lt below
    have order := @cast_unitsAt_le k (k + last) (Nat.le_add_right k last)
    have bound := around.lower (k + last) rfl
    exact around.even_of_lower (k + last) rfl (by linarith)
  · exact absurd rfl apart
  · have order := cast_unitsAt_le above
    have bound := around.upper
    exact around.even_of_upper (by linarith)

/-- A negative double is no nearer to a number that is not negative than its positive counterpart. -/
theorem IsAround.abs_le_neg (around : IsAround m units) (notNegative : 0 ≤ units) (k : Nat) :
    |unitsAt m - units| ≤ |-unitsAt k - units| := by
  have units_k : (0 : ℚ) ≤ unitsAt k := Nat.cast_nonneg _
  refine le_trans (around.abs_le k) (le_trans (abs_le'.mpr ⟨?_, ?_⟩) (neg_le_abs _))
  · linarith
  · linarith

theorem IsAround.mod_two_eq_neg (around : IsAround m units) (apart : -(unitsAt k : ℚ) ≠ unitsAt m)
    (same : |-unitsAt k - units| = |unitsAt m - units|) : m % 2 = 0 := by
  have half := two_mul_eq_add_of_abs_eq apart same
  have units_k : (0 : ℚ) ≤ unitsAt k := Nat.cast_nonneg _
  cases m with
  | zero => rfl
  | succ last =>
    have units_last : (0 : ℚ) ≤ unitsAt last := Nat.cast_nonneg _
    have bound := around.lower last rfl
    exact around.even_of_lower last rfl (by linarith)

end Around

theorem IsAround.isRounded {x : Binary64} {q : ℚ} (around : IsAround x.magnitude (q * 2 ^ unitPlaces))
    (notNegative : 0 ≤ q) (unsigned : x.IsUnsigned) (finite : x.IsFinite)
    (small : q < 2 ^ 1024 - 2 ^ 970) : x.IsRounded q := by
  have positive : (0 : ℚ) < 2 ^ unitPlaces := pow_pos two_pos _
  have scaled : 0 ≤ q * 2 ^ unitPlaces := mul_nonneg notNegative positive.le
  have same (units : ℚ) (equal : |units / 2 ^ unitPlaces - q| = |x.value - q|) :
      |units - q * 2 ^ unitPlaces| = |unitsAt x.magnitude - q * 2 ^ unitPlaces| := by
    rwa [value_of_noSign unsigned.noSign, abs_div_sub, abs_div_sub, div_left_inj' positive.ne'] at equal
  have apart (units : ℚ) (different : units / 2 ^ unitPlaces ≠ x.value) : units ≠ unitsAt x.magnitude := by
    rintro rfl
    exact different (value_of_noSign unsigned.noSign).symm
  refine ⟨unsigned, ⟨fun infinite => ?_, fun large => absurd large (not_le.mpr small)⟩,
    fun _ y _ => ?_, fun _ y _ different equal => ?_⟩
  · exact absurd infinite (finite.isBounded ▸ Bool.false_ne_true)
  · rw [value_of_noSign unsigned.noSign, abs_div_sub]
    cases sign : y.isNegative with
    | false =>
      rw [value_of_noSign sign, abs_div_sub]
      exact div_le_div_of_nonneg_right (around.abs_le _) positive.le
    | true =>
      rw [value_of_sign sign, abs_div_sub]
      exact div_le_div_of_nonneg_right (around.abs_le_neg scaled _) positive.le
  · rw [fraction_mod_two]
    cases sign : y.isNegative with
    | false =>
      rw [value_of_noSign sign] at different equal
      exact around.mod_two_eq (apart _ different) (same _ equal)
    | true =>
      rw [value_of_sign sign] at different equal
      exact around.mod_two_eq_neg (apart _ different) (same _ equal)

section Ratios

variable {num den m : Nat}

/-- The same point in the numbers. -/
theorem liesBefore_iff (positive : 0 < den) :
    LiesBefore num den m ↔
      2 * ((num : ℚ) / den * 2 ^ unitPlaces) < unitsAt m + unitsAt (m + 1) ∨
      2 * ((num : ℚ) / den * 2 ^ unitPlaces) = unitsAt m + unitsAt (m + 1) ∧ m % 2 = 0 := by
  have den_pos : (0 : ℚ) < den := Nat.cast_pos.mpr positive
  have crossed : 2 * ((num : ℚ) / den * 2 ^ unitPlaces) * den = (2 * (num * 2 ^ unitPlaces) : Nat) := by
    push_cast
    field_simp
  have midpoint : ((unitsAt m : ℚ) + unitsAt (m + 1)) * den = (twiceMidpoint m * den : Nat) := by
    push_cast [twiceMidpoint]
    rfl
  rw [← mul_lt_mul_iff_left₀ den_pos, ← mul_left_inj' den_pos.ne', crossed, midpoint, Nat.cast_lt,
    Nat.cast_inj, LiesBefore]

theorem isAround_nearestMagnitude (positive : 0 < den)
    (finite : nearestMagnitude num den < infinityMagnitude) :
    IsAround (nearestMagnitude num den) ((num : ℚ) / den * 2 ^ unitPlaces) := by
  have before := (nearestMagnitude_le_iff positive finite).mp (Nat.le_refl _)
  have notBefore (k : Nat) (next : k + 1 = nearestMagnitude num den) : ¬LiesBefore num den k := by
    rw [← nearestMagnitude_le_iff positive (by omega)]
    omega
  refine ⟨?_, fun same => ?_, fun k next => ?_, fun k next same => ?_⟩
  · rcases (liesBefore_iff positive).mp before with less | ⟨equal, -⟩
    · exact less.le
    · exact equal.le
  · rcases (liesBefore_iff positive).mp before with less | ⟨-, even⟩
    · exact absurd same less.ne
    · exact even
  · have behind := notBefore k next
    rw [liesBefore_iff positive, not_or, not_lt, next] at behind
    exact behind.1
  · have behind := notBefore k next
    rw [liesBefore_iff positive, not_or, next] at behind
    have odd : ¬k % 2 = 0 := fun even => behind.2 ⟨same.symm, even⟩
    omega

theorem Stands.midpoint_eq {dropped steps : Nat} (stands : Stands m dropped steps) :
    (unitsAt m : ℚ) + unitsAt (m + 1) = (2 * steps + 1) * 2 ^ dropped := by
  rw [stands.unitsAt_eq, stands.unitsAt_succ_eq]
  push_cast
  ring

/-- Halfway between the last double and the power of two behind it. -/
theorem midpoint_last :
    (unitsAt (infinityMagnitude - 1) : ℚ) + unitsAt (infinityMagnitude - 1 + 1) =
      2 * ((2 ^ 1024 - 2 ^ 970) * 2 ^ unitPlaces) := by
  have stands : Stands (infinityMagnitude - 1) (1 + 970 + unitPlaces) (2 ^ 53 - 1) :=
    ⟨by decide, Or.inr (by decide), by decide⟩
  have steps : 2 * ((2 ^ 53 - 1 : Nat) : ℚ) + 1 = 2 ^ 54 - 1 := by norm_num
  have top : (2 : ℚ) ^ 1024 = 2 ^ 54 * 2 ^ 970 := by rw [← pow_add]
  rw [stands.midpoint_eq, steps, top, pow_add, pow_add]
  generalize (2 : ℚ) ^ 970 = bound
  generalize (2 : ℚ) ^ unitPlaces = unit
  ring

/-- Rounding ends in infinity from the point halfway behind the last double on. -/
theorem nearestMagnitude_lt_iff (positive : 0 < den) :
    nearestMagnitude num den < infinityMagnitude ↔ (num : ℚ) / den < 2 ^ 1024 - 2 ^ 970 := by
  have last : nearestMagnitude num den < infinityMagnitude ↔
      nearestMagnitude num den ≤ infinityMagnitude - 1 := Nat.lt_iff_le_pred (by decide)
  have odd : ¬(infinityMagnitude - 1) % 2 = 0 := by decide
  have unit_pos : (0 : ℚ) < 2 ^ unitPlaces := pow_pos two_pos _
  rw [last, nearestMagnitude_le_iff positive (by decide), liesBefore_iff positive, midpoint_last]
  simp only [odd, and_false, or_false]
  rw [mul_lt_mul_iff_right₀ two_pos, mul_lt_mul_iff_left₀ unit_pos]

theorem isRounded_ofRatio (num : Nat) (positive : 0 < den) : (ofRatio num den).IsRounded (num / den) := by
  have unsigned := isUnsigned_ofRatio num den
  have notNegative : (0 : ℚ) ≤ num / den := div_nonneg (Nat.cast_nonneg _) (Nat.cast_nonneg _)
  have magnitude := magnitude_ofRatio num den
  by_cases finite : nearestMagnitude num den < infinityMagnitude
  · have around := isAround_nearestMagnitude positive finite
    rw [← magnitude] at around
    exact around.isRounded notNegative unsigned (isFinite_iff_magnitude.mpr (magnitude ▸ finite))
      ((nearestMagnitude_lt_iff positive).mp finite)
  · have infinite : (ofRatio num den).isInfinite = true :=
      isInfinite_iff_magnitude.mpr
        (magnitude.trans (Nat.le_antisymm (nearestMagnitude_le num den) (Nat.not_lt.mp finite)))
    have large := not_lt.mp (mt (nearestMagnitude_lt_iff positive).mpr finite)
    exact ⟨unsigned, ⟨fun _ => large, fun _ => infinite⟩,
      fun bounded => absurd infinite (bounded ▸ Bool.false_ne_true),
      fun bounded => absurd infinite (bounded ▸ Bool.false_ne_true)⟩

end Ratios

section Unique

variable {x y : Binary64} {q : ℚ}

theorem IsRounded.not_lt (hx : x.IsRounded q) (hy : y.IsRounded q) (finite : x.IsFinite)
    (otherFinite : y.IsFinite) : ¬x.magnitude < y.magnitude := by
  intro below
  have order := value_lt_value hx.isUnsigned.noSign hy.isUnsigned.noSign below
  have far := le_antisymm (hx.nearest finite.isBounded y otherFinite)
    (hy.nearest otherFinite.isBounded x finite)
  have half := two_mul_eq_add_of_abs_eq order.ne' far.symm
  have even := hx.even finite.isBounded y otherFinite order.ne' far.symm
  have otherEven := hy.even otherFinite.isBounded x finite order.ne far
  rw [fraction_mod_two] at even otherEven
  -- Between two even magnitudes there is another double, and it is nearer.
  have limit := isFinite_iff_magnitude.mp otherFinite
  obtain ⟨unsigned, between, magnitude⟩ :=
    isUnsigned_ofMagnitude (m := x.magnitude + 1) (by omega)
  have above := value_lt_value hx.isUnsigned.noSign unsigned.noSign (by omega)
  have beneath := value_lt_value unsigned.noSign hy.isUnsigned.noSign (by omega)
  have nearest := hx.nearest finite.isBounded _ between
  rw [abs_sub_comm, abs_of_nonneg (by linarith), le_abs'] at nearest
  rcases nearest with low | high
  · linarith
  · linarith

/-- At most one double is what a number is rounded to. -/
theorem IsRounded.unique (hx : x.IsRounded q) (hy : y.IsRounded q) : x = y := by
  refine hx.isUnsigned.ext hy.isUnsigned ?_
  cases infinite : x.isInfinite with
  | true =>
    have otherInfinite := hy.isInfinite_iff.mpr (hx.isInfinite_iff.mp infinite)
    rw [isInfinite_iff_magnitude.mp infinite, isInfinite_iff_magnitude.mp otherInfinite]
  | false =>
    have otherBounded : y.isInfinite = false := by
      rw [Bool.eq_false_iff, Ne, hy.isInfinite_iff, ← hx.isInfinite_iff, infinite]
      exact Bool.false_ne_true
    have finite : x.IsFinite := ⟨hx.isUnsigned.isNumber, infinite⟩
    have otherFinite : y.IsFinite := ⟨hy.isUnsigned.isNumber, otherBounded⟩
    exact Nat.le_antisymm (Nat.not_lt.mp (hy.not_lt hx otherFinite finite))
      (Nat.not_lt.mp (hx.not_lt hy finite otherFinite))

end Unique

end Binary64

end ScriptLexer
