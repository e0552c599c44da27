import ScriptLexer.Binary64.Rounding

namespace ScriptLexer

namespace Binary64

-- Powers are those of the core library, whatever else is imported.
attribute [local instance (high)] instPowNat

/-- The units of the double without sign that has this magnitude. -/
def unitsAt (m : Nat) : Nat :=
  if m / 2 ^ fractionBits = 0 then m % 2 ^ fractionBits
  else (2 ^ fractionBits + m % 2 ^ fractionBits) * 2 ^ (m / 2 ^ fractionBits - 1)

theorem units_eq_unitsAt (x : Binary64) : x.units = unitsAt x.magnitude := rfl

/-- The magnitude stands `steps` above zero on the grid of multiples of `2 ^ dropped` units, and so
does the next one. Below `2 ^ 52` steps there is only the finest grid. -/
structure Stands (m dropped steps : Nat) : Prop where
  magnitude_eq : m = dropped * 2 ^ fractionBits + steps
  full : dropped = 0 ∨ 2 ^ fractionBits ≤ steps
  below : steps < 2 ^ (fractionBits + 1)

theorem exists_stands (m : Nat) : ∃ dropped steps, Stands m dropped steps := by
  have cut := Nat.div_add_mod m (2 ^ fractionBits)
  have small := Nat.mod_lt m (Nat.two_pow_pos fractionBits)
  have double : 2 ^ (fractionBits + 1) = 2 ^ fractionBits * 2 := Nat.pow_succ 2 fractionBits
  generalize m / 2 ^ fractionBits = exponent at cut
  cases exponent with
  | zero => exact ⟨0, m % 2 ^ fractionBits, by omega, Or.inl rfl, by omega⟩
  | succ dropped =>
    refine ⟨dropped, 2 ^ fractionBits + m % 2 ^ fractionBits, ?_, Or.inr (Nat.le_add_right _ _), by omega⟩
    rw [Nat.mul_succ, Nat.mul_comm] at cut
    omega

theorem unitsAt_zero_add {rest : Nat} (small : rest < 2 ^ fractionBits) : unitsAt rest = rest := by
  rw [unitsAt, Nat.div_eq_of_lt small, Nat.mod_eq_of_lt small, if_pos rfl]

theorem unitsAt_succ_mul_add {dropped rest : Nat} (small : rest < 2 ^ fractionBits) :
    unitsAt ((dropped + 1) * 2 ^ fractionBits + rest) = (2 ^ fractionBits + rest) * 2 ^ dropped := by
  have positive := Nat.two_pow_pos fractionBits
  have exponent : ((dropped + 1) * 2 ^ fractionBits + rest) / 2 ^ fractionBits = dropped + 1 := by
    rw [Nat.mul_comm, Nat.mul_add_div positive, Nat.div_eq_of_lt small, Nat.add_zero]
  have fraction : ((dropped + 1) * 2 ^ fractionBits + rest) % 2 ^ fractionBits = rest := by
    rw [Nat.mul_comm, Nat.mul_add_mod, Nat.mod_eq_of_lt small]
  rw [unitsAt, exponent, fraction, if_neg (Nat.succ_ne_zero dropped), Nat.add_sub_cancel]

/-- On the grid of a magnitude, the power of two at its end included, units are counted in steps. -/
theorem unitsAt_steps {dropped steps : Nat} (full : dropped = 0 ∨ 2 ^ fractionBits ≤ steps)
    (within : steps ≤ 2 ^ (fractionBits + 1)) :
    unitsAt (dropped * 2 ^ fractionBits + steps) = steps * 2 ^ dropped := by
  have double : 2 ^ (fractionBits + 1) = 2 ^ fractionBits * 2 := Nat.pow_succ 2 fractionBits
  rcases Nat.lt_or_ge steps (2 ^ fractionBits) with small | large
  · obtain rfl : dropped = 0 := full.resolve_right (Nat.not_le.mpr small)
    rw [Nat.zero_mul, Nat.zero_add, unitsAt_zero_add small, Nat.pow_zero, Nat.mul_one]
  obtain ⟨rest, rfl⟩ := Nat.exists_eq_add_of_le large
  rcases Nat.lt_or_ge rest (2 ^ fractionBits) with small | ending
  · rw [← Nat.add_assoc, ← Nat.succ_mul, unitsAt_succ_mul_add small]
  · obtain rfl : rest = 2 ^ fractionBits := by omega
    rw [← Nat.add_assoc, ← Nat.succ_mul, ← Nat.succ_mul, ← Nat.add_zero ((dropped.succ.succ) * _),
      unitsAt_succ_mul_add (Nat.two_pow_pos fractionBits), Nat.pow_succ', Nat.add_zero, ← Nat.mul_assoc,
      ← Nat.mul_two]

namespace Stands

variable {m dropped steps : Nat}

theorem unitsAt_eq (stands : Stands m dropped steps) : unitsAt m = steps * 2 ^ dropped := by
  rw [stands.magnitude_eq, unitsAt_steps stands.full (Nat.le_of_lt stands.below)]

theorem unitsAt_succ_eq (stands : Stands m dropped steps) :
    unitsAt (m + 1) = (steps + 1) * 2 ^ dropped := by
  have full : dropped = 0 ∨ 2 ^ fractionBits ≤ steps + 1 := stands.full.imp_right Nat.le_succ_of_le
  rw [stands.magnitude_eq, Nat.add_assoc, unitsAt_steps full stands.below]

/-- A magnitude is even when its number of steps is. -/
theorem mod_two_eq (stands : Stands m dropped steps) : m % 2 = steps % 2 := by
  rw [stands.magnitude_eq, fractionBits]
  omega

end Stands

theorem unitsAt_lt_succ (m : Nat) : unitsAt m < unitsAt (m + 1) := by
  obtain ⟨dropped, steps, stands⟩ := exists_stands m
  rw [stands.unitsAt_eq, stands.unitsAt_succ_eq]
  exact Nat.mul_lt_mul_of_pos_right (Nat.lt_succ_self steps) (Nat.two_pow_pos dropped)

theorem unitsAt_le_unitsAt {m k : Nat} (atMost : m ≤ k) : unitsAt m ≤ unitsAt k := by
  induction atMost with
  | refl => exact Nat.le_refl _
  | @step k _ ih => exact Nat.le_trans ih (Nat.le_of_lt (unitsAt_lt_succ k))

theorem unitsAt_lt_unitsAt {m k : Nat} (below : m < k) : unitsAt m < unitsAt k :=
  Nat.lt_of_lt_of_le (unitsAt_lt_succ m) (unitsAt_le_unitsAt below)

/-- Twice the point halfway between a magnitude and the next, in units. -/
def twiceMidpoint (m : Nat) : Nat := unitsAt m + unitsAt (m + 1)

/-- The ratio lies before the point halfway above a magnitude. The point itself is counted with the
even neighbour. -/
def LiesBefore (num den m : Nat) : Prop :=
  2 * (num * 2 ^ unitPlaces) < twiceMidpoint m * den ∨
    2 * (num * 2 ^ unitPlaces) = twiceMidpoint m * den ∧ m % 2 = 0

theorem roundHalfEven_le_iff {num den : Nat} :
    roundHalfEven num den ≤ num / den ↔
      2 * (num % den) < den ∨ 2 * (num % den) = den ∧ num / den % 2 = 0 := by
  simp only [roundHalfEven]
  split
  · omega
  · split <;> omega

/-- The grid on which a value is rounded has the double below it as one of its points. -/
theorem stands_droppedBits (wholeUnits : Nat) :
    Stands (droppedBits wholeUnits * 2 ^ fractionBits + wholeUnits / 2 ^ droppedBits wholeUnits)
      (droppedBits wholeUnits) (wholeUnits / 2 ^ droppedBits wholeUnits) := by
  have above := @Nat.lt_log2_self wholeUnits
  refine ⟨rfl, ?_, ?_⟩
  · rcases Nat.le_total wholeUnits.log2 fractionBits with small | large
    · exact Or.inl (Nat.sub_eq_zero_of_le small)
    · refine Or.inr ((Nat.le_div_iff_mul_le (Nat.two_pow_pos _)).mpr ?_)
      rw [← Nat.pow_add, droppedBits, Nat.add_sub_cancel' large]
      refine Nat.log2_self_le ?_
      rintro rfl
      cases large
  · rw [Nat.div_lt_iff_lt_mul (Nat.two_pow_pos _), ← Nat.pow_add]
    refine Nat.lt_of_lt_of_le above (Nat.pow_le_pow_right (by decide) ?_)
    rw [droppedBits]
    omega

/-- The ratio is at least the double of this magnitude, and less than the next. -/
structure Follows (num den m : Nat) : Prop where
  lower : unitsAt m * den ≤ num * 2 ^ unitPlaces
  upper : num * 2 ^ unitPlaces < unitsAt (m + 1) * den

namespace Follows

variable {num den m k : Nat}

theorem liesBefore (follows : Follows num den m) (above : m < k) : LiesBefore num den k := by
  have first := Nat.mul_le_mul_right den (unitsAt_le_unitsAt above)
  have second := Nat.mul_le_mul_right den (unitsAt_le_unitsAt (Nat.le_succ_of_le above))
  have upper := follows.upper
  rw [LiesBefore, twiceMidpoint, Nat.add_mul]
  dsimp only [Nat.succ_eq_add_one] at first second
  omega

theorem not_liesBefore (follows : Follows num den m) (positive : 0 < den) (below : k < m) :
    ¬LiesBefore num den k := by
  have first := Nat.mul_lt_mul_of_pos_right (unitsAt_lt_unitsAt below) positive
  have second := Nat.mul_le_mul_right den (unitsAt_le_unitsAt (Nat.succ_le_of_lt below))
  have lower := follows.lower
  rw [LiesBefore, twiceMidpoint, Nat.add_mul]
  dsimp only [Nat.succ_eq_add_one] at second
  omega

end Follows

section Grid

variable {num den m dropped : Nat}

theorem follows_of_stands (positive : 0 < den)
    (stands : Stands m dropped (num * 2 ^ unitPlaces / (den * 2 ^ dropped))) : Follows num den m := by
  have positiveGrid : 0 < den * 2 ^ dropped := Nat.mul_pos positive (Nat.two_pow_pos dropped)
  have regroup (steps : Nat) : steps * 2 ^ dropped * den = den * 2 ^ dropped * steps := by
    rw [Nat.mul_comm den, Nat.mul_assoc, Nat.mul_comm]
  constructor
  · rw [stands.unitsAt_eq, regroup]
    exact Nat.mul_div_le _ _
  · rw [stands.unitsAt_succ_eq, regroup]
    exact Nat.lt_mul_div_succ _ positiveGrid

/-- On the grid of the double below a ratio, the point halfway above is where steps are rounded up. -/
theorem roundHalfEven_le_iff_liesBefore
    (stands : Stands m dropped (num * 2 ^ unitPlaces / (den * 2 ^ dropped))) :
    roundHalfEven (num * 2 ^ unitPlaces) (den * 2 ^ dropped) ≤
      num * 2 ^ unitPlaces / (den * 2 ^ dropped) ↔ LiesBefore num den m := by
  have cut := Nat.div_add_mod (num * 2 ^ unitPlaces) (den * 2 ^ dropped)
  have turn (steps : Nat) : (steps * 2 ^ dropped + (steps + 1) * 2 ^ dropped) * den =
      2 * (den * 2 ^ dropped * steps) + den * 2 ^ dropped := by
    grind
  rw [roundHalfEven_le_iff, LiesBefore, twiceMidpoint, stands.unitsAt_eq, stands.unitsAt_succ_eq, turn,
    stands.mod_two_eq]
  omega

/-- A ratio is rounded to a magnitude or a lower one if it lies before the point halfway above. -/
theorem nearestMagnitude_le_iff (positive : 0 < den) (finite : m < infinityMagnitude) :
    nearestMagnitude num den ≤ m ↔ LiesBefore num den m := by
  have stands := stands_droppedBits (num * 2 ^ unitPlaces / den)
  generalize grid : droppedBits (num * 2 ^ unitPlaces / den) = dropped at stands
  rw [Nat.div_div_eq_div_mul] at stands
  have follows := follows_of_stands positive stands
  have turns := roundHalfEven_le_iff_liesBefore stands
  have lower := roundHalfEven_ge (num * 2 ^ unitPlaces) (den * 2 ^ dropped)
  have upper := roundHalfEven_le (num * 2 ^ unitPlaces) (den * 2 ^ dropped)
  have capped (rounded : Nat) : min rounded infinityMagnitude ≤ m ↔ rounded ≤ m := by omega
  simp only [nearestMagnitude, grid, capped]
  -- Rounding gives the double below the ratio or the next, so only there the half counts.
  rcases Nat.lt_trichotomy m
      (dropped * 2 ^ fractionBits + num * 2 ^ unitPlaces / (den * 2 ^ dropped)) with below | rfl | above
  · have apart := follows.not_liesBefore positive below
    simp only [apart, iff_false]
    omega
  · rw [← turns]
    omega
  · have before := follows.liesBefore above
    simp only [before, iff_true]
    omega

end Grid

section Ratios

variable {num den other otherDen : Nat}

theorem LiesBefore.of_le {m : Nat} (before : LiesBefore other otherDen m) (positive : 0 < den)
    (otherPositive : 0 < otherDen) (atMost : num * otherDen ≤ other * den) : LiesBefore num den m := by
  have crossed : 2 * (num * 2 ^ unitPlaces) * otherDen ≤ 2 * (other * 2 ^ unitPlaces) * den := by
    have scaled := Nat.mul_le_mul_left (2 * 2 ^ unitPlaces) atMost
    grind
  have regroup : twiceMidpoint m * otherDen * den = twiceMidpoint m * den * otherDen :=
    Nat.mul_right_comm ..
  rcases before with less | ⟨same, even⟩
  · have bound := Nat.mul_lt_mul_of_pos_right less positive
    rw [regroup] at bound
    exact Or.inl (Nat.lt_of_mul_lt_mul_right (Nat.lt_of_le_of_lt crossed bound))
  · rw [same, regroup] at crossed
    have atMostMidpoint := Nat.le_of_mul_le_mul_right crossed otherPositive
    exact (Nat.lt_or_eq_of_le atMostMidpoint).imp_right fun equal => ⟨equal, even⟩

/-- Rounding keeps the order of ratios. -/
theorem nearestMagnitude_le_nearestMagnitude (positive : 0 < den) (otherPositive : 0 < otherDen)
    (atMost : num * otherDen ≤ other * den) :
    nearestMagnitude num den ≤ nearestMagnitude other otherDen := by
  rcases Nat.lt_or_ge (nearestMagnitude other otherDen) infinityMagnitude with finite | infinite
  · have before := (nearestMagnitude_le_iff otherPositive finite).mp (Nat.le_refl _)
    exact (nearestMagnitude_le_iff positive finite).mpr (before.of_le positive otherPositive atMost)
  · exact Nat.le_trans (nearestMagnitude_le num den) infinite

/-- Only the ratio counts, not how it is written. -/
theorem nearestMagnitude_eq_of_ratio_eq (positive : 0 < den) (otherPositive : 0 < otherDen)
    (same : num * otherDen = other * den) :
    nearestMagnitude num den = nearestMagnitude other otherDen :=
  Nat.le_antisymm
    (nearestMagnitude_le_nearestMagnitude positive otherPositive (Nat.le_of_eq same))
    (nearestMagnitude_le_nearestMagnitude otherPositive positive (Nat.le_of_eq same.symm))

end Ratios

end Binary64

end ScriptLexer
