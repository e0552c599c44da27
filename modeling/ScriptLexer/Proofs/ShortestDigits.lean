import ScriptLexer.Binary64.Shortest
import ScriptLexer.Proofs.Magnitude

namespace ScriptLexer

namespace Binary64

-- Powers are those of the core library, whatever else is imported.
attribute [local instance (high)] instPowNat

theorem ten_pow_pos (n : Nat) : 0 < 10 ^ n := Nat.pow_pos (by decide)

theorem unitsAt_scaled (m : Nat) :
    2 * (unitsAt m * 5 ^ unitPlaces * 2 ^ unitPlaces) = 2 * unitsAt m * 10 ^ unitPlaces := by
  rw [Nat.mul_assoc (unitsAt m), ← Nat.mul_pow, ← Nat.mul_assoc]

theorem unitsAt_succ_le {m : Nat} (positive : 0 < unitsAt m) : unitsAt (m + 1) ≤ 2 * unitsAt m := by
  obtain ⟨dropped, steps, stands⟩ := exists_stands m
  rw [stands.unitsAt_eq] at positive ⊢
  rw [stands.unitsAt_succ_eq, ← Nat.mul_assoc]
  have first : 1 ≤ steps := Nat.pos_of_mul_pos_right positive
  exact Nat.mul_le_mul_right _ (by omega)

/-- The exact value of a finite double is read as this double. -/
theorem nearestMagnitude_unitsAt {m : Nat} (finite : m < infinityMagnitude) :
    nearestMagnitude (unitsAt m * 5 ^ unitPlaces) (10 ^ unitPlaces) = m := by
  have positive := ten_pow_pos unitPlaces
  refine Nat.le_antisymm ?_ ?_
  · have step := unitsAt_lt_succ m
    refine (nearestMagnitude_le_iff positive finite).mpr (Or.inl ?_)
    rw [unitsAt_scaled, twiceMidpoint]
    exact Nat.mul_lt_mul_of_pos_right (by omega) positive
  · cases m with
    | zero => exact Nat.zero_le _
    | succ last =>
      have step := unitsAt_lt_succ last
      refine Nat.lt_of_not_le fun below => ?_
      rw [nearestMagnitude_le_iff positive (Nat.lt_trans (Nat.lt_succ_self last) finite), LiesBefore,
        unitsAt_scaled, twiceMidpoint] at below
      have beyond : unitsAt last + unitsAt (last + 1) < 2 * unitsAt (last + 1) := by omega
      have scaled := Nat.mul_lt_mul_of_pos_right beyond positive
      omega

theorem nearestMagnitude_zero {den : Nat} (positive : 0 < den) : nearestMagnitude 0 den = 0 := by
  refine Nat.le_zero.mp ((nearestMagnitude_le_iff positive (by decide)).mpr (Or.inl ?_))
  rw [Nat.zero_mul, Nat.mul_zero]
  exact Nat.mul_pos (by decide) positive

section ReadFrom

variable {x : Binary64} {digits : Nat}

theorem isReadFrom_iff : x.isReadFrom digits = true ↔
    nearestMagnitude digits (10 ^ unitPlaces) = x.magnitude := beq_iff_eq

theorem exactDigits_pos_iff : 0 < x.exactDigits ↔ 0 < x.magnitude := by
  rw [exactDigits, units_eq_unitsAt]
  constructor
  · intro positive
    refine Nat.pos_of_ne_zero fun zero => ?_
    rw [zero] at positive
    have units : 0 < unitsAt 0 := Nat.pos_of_mul_pos_right positive
    exact absurd units (by decide)
  · intro positive
    have units : 0 < unitsAt x.magnitude := Nat.zero_lt_of_lt (unitsAt_lt_unitsAt positive)
    have scale : 0 < 5 ^ unitPlaces := Nat.pow_pos (by decide)
    exact Nat.mul_pos units scale

theorem isReadFrom_exactDigits (finite : x.magnitude < infinityMagnitude) :
    x.isReadFrom x.exactDigits = true :=
  isReadFrom_iff.mpr (nearestMagnitude_unitsAt finite)

theorem nearestMagnitude_mono {digits more : Nat} (atMost : digits ≤ more) :
    nearestMagnitude digits (10 ^ unitPlaces) ≤ nearestMagnitude more (10 ^ unitPlaces) := by
  have positive := ten_pow_pos unitPlaces
  exact nearestMagnitude_le_nearestMagnitude positive positive (Nat.mul_le_mul_right _ atMost)

/-- What lies between decimals that are read as the double is read as the double. -/
theorem isReadFrom_of_between {low high : Nat} (readsLow : x.isReadFrom low = true)
    (readsHigh : x.isReadFrom high = true) (above : low ≤ digits) (below : digits ≤ high) :
    x.isReadFrom digits = true := by
  rw [isReadFrom_iff] at readsLow readsHigh ⊢
  have first := nearestMagnitude_mono above
  have second := nearestMagnitude_mono below
  omega

theorem pos_of_isReadFrom (nonzero : 0 < x.exactDigits) (reads : x.isReadFrom digits = true) :
    0 < digits := by
  refine Nat.pos_of_ne_zero ?_
  rintro rfl
  have zero := nearestMagnitude_zero (ten_pow_pos unitPlaces)
  rw [isReadFrom_iff.mp reads] at zero
  exact Nat.lt_irrefl 0 (zero ▸ exactDigits_pos_iff.mp nonzero)

/-- The next double is at most twice as large, and only what lies before the point halfway to it is
read as the double. -/
theorem lt_two_mul_of_isReadFrom (finite : x.magnitude < infinityMagnitude)
    (nonzero : 0 < x.exactDigits) (reads : x.isReadFrom digits = true) : digits < 2 * x.exactDigits := by
  refine Nat.lt_of_not_le fun far => ?_
  have positive := ten_pow_pos unitPlaces
  have units : 0 < unitsAt x.magnitude := Nat.pos_of_mul_pos_right nonzero
  have next := unitsAt_succ_le units
  have before := (nearestMagnitude_le_iff positive finite).mp (Nat.le_of_eq (isReadFrom_iff.mp reads))
  have double := before.of_le positive positive (Nat.mul_le_mul_right _ far)
  rw [LiesBefore, exactDigits, units_eq_unitsAt, Nat.mul_assoc 2, unitsAt_scaled] at double
  have beyond : twiceMidpoint x.magnitude * 10 ^ unitPlaces <
      2 * (2 * unitsAt x.magnitude) * 10 ^ unitPlaces := by
    rw [twiceMidpoint]
    exact Nat.mul_lt_mul_of_pos_right (by omega) positive
  rw [Nat.mul_assoc 2 (2 * _)] at beyond
  omega

end ReadFrom

section Grid

variable {x : Binary64} {digits s : Nat}

theorem isReadFrom_of_nearestOnGrid? (found : x.nearestOnGrid? s = some digits) :
    x.isReadFrom (digits * 10 ^ s) = true := by
  unfold nearestOnGrid? at found
  dsimp only at found
  split at found
  · next fits =>
    obtain rfl := Option.some.inj found
    exact (Bool.and_eq_true_iff.mp fits).1
  · split at found
    · next fits =>
      obtain rfl := Option.some.inj found
      exact fits
    · cases found

theorem nearestOnGrid?_eq_none_iff : x.nearestOnGrid? s = none ↔
    x.isReadFrom (x.exactDigits / 10 ^ s * 10 ^ s) = false ∧
      x.isReadFrom ((x.exactDigits / 10 ^ s + 1) * 10 ^ s) = false := by
  simp only [nearestOnGrid?]
  generalize x.isReadFrom (x.exactDigits / 10 ^ s * 10 ^ s) = fitsBelow
  generalize x.isReadFrom ((x.exactDigits / 10 ^ s + 1) * 10 ^ s) = fitsAbove
  cases fitsAbove with
  | false => cases fitsBelow <;> simp
  | true => split <;> simp

/-- From a point of the grid that is read as the double to the exact value, the last point on the way is
one of the two that are tried. -/
theorem not_isReadFrom_of_nearestOnGrid? (finite : x.magnitude < infinityMagnitude)
    (missed : x.nearestOnGrid? s = none) (digits : Nat) : x.isReadFrom (digits * 10 ^ s) = false := by
  obtain ⟨missedBelow, missedAbove⟩ := nearestOnGrid?_eq_none_iff.mp missed
  have exact := isReadFrom_exactDigits finite
  have below := Nat.div_mul_le_self x.exactDigits (10 ^ s)
  have above := Nat.lt_mul_of_div_lt (Nat.lt_succ_self (x.exactDigits / 10 ^ s)) (ten_pow_pos s)
  refine Bool.eq_false_iff.mpr fun reads => ?_
  rcases Nat.lt_or_ge (x.exactDigits / 10 ^ s) digits with after | before
  · have between := isReadFrom_of_between exact reads (Nat.le_of_lt above) (Nat.mul_le_mul_right _ after)
    exact Bool.false_ne_true (missedAbove.symm.trans between)
  · have between := isReadFrom_of_between reads exact (Nat.mul_le_mul_right _ before) below
    exact Bool.false_ne_true (missedBelow.symm.trans between)

/-- A decimal that is read as the double, on the coarsest grid that has any. -/
structure IsCoarsest (x : Binary64) (digits s : Nat) : Prop where
  reads : x.isReadFrom (digits * 10 ^ s) = true
  coarsest : ∀ t, s < t → ∀ n, x.isReadFrom (n * 10 ^ t) = false

theorem firstOnGrids_of_hit (hit : x.nearestOnGrid? (s + 1) = some digits) :
    x.firstOnGrids (s + 1) = onGrid digits (s + 1) := by
  rw [firstOnGrids, hit, Option.map_some, Option.getD_some]

theorem firstOnGrids_of_miss (missed : x.nearestOnGrid? (s + 1) = none) :
    x.firstOnGrids (s + 1) = x.firstOnGrids s := by
  rw [firstOnGrids, missed, Option.map_none, Option.getD_none]

theorem exists_firstOnGrids (finite : x.magnitude < infinityMagnitude)
    (empty : ∀ t, s < t → ∀ n, x.isReadFrom (n * 10 ^ t) = false) :
    ∃ digits t, x.firstOnGrids s = onGrid digits t ∧ x.IsCoarsest digits t := by
  induction s with
  | zero =>
    refine ⟨x.exactDigits, 0, rfl, ?_, empty⟩
    rw [Nat.pow_zero, Nat.mul_one]
    exact isReadFrom_exactDigits finite
  | succ s ih =>
    rcases Option.eq_none_or_eq_some (x.nearestOnGrid? (s + 1)) with missed | ⟨digits, hit⟩
    · have emptyHere : ∀ t, s < t → ∀ n, x.isReadFrom (n * 10 ^ t) = false := by
        intro t behind
        rcases Nat.lt_or_eq_of_le (Nat.succ_le_of_lt behind) with coarser | rfl
        · exact empty t coarser
        · exact not_isReadFrom_of_nearestOnGrid? finite missed
      obtain ⟨digits, t, found, isCoarsest⟩ := ih emptyHere
      exact ⟨digits, t, (firstOnGrids_of_miss missed).trans found, isCoarsest⟩
    · exact ⟨digits, s + 1, firstOnGrids_of_hit hit, isReadFrom_of_nearestOnGrid? hit, empty⟩

/-- `28 / 93` lies just above the logarithm of two to base ten, because `10 ^ 28` is above `2 ^ 93`. -/
theorem two_pow_le_ten_pow {binary decimal : Nat} (above : 28 * binary ≤ 93 * decimal) :
    2 ^ binary ≤ 10 ^ decimal := by
  refine (Nat.pow_le_pow_iff_left (by decide : 93 ≠ 0)).mp ?_
  calc (2 ^ binary) ^ 93 = (2 ^ 93) ^ binary := by rw [← Nat.pow_mul, ← Nat.pow_mul, Nat.mul_comm]
    _ ≤ (10 ^ 28) ^ binary := Nat.pow_le_pow_left (by decide) binary
    _ = 10 ^ (28 * binary) := (Nat.pow_mul ..).symm
    _ ≤ 10 ^ (93 * decimal) := Nat.pow_le_pow_right (by decide) above
    _ = (10 ^ decimal) ^ 93 := by rw [← Nat.pow_mul, Nat.mul_comm]

/-- On a coarser grid the first point behind zero lies beyond twice the value. -/
theorem two_mul_exactDigits_le (coarser : x.coarsestGrid < s) : 2 * x.exactDigits ≤ 10 ^ s := by
  have above := @Nat.lt_log2_self x.exactDigits
  have power := @two_pow_le_ten_pow (x.exactDigits.log2 + 2) s (by rw [coarsestGrid] at coarser; omega)
  rw [Nat.pow_succ] at power
  omega

theorem not_isReadFrom_of_coarser (finite : x.magnitude < infinityMagnitude)
    (nonzero : 0 < x.exactDigits) (coarser : x.coarsestGrid < s) (digits : Nat) :
    x.isReadFrom (digits * 10 ^ s) = false := by
  refine Bool.eq_false_iff.mpr fun reads => ?_
  have far := two_mul_exactDigits_le coarser
  have near := lt_two_mul_of_isReadFrom finite nonzero reads
  have positive : 0 < digits := Nat.pos_of_mul_pos_right (pos_of_isReadFrom nonzero reads)
  have first := Nat.le_mul_of_pos_left (10 ^ s) positive
  omega

/-- The shortest decimal of a positive double is on the coarsest grid that has any. -/
theorem exists_shortest (finite : x.magnitude < infinityMagnitude) (nonzero : 0 < x.exactDigits) :
    ∃ digits s, x.shortest = onGrid digits s ∧ x.IsCoarsest digits s := by
  rw [shortest, if_neg (Nat.ne_of_gt nonzero)]
  exact exists_firstOnGrids finite fun _ coarser => not_isReadFrom_of_coarser finite nonzero coarser

end Grid

namespace IsCoarsest

variable {x : Binary64} {digits s : Nat}

/-- A last digit zero would put the decimal on the next grid. -/
theorem mod_ten_ne_zero (isCoarsest : x.IsCoarsest digits s) : digits % 10 ≠ 0 := by
  intro zero
  have next := isCoarsest.coarsest (s + 1) (Nat.lt_succ_self s) (digits / 10)
  rw [Nat.pow_succ', ← Nat.mul_assoc, Nat.div_mul_cancel (Nat.dvd_of_mod_eq_zero zero)] at next
  exact Bool.false_ne_true (next.symm.trans isCoarsest.reads)

/-- No decimal with fewer digits is read as the double. One on a coarser grid is not read so. One that
is not lies below a power of ten that is no greater than the decimal found, and then the power would be
read as the double although it lies on a coarser grid. -/
theorem lt_pow (isCoarsest : x.IsCoarsest digits s) {other zeros places count : Nat}
    (reads : nearestMagnitude (other * 10 ^ zeros) (10 ^ places) = x.magnitude)
    (small : other < 10 ^ count) (counts : 0 < count) : digits < 10 ^ count := by
  refine Nat.lt_of_not_le fun longer => ?_
  rcases Nat.lt_or_ge (s + places) (unitPlaces + zeros) with coarser | finer
  · have onCoarser := isCoarsest.coarsest (zeros + unitPlaces - places) (by omega) other
    refine Bool.eq_false_iff.mp onCoarser (isReadFrom_iff.mpr ?_)
    rw [← reads]
    refine nearestMagnitude_eq_of_ratio_eq (ten_pow_pos _) (ten_pow_pos _) ?_
    rw [Nat.mul_assoc, ← Nat.pow_add, Nat.sub_add_cancel (by omega), Nat.pow_add, Nat.mul_assoc]
  · have power : x.isReadFrom (1 * 10 ^ (count + s)) = true := by
      refine isReadFrom_iff.mpr (Nat.le_antisymm ?_ ?_)
      · rw [← isReadFrom_iff.mp isCoarsest.reads, Nat.one_mul, Nat.pow_add]
        exact nearestMagnitude_mono (Nat.mul_le_mul_right _ longer)
      · rw [← reads]
        refine nearestMagnitude_le_nearestMagnitude (ten_pow_pos _) (ten_pow_pos _) ?_
        rw [Nat.mul_assoc, ← Nat.pow_add, Nat.one_mul, ← Nat.pow_add, Nat.add_assoc, Nat.pow_add 10 count]
        exact Nat.mul_le_mul (Nat.le_of_lt small) (Nat.pow_le_pow_right (by decide) (by omega))
    exact Bool.eq_false_iff.mp (isCoarsest.coarsest (count + s) (by omega) 1) power

end IsCoarsest

/-- The decimal with no more places than it needs has the value that was tried. -/
theorem nearestMagnitude_onGrid (digits s : Nat) :
    nearestMagnitude (onGrid digits s).digits (10 ^ (onGrid digits s).places) =
      nearestMagnitude (digits * 10 ^ s) (10 ^ unitPlaces) := by
  refine nearestMagnitude_eq_of_ratio_eq (ten_pow_pos _) (ten_pow_pos _) ?_
  have exponents : s - unitPlaces + unitPlaces = s + (unitPlaces - s) := by omega
  rw [onGrid, Nat.mul_assoc, Nat.mul_assoc, ← Nat.pow_add, ← Nat.pow_add, exponents]

/-- The shortest decimal is read as the double it is made from, zero included. -/
theorem magnitude_ofDecimal_shortest {x : Binary64} (finite : x.magnitude < infinityMagnitude) :
    (ofDecimal x.shortest).magnitude = x.magnitude := by
  rw [ofDecimal, magnitude_ofRatio]
  rcases Nat.eq_zero_or_pos x.exactDigits with zero | nonzero
  · have noBits : ¬0 < x.magnitude := by
      rw [← exactDigits_pos_iff, zero]
      exact Nat.lt_irrefl 0
    rw [shortest, if_pos zero, nearestMagnitude_zero (ten_pow_pos _)]
    omega
  · obtain ⟨digits, s, same, isCoarsest⟩ := exists_shortest finite nonzero
    rw [same, nearestMagnitude_onGrid, isReadFrom_iff.mp isCoarsest.reads]

end Binary64

end ScriptLexer
