import ScriptLexer.Decimal
import ScriptLexer.Binary64.Basic

namespace ScriptLexer

/-- The natural number nearest to `num / den`; a half goes to the even neighbour. -/
def roundHalfEven (num den : Nat) : Nat :=
  let below := num / den
  let twice := 2 * (num % den)
  if twice < den then below
  else if den < twice then below + 1
  else below + below % 2

theorem roundHalfEven_ge (num den : Nat) : num / den ≤ roundHalfEven num den := by
  simp only [roundHalfEven]
  split
  · exact Nat.le_refl _
  · split <;> omega

theorem roundHalfEven_le (num den : Nat) : roundHalfEven num den ≤ num / den + 1 := by
  simp only [roundHalfEven]
  split
  · omega
  · split <;> omega

namespace Binary64

-- Powers are those of the core library, whatever else is imported.
attribute [local instance (high)] instPowNat

/-- How many binary places of the units a value of this many whole units cannot keep. Fifty-three
significant bits remain, and below `2 ^ 53` units nothing is lost. -/
def droppedBits (wholeUnits : Nat) : Nat := wholeUnits.log2 - fractionBits

/-- The bits of the double nearest to `num / den`, by one rounding on the grid that the value's
size allows. Adding the rounded significand to the exponent field carries by itself when the
rounding reaches the next power of two. -/
def nearestMagnitude (num den : Nat) : Nat :=
  let scaled := num * 2 ^ unitPlaces
  let dropped := droppedBits (scaled / den)
  min (dropped * 2 ^ fractionBits + roundHalfEven scaled (den * 2 ^ dropped)) infinityMagnitude

def ofRatio (num den : Nat) : Binary64 := ofMagnitude (nearestMagnitude num den)

def ofDecimal (d : Decimal) : Binary64 := ofRatio d.digits (10 ^ d.places)

theorem nearestMagnitude_le (num den : Nat) : nearestMagnitude num den ≤ infinityMagnitude :=
  Nat.min_le_right _ _

/-- A rounded value carries no sign and is no NaN: its bits end at those of infinity. -/
theorem magnitude_ofRatio (num den : Nat) : (ofRatio num den).magnitude = nearestMagnitude num den := by
  have bound := nearestMagnitude_le num den
  have top : infinityMagnitude < 2 ^ magnitudeBits := by decide
  exact magnitude_ofMagnitude (Nat.lt_of_le_of_lt bound top)

end Binary64

end ScriptLexer
