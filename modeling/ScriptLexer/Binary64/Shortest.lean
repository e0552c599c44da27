import ScriptLexer.Binary64.Rounding

namespace ScriptLexer

namespace Binary64

-- Powers are those of the core library, whatever else is imported.
attribute [local instance (high)] instPowNat

/-- The digits of the exact value with `unitPlaces` places. A unit is `5 ^ 1074 / 10 ^ 1074`, so every finite
double is a decimal with so many places. -/
def exactDigits (x : Binary64) : Nat := x.units * 5 ^ unitPlaces

/-- Whether the decimal with these digits and `unitPlaces` places is read as `x`, sign apart. -/
def isReadFrom (x : Binary64) (digits : Nat) : Bool :=
  nearestMagnitude digits (10 ^ unitPlaces) == x.magnitude

/-- The multiple of `10 ^ s` nearest to the exact digits among those that are read as `x`, given
divided by `10 ^ s`. -/
def nearestOnGrid? (x : Binary64) (s : Nat) : Option Nat :=
  let below := x.exactDigits / 10 ^ s
  let rest := x.exactDigits % 10 ^ s
  let fitsBelow := x.isReadFrom (below * 10 ^ s)
  let fitsAbove := x.isReadFrom ((below + 1) * 10 ^ s)
  if fitsBelow && (!fitsAbove || decide (2 * rest < 10 ^ s)) then some below
  else if fitsAbove then some (below + 1)
  else none

/-- The decimal `digits * 10 ^ s / 10 ^ unitPlaces`, with no more places than it needs. -/
def onGrid (digits s : Nat) : Decimal := ⟨digits * 10 ^ (s - unitPlaces), unitPlaces - s⟩

/-- The first hit on the grids `s`, `s - 1` and so on. The finest grid holds the exact value. -/
def firstOnGrids (x : Binary64) : Nat → Decimal
  | 0 => onGrid x.exactDigits 0
  | s + 1 => ((x.nearestOnGrid? (s + 1)).map (onGrid · (s + 1))).getD (x.firstOnGrids s)

/-- A grid so coarse that every coarser one has its first positive point beyond twice the value:
`28 / 93` lies just above the logarithm of two to base ten. -/
def coarsestGrid (x : Binary64) : Nat := (x.exactDigits.log2 + 2) * 28 / 93

/-- The decimal with the fewest digits that is read back, the nearest of them, and of two equally near the
greater. Grids are tried from the coarsest down. -/
def shortest (x : Binary64) : Decimal :=
  if x.exactDigits = 0 then ⟨0, 0⟩ else x.firstOnGrids x.coarsestGrid

/-- The written form: a sign where there is one, and all places written out. -/
def toText (x : Binary64) : String :=
  if x.isNaN then "NaN"
  else
    let unsigned := if x.isInfinite then "inf" else String.ofList x.shortest.toChars
    if x.isNegative then "-" ++ unsigned else unsigned

end Binary64

end ScriptLexer
