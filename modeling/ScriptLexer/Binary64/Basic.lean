namespace ScriptLexer

/-- A double, identified with its bits. Decidable equality is equality of bits, whereas `==` is
the equality of numbers below. -/
structure Binary64 where
  bits : UInt64
deriving DecidableEq, Repr

namespace Binary64

-- Powers are those of the core library, whatever else is imported.
attribute [local instance (high)] instPowNat

/-- The bits of the fraction field. -/
def fractionBits : Nat := 52

/-- The bits of all fields but the sign. -/
def magnitudeBits : Nat := 63

/-- The smallest positive double is `2 ^ -unitPlaces`. -/
def unitPlaces : Nat := 1074

/-- The exponent field of infinities and NaNs. -/
def topExponent : Nat := 2047

/-- All bits but the sign. Doubles without sign are ordered as these numbers are. -/
def magnitude (x : Binary64) : Nat := x.bits.toNat % 2 ^ magnitudeBits

def isNegative (x : Binary64) : Bool := 2 ^ magnitudeBits ≤ x.bits.toNat

def exponent (x : Binary64) : Nat := x.magnitude / 2 ^ fractionBits

def fraction (x : Binary64) : Nat := x.magnitude % 2 ^ fractionBits

def isInfinite (x : Binary64) : Bool := x.exponent == topExponent && x.fraction == 0

def isNaN (x : Binary64) : Bool := x.exponent == topExponent && x.fraction != 0

/-- The double without sign that has these bits. -/
def ofMagnitude (magnitude : Nat) : Binary64 := ⟨UInt64.ofNat magnitude⟩

/-- The magnitude of infinity, which lies just above that of every finite double. -/
def infinityMagnitude : Nat := topExponent * 2 ^ fractionBits

/-- The absolute value of a finite double, counted in the smallest positive double. Exponents zero
and one share one spacing, and only from one on is the leading bit there. -/
def units (x : Binary64) : Nat :=
  if x.exponent = 0 then x.fraction
  else (2 ^ fractionBits + x.fraction) * 2 ^ (x.exponent - 1)

/-- Equality of numbers: a NaN equals nothing, and the two zeros equal each other. -/
def numericEq (x y : Binary64) : Bool :=
  !x.isNaN && !y.isNaN && (x.bits == y.bits || (x.magnitude == 0 && y.magnitude == 0))

instance : BEq Binary64 := ⟨numericEq⟩

theorem magnitude_ofMagnitude {m : Nat} (below : m < 2 ^ magnitudeBits) :
    (ofMagnitude m).magnitude = m := by
  simp only [magnitude, ofMagnitude, magnitudeBits, UInt64.toNat_ofNat'] at below ⊢
  omega

theorem isNegative_ofMagnitude {m : Nat} (below : m < 2 ^ magnitudeBits) :
    (ofMagnitude m).isNegative = false := by
  simp only [isNegative, ofMagnitude, magnitudeBits, UInt64.toNat_ofNat',
    decide_eq_false_iff_not] at below ⊢
  omega

end Binary64

end ScriptLexer
