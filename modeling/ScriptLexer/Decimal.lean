namespace ScriptLexer

/-- The number `digits / 10 ^ places`. The places are kept as written, so `1.50` and `1.5` have
one value and two representations. -/
structure Decimal where
  digits : Nat
  places : Nat
deriving DecidableEq, Repr

/-- Reads digits, or digits, a point and digits. A sign, an exponent, or a point without a digit
on both sides is refused. -/
def Decimal.ofChars? (text : List Char) : Option Decimal :=
  let whole := text.takeWhile Char.isDigit
  if whole.isEmpty then none
  else
    match text.dropWhile Char.isDigit with
    | [] => some ⟨Nat.ofDigitChars 10 whole 0, 0⟩
    | point :: fraction =>
      if point = '.' ∧ fraction ≠ [] ∧ fraction.all Char.isDigit then
        some ⟨Nat.ofDigitChars 10 (whole ++ fraction) 0, fraction.length⟩
      else none

/-- The digits with enough zeros in front that one of them stands before the point. -/
def Decimal.paddedDigits (d : Decimal) : List Char :=
  let written := Nat.toDigits 10 d.digits
  List.replicate (d.places + 1 - written.length) '0' ++ written

/-- The positional form: never an exponent, and no point when there are no places. -/
def Decimal.toChars (d : Decimal) : List Char :=
  let written := d.paddedDigits
  let point := written.length - d.places
  if d.places = 0 then written
  else written.take point ++ '.' :: written.drop point

theorem Decimal.places_lt_paddedDigits_length (d : Decimal) : d.places < d.paddedDigits.length := by
  simp only [Decimal.paddedDigits, List.length_append, List.length_replicate]
  omega

end ScriptLexer
