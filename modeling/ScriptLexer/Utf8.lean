import ScriptLexer.Bytes

namespace ScriptLexer

namespace Utf8

def encode (text : String) : Bytes := text.toList.flatMap String.utf8EncodeChar

/-- A well-formed sequence that has begun: the bits read so far, how many bytes are missing, and
between which bounds the next one has to lie. -/
structure Sequence where
  bits : Nat
  missing : Nat
  low : UInt8
  high : UInt8
deriving DecidableEq, Repr

/-- The sequence that a byte above ASCII begins, if any. The narrowed bounds of the second byte
exclude overlong forms, surrogates and what lies beyond the last code point. -/
def Sequence.ofLead? (byte : UInt8) : Option Sequence :=
  let bits := byte.toNat
  if 0xC2 ≤ byte ∧ byte ≤ 0xDF then some ⟨bits - 0xC0, 1, 0x80, 0xBF⟩
  else if byte = 0xE0 then some ⟨0, 2, 0xA0, 0xBF⟩
  else if byte = 0xED then some ⟨0x0D, 2, 0x80, 0x9F⟩
  else if 0xE1 ≤ byte ∧ byte ≤ 0xEF then some ⟨bits - 0xE0, 2, 0x80, 0xBF⟩
  else if byte = 0xF0 then some ⟨0, 3, 0x90, 0xBF⟩
  else if 0xF1 ≤ byte ∧ byte ≤ 0xF3 then some ⟨bits - 0xF0, 3, 0x80, 0xBF⟩
  else if byte = 0xF4 then some ⟨4, 3, 0x80, 0x8F⟩
  else none

/-- Cutting in progress: the units so far, a defect being `none`, and the sequence under way. -/
structure Cutting where
  units : Array (Option Char) := #[]
  pending : Option Sequence := none
deriving DecidableEq, Repr

/-- Takes a byte while no sequence is under way. -/
def Cutting.begin (units : Array (Option Char)) (byte : UInt8) : Cutting :=
  if byte < 0x80 then { units := units.push (some (Char.ofNat byte.toNat)) }
  else
    match Sequence.ofLead? byte with
    | some sequence => { units := units, pending := some sequence }
    | none => { units := units.push none }

/-- Takes one more byte. One that does not continue the sequence under way breaks it off and is
then looked at anew. -/
def Cutting.push (cutting : Cutting) (byte : UInt8) : Cutting :=
  match cutting.pending with
  | none => Cutting.begin cutting.units byte
  | some sequence =>
    if sequence.low ≤ byte ∧ byte ≤ sequence.high then
      let bits := sequence.bits * 64 + byte.toNat % 64
      if sequence.missing ≤ 1 then { units := cutting.units.push (some (Char.ofNat bits)) }
      else { cutting with pending := some ⟨bits, sequence.missing - 1, 0x80, 0xBF⟩ }
    else Cutting.begin (cutting.units.push none) byte

/-- The units once no more bytes come: a sequence still under way is broken off. -/
def Cutting.finish (cutting : Cutting) : Array (Option Char) :=
  match cutting.pending with
  | none => cutting.units
  | some _ => cutting.units.push none

/-- The characters and defects of the bytes, in order. -/
def units (bytes : Bytes) : List (Option Char) :=
  (bytes.foldl Cutting.push {}).finish.toList

/-- The text of well-formed bytes. -/
def decode? (bytes : Bytes) : Option String :=
  let cut := units bytes
  if cut.all Option.isSome then some (String.ofList (cut.filterMap id)) else none

/-- The text of any bytes, each defect replaced by U+FFFD. A byte order mark is a character like
any other. -/
def lossy (bytes : Bytes) : String :=
  String.ofList ((units bytes).map (·.getD '\uFFFD'))

end Utf8

end ScriptLexer
