import ScriptLexer.Proofs.Defect

namespace ScriptLexer

namespace Utf8

/-- A piece of a byte string, and the unit that it is read as. -/
structure Piece where
  bytes : Bytes
  unit : Option Char
deriving DecidableEq, Repr

namespace Piece

/-- What stands for the piece in a text. -/
def char (piece : Piece) : Char := piece.unit.getD '\uFFFD'

/-- The piece is the first one of its bytes and those behind it. -/
def EndsBefore (piece : Piece) (behind : Bytes) : Prop :=
  match piece.unit with
  | some c => piece.bytes = String.utf8EncodeChar c
  | none => IsDefect piece.bytes behind

/-- The bytes of pieces one after the other. -/
def bytesOf (pieces : List Piece) : Bytes := pieces.flatMap bytes

/-- Every piece ends before the bytes of those behind it. -/
def Separated : List Piece → Prop
  | [] => True
  | piece :: pieces => piece.EndsBefore (bytesOf pieces) ∧ Separated pieces

theorem bytesOf_cons (piece : Piece) (pieces : List Piece) :
    bytesOf (piece :: pieces) = piece.bytes ++ bytesOf pieces := rfl

theorem bytesOf_append (pieces more : List Piece) :
    bytesOf (pieces ++ more) = bytesOf pieces ++ bytesOf more := List.flatMap_append

theorem bytes_ne_nil {piece : Piece} {behind : Bytes} (ends : piece.EndsBefore behind) :
    piece.bytes ≠ [] := by
  obtain ⟨bytes, unit⟩ := piece
  cases unit with
  | none => exact IsDefect.ne_nil ends
  | some c =>
    rw [show bytes = String.utf8EncodeChar c from ends]
    exact String.utf8EncodeChar_ne_nil

theorem EndsBefore.unique {piece other : Piece} {behind more : Bytes} (ends : piece.EndsBefore behind)
    (otherEnds : other.EndsBefore more) (same : piece.bytes ++ behind = other.bytes ++ more) :
    piece = other := by
  obtain ⟨bytes, unit⟩ := piece
  obtain ⟨others, otherUnit⟩ := other
  cases unit with
  | none =>
    cases otherUnit with
    | none => rw [show bytes = others from IsDefect.unique ends otherEnds same]
    | some c =>
      obtain rfl : others = String.utf8EncodeChar c := otherEnds
      exact absurd ⟨more, same.symm⟩ (IsDefect.not_encoded ends c)
  | some c =>
    obtain rfl : bytes = String.utf8EncodeChar c := ends
    cases otherUnit with
    | none => exact absurd ⟨behind, same⟩ (IsDefect.not_encoded otherEnds c)
    | some other =>
      obtain rfl : others = String.utf8EncodeChar other := otherEnds
      rw [eq_of_encoding_append same]

/-- Bytes fall into pieces in one way. -/
theorem Separated.unique {pieces others : List Piece} (separated : Separated pieces)
    (otherSeparated : Separated others) (same : bytesOf pieces = bytesOf others) : pieces = others := by
  induction pieces generalizing others with
  | nil =>
    cases others with
    | nil => rfl
    | cons other others =>
      exact absurd (List.append_eq_nil_iff.mp same.symm).1 (bytes_ne_nil otherSeparated.1)
  | cons piece pieces ih =>
    cases others with
    | nil => exact absurd (List.append_eq_nil_iff.mp same).1 (bytes_ne_nil separated.1)
    | cons other others =>
      obtain rfl := separated.1.unique otherSeparated.1 same
      rw [ih separated.2 otherSeparated.2 (List.append_cancel_left same)]

theorem EndsBefore.append_ascii {piece : Piece} {behind : Bytes} {byte : UInt8}
    (ends : piece.EndsBefore behind) (ascii : byte < 0x80) (rest : Bytes) :
    piece.EndsBefore (behind ++ byte :: rest) := by
  obtain ⟨bytes, unit⟩ := piece
  cases unit with
  | none => exact IsDefect.append_ascii ends ascii rest
  | some c => exact ends

/-- The piece of a byte of ASCII. -/
def ascii (byte : UInt8) : Piece := ⟨[byte], some (Char.ofNat byte.toNat)⟩

theorem endsBefore_ascii {byte : UInt8} (isAscii : byte < 0x80) (behind : Bytes) :
    (ascii byte).EndsBefore behind := (encoding_ascii isAscii).symm

/-- A byte of ASCII is a piece of its own, and what stands before it is cut as if it were the end. -/
theorem separated_append_ascii {pieces more : List Piece} {byte : UInt8} (separated : Separated pieces)
    (separatedMore : Separated more) (isAscii : byte < 0x80) :
    Separated (pieces ++ ascii byte :: more) := by
  induction pieces with
  | nil => exact ⟨endsBefore_ascii isAscii _, separatedMore⟩
  | cons piece pieces ih =>
    refine ⟨?_, ih separated.2⟩
    show piece.EndsBefore (bytesOf (pieces ++ ascii byte :: more))
    rw [bytesOf_append]
    exact separated.1.append_ascii isAscii (bytesOf more)

theorem separated_encodings (chars : List Char) :
    Separated (chars.map fun c => ⟨String.utf8EncodeChar c, some c⟩) := by
  induction chars with
  | nil => trivial
  | cons c chars ih => exact ⟨rfl, ih⟩

end Piece

theorem begin_ascii {byte : UInt8} (units : Array (Option Char)) (ascii : byte < 0x80) :
    Cutting.begin units byte = ⟨units.push (some (Char.ofNat byte.toNat)), none⟩ := if_pos ascii

theorem begin_lead {byte : UInt8} {sequence : Sequence} (units : Array (Option Char))
    (begins : Sequence.ofLead? byte = some sequence) :
    Cutting.begin units byte = ⟨units, some sequence⟩ := by
  have above : ¬byte < 0x80 := by
    rw [UInt8.lt_iff_toNat_lt]
    exact Nat.not_lt.mpr (bounds_of_ofLead? begins).1
  simp only [Cutting.begin, above, if_false, begins]

theorem push_last {sequence : Sequence} {byte : UInt8} (units : Array (Option Char))
    (low : sequence.low ≤ byte) (high : byte ≤ sequence.high) (missing : sequence.missing = 1) :
    Cutting.push ⟨units, some sequence⟩ byte =
      ⟨units.push (some (Char.ofNat (sequence.bits * 64 + byte.toNat % 64))), none⟩ := by
  simp [Cutting.push, low, high, missing]

theorem push_more {sequence : Sequence} {byte : UInt8} (units : Array (Option Char))
    (low : sequence.low ≤ byte) (high : byte ≤ sequence.high) (missing : 1 < sequence.missing) :
    Cutting.push ⟨units, some sequence⟩ byte = ⟨units, some (sequence.next byte)⟩ := by
  simp [Cutting.push, Sequence.next, low, high, Nat.not_le.mpr missing]

/-- Bytes that complete a sequence are read as the character that they spell. -/
theorem foldl_push_of_spells {sequence : Sequence} {bytes : Bytes} {code : Nat}
    (spells : sequence.Spells bytes code) (units : Array (Option Char)) :
    bytes.foldl Cutting.push ⟨units, some sequence⟩ = ⟨units.push (some (Char.ofNat code)), none⟩ := by
  induction spells with
  | last low high missing => exact push_last units low high missing
  | more low high missing later ih =>
    rw [List.foldl_cons, push_more units low high missing]
    exact ih

/-- A sequence that is broken off is read as a defect. -/
theorem foldl_push_of_breaksOff {sequence : Sequence} {bytes behind : Bytes}
    (breaks : sequence.BreaksOff bytes behind) (units : Array (Option Char)) :
    ((bytes ++ behind).foldl Cutting.push ⟨units, some sequence⟩).finish =
      (behind.foldl Cutting.push ⟨units.push none, none⟩).finish := by
  induction breaks with
  | ended => rfl
  | outside outside => simp only [List.nil_append, List.foldl_cons, Cutting.push, outside, if_false]
  | more inBounds missing later ih =>
    rw [List.cons_append, List.foldl_cons, push_more units inBounds.1 inBounds.2 missing, ih]

/-- The reader finds a first piece in bytes that are left, and goes on behind it. -/
theorem exists_first_piece (byte : UInt8) (bytes : Bytes) :
    ∃ (piece : Piece) (behind : Bytes), byte :: bytes = piece.bytes ++ behind ∧
      piece.EndsBefore behind ∧ ∀ units, ((byte :: bytes).foldl Cutting.push ⟨units, none⟩).finish =
        (behind.foldl Cutting.push ⟨units.push piece.unit, none⟩).finish := by
  by_cases isAscii : byte < 0x80
  · refine ⟨.ascii byte, bytes, rfl, Piece.endsBefore_ascii isAscii _, fun units => ?_⟩
    rw [List.foldl_cons, Cutting.push, begin_ascii units isAscii]
    rfl
  cases begins : Sequence.ofLead? byte with
  | none =>
    refine ⟨⟨[byte], none⟩, bytes, rfl, isDefect_of_stray isAscii begins _, fun units => ?_⟩
    simp only [List.foldl_cons, Cutting.push, Cutting.begin, isAscii, if_false, begins]
  | some sequence =>
    rcases sequence.spells_or_breaksOff (bounds_of_ofLead? begins).2.1 bytes with
      ⟨spelling, behind, code, cut, spells⟩ | ⟨admitted, behind, cut, breaks⟩
    · refine ⟨⟨byte :: spelling, some (Char.ofNat code)⟩, behind, congrArg (byte :: ·) cut,
        (spells.encodes begins).2.symm, fun units => ?_⟩
      rw [List.foldl_cons, Cutting.push, begin_lead units begins, cut, List.foldl_append,
        foldl_push_of_spells spells]
    · refine ⟨⟨byte :: admitted, none⟩, behind, congrArg (byte :: ·) cut,
        isDefect_of_breaksOff begins breaks, fun units => ?_⟩
      rw [List.foldl_cons, Cutting.push, begin_lead units begins, cut, foldl_push_of_breaksOff breaks]

/-- The reader adds the units of the pieces to those that it has. -/
theorem exists_pieces (bytes : Bytes) :
    ∃ pieces : List Piece, Piece.bytesOf pieces = bytes ∧ Piece.Separated pieces ∧
      ∀ units, (bytes.foldl Cutting.push ⟨units, none⟩).finish.toList =
        units.toList ++ pieces.map Piece.unit := by
  match bytes with
  | [] => exact ⟨[], rfl, trivial, by simp [Cutting.finish]⟩
  | byte :: bytes =>
    obtain ⟨piece, behind, cut, ends, first⟩ := exists_first_piece byte bytes
    have shorter : behind.length < (byte :: bytes).length := by
      rw [cut, List.length_append]
      exact Nat.lt_add_of_pos_left (List.length_pos_iff.mpr (Piece.bytes_ne_nil ends))
    obtain ⟨pieces, rfl, separated, reads⟩ := exists_pieces behind
    refine ⟨piece :: pieces, cut.symm, ⟨ends, separated⟩, fun units => ?_⟩
    rw [first, reads, Array.toList_push, List.append_assoc]
    rfl
termination_by bytes.length
decreasing_by exact shorter

/-- The units of bytes are those of the pieces into which they fall. -/
theorem units_bytesOf {pieces : List Piece} (separated : Piece.Separated pieces) :
    units (Piece.bytesOf pieces) = pieces.map Piece.unit := by
  obtain ⟨found, same, foundSeparated, reads⟩ := exists_pieces (Piece.bytesOf pieces)
  obtain rfl := separated.unique foundSeparated same.symm
  simpa [units] using reads #[]

end Utf8

end ScriptLexer
