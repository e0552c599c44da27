import ScriptLexer.Proofs.Pieces

namespace ScriptLexer

namespace Utf8

theorem encode_eq_bytesOf (text : String) :
    encode text = Piece.bytesOf (text.toList.map fun c => ⟨String.utf8EncodeChar c, some c⟩) := by
  simp [encode, Piece.bytesOf, List.flatMap_map]

theorem units_encode (text : String) : units (encode text) = text.toList.map some := by
  rw [encode_eq_bytesOf, units_bytesOf (Piece.separated_encodings text.toList), List.map_map]
  rfl

/-- Pieces without a defect are the encodings of their characters. -/
theorem Piece.bytesOf_eq_encode {pieces : List Piece} (separated : Separated pieces)
    (encoded : ∀ piece ∈ pieces, piece.unit.isSome = true) :
    bytesOf pieces = encode (String.ofList (pieces.filterMap unit)) := by
  rw [encode, String.toList_ofList]
  induction pieces with
  | nil => rfl
  | cons piece pieces ih =>
    obtain ⟨isEncoded, encoded⟩ := List.forall_mem_cons.mp encoded
    obtain ⟨c, isUnit⟩ := Option.isSome_iff_exists.mp isEncoded
    have ends := separated.1
    rw [EndsBefore, isUnit] at ends
    rw [bytesOf_cons, List.filterMap_cons, isUnit, List.flatMap_cons, ← ih separated.2 encoded]
    exact congrArg (· ++ bytesOf pieces) ends

theorem decode?_encode (text : String) : decode? (encode text) = some text := by
  simp [decode?, units_encode, List.filterMap_map]

theorem encode_injective : Function.Injective encode := by
  intro text other same
  have decoded := decode?_encode text
  rw [same, decode?_encode] at decoded
  exact (Option.some.inj decoded).symm

/-- The reader of bytes accepts exactly the encodings, and gives the text encoded. -/
theorem decode?_eq_some_iff {bytes : Bytes} {text : String} :
    decode? bytes = some text ↔ encode text = bytes := by
  constructor
  · intro decoded
    obtain ⟨pieces, rfl, separated, -⟩ := exists_pieces bytes
    simp only [decode?, units_bytesOf separated, List.all_map] at decoded
    split at decoded
    · next encoded =>
      rw [Piece.bytesOf_eq_encode separated (List.all_eq_true.mp encoded), ← Option.some.inj decoded,
        List.filterMap_map]
      rfl
    · cases decoded
  · rintro rfl
    exact decode?_encode text

end Utf8

end ScriptLexer
