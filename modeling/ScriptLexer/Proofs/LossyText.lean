import ScriptLexer.Proofs.Decoding
import ScriptLexer.Proofs.History
import ScriptLexer.Proofs.Tiling

namespace ScriptLexer

namespace Utf8

theorem toList_lossy {pieces : List Piece} (separated : Piece.Separated pieces) :
    (lossy (Piece.bytesOf pieces)).toList = pieces.map Piece.char := by
  rw [lossy, units_bytesOf separated, String.toList_ofList, List.map_map]
  rfl

theorem lossy_encode (text : String) : lossy (encode text) = text := by
  simp [lossy, units_encode, Function.comp_def]

theorem lossy_append_ascii {byte : UInt8} (before behind : Bytes) (isAscii : byte < 0x80) :
    lossy (before ++ byte :: behind) =
      lossy before ++ String.singleton (Char.ofNat byte.toNat) ++ lossy behind := by
  obtain ⟨pieces, rfl, separated, -⟩ := exists_pieces before
  obtain ⟨more, rfl, separatedMore, -⟩ := exists_pieces behind
  have whole : Piece.bytesOf pieces ++ byte :: Piece.bytesOf more =
      Piece.bytesOf (pieces ++ Piece.ascii byte :: more) := by
    rw [Piece.bytesOf_append, Piece.bytesOf_cons]
    rfl
  rw [whole, ← String.toList_inj, String.toList_append, String.toList_append,
    toList_lossy (Piece.separated_append_ascii separated separatedMore isAscii), toList_lossy separated,
    toList_lossy separatedMore, String.toList_singleton, List.map_append, List.map_cons,
    List.append_assoc]
  rfl

namespace Piece

theorem above_ascii {piece : Piece} {behind : Bytes} (ends : piece.EndsBefore behind)
    (defect : piece.unit = none) : ∀ byte ∈ piece.bytes, ¬byte < 0x80 := by
  rw [EndsBefore, defect] at ends
  exact IsDefect.above_ascii ends

theorem endsBefore_of_mem {piece : Piece} {pieces : List Piece} (separated : Separated pieces)
    (member : piece ∈ pieces) : ∃ behind, piece.EndsBefore behind := by
  induction pieces with
  | nil => cases member
  | cons head pieces ih =>
    rcases List.mem_cons.mp member with rfl | later
    · exact ⟨_, separated.1⟩
    · exact ih separated.2 later

/-- A line feed stands for itself alone, and no defect holds one. -/
theorem count_lineFeed {piece : Piece} {behind : Bytes} (ends : piece.EndsBefore behind) :
    piece.bytes.count lineFeed = [piece.char].count '\n' := by
  obtain ⟨bytes, unit⟩ := piece
  cases unit with
  | none =>
    have absent : lineFeed ∉ bytes := fun member => above_ascii ends rfl lineFeed member (by decide)
    rw [List.count_eq_zero_of_not_mem absent]
    rfl
  | some c =>
    obtain rfl : bytes = String.utf8EncodeChar c := ends
    by_cases newline : c = '\n'
    · subst newline
      rfl
    · have absent : lineFeed ∉ String.utf8EncodeChar c := fun member =>
        newline (encoding_of_ascii_mem (by decide) member).2.symm
      have other : '\n' ∉ [c] := fun member => newline (List.mem_singleton.mp member).symm
      rw [List.count_eq_zero_of_not_mem absent]
      exact (List.count_eq_zero_of_not_mem other).symm

/-- The line feeds before a piece are the newlines before its character. -/
theorem count_bytesOf_take {pieces : List Piece} (separated : Separated pieces) (place : Nat) :
    (bytesOf (pieces.take place)).count lineFeed = ((pieces.map char).take place).count '\n' := by
  induction pieces generalizing place with
  | nil => simp [bytesOf]
  | cons piece pieces ih =>
    cases place with
    | zero => rfl
    | succ place =>
      show _ = ([piece.char] ++ (pieces.map char).take place).count '\n'
      rw [List.take_succ_cons, bytesOf_cons, List.count_append, List.count_append,
        count_lineFeed separated.1, ih separated.2]

end Piece

end Utf8

namespace Segment

/-- The items of segments of which the first stands at the given place, the lines told by place. -/
def itemsAt (lineAt : Nat → Nat) (place : Nat) : List Segment → List Item
  | [] => []
  | segment :: segments =>
    (segment.item? (lineAt place)).toList ++ itemsAt lineAt (place + segment.text.length) segments

theorem items_eq_itemsAt (before : List Char) {segments : List Segment} {lineAt : Nat → Nat}
    (counts : ∀ place, lineAt place =
      1 + ((before ++ sourceOf segments).take place).count '\n') :
    items (1 + before.count '\n') segments = itemsAt lineAt before.length segments := by
  induction segments generalizing before with
  | nil => rfl
  | cons segment segments ih =>
    have here : lineAt before.length = 1 + before.count '\n' := by
      rw [counts, List.take_left']
      rfl
    have lineBehind : segment.lineAfter (1 + before.count '\n') =
        1 + (before ++ segment.text).count '\n' := by
      rw [lineAfter, List.count_append]
      omega
    have later := ih (before ++ segment.text) fun place => by
      rw [counts, sourceOf_cons, List.append_assoc]
    rw [items, itemsAt, here, lineBehind, later, List.length_append]

end Segment

/-- Text written to a file is the text read from it, so running the file is running the text. Whatever
the bytes of a file are, a byte of ASCII in it is read as its character, and what stands before it and
behind it is read as if it stood alone. The bytes fall into pieces in one way, each read as one
character: encodings, and defects, which hold no byte of ASCII. The items of a scan stand on the lines
that the line feeds before their places in the file make. -/
theorem lossy_keeps_ascii :
    (∀ text : String, Utf8.lossy (Utf8.encode text) = text) ∧
    (∀ (read : String → Except Fault Bytes) (path : String) (bytes : Bytes) (s : Session),
      hasScriptExtension path = true → read path = .ok bytes →
      Session.left (Session.runFile read path s) = Session.left (Session.run (Utf8.lossy bytes) s) ∧
      ∀ text, bytes = Utf8.encode text →
        Session.left (Session.runFile read path s) = Session.left (Session.run text s)) ∧
    (∀ (before behind : Bytes) (byte : UInt8), byte < 0x80 →
      Utf8.lossy (before ++ byte :: behind) =
        Utf8.lossy before ++ String.singleton (Char.ofNat byte.toNat) ++ Utf8.lossy behind) ∧
    ∀ bytes : Bytes, ∃ (pieces : List Utf8.Piece) (segments : List Segment),
      Utf8.Piece.bytesOf pieces = bytes ∧ Utf8.Piece.Separated pieces ∧
      (∀ others, Utf8.Piece.bytesOf others = bytes → Utf8.Piece.Separated others → others = pieces) ∧
      (Utf8.lossy bytes).toList = pieces.map Utf8.Piece.char ∧
      (∀ piece ∈ pieces, piece.unit = none → ∀ byte ∈ piece.bytes, ¬byte < 0x80) ∧
      Segment.sourceOf segments = (Utf8.lossy bytes).toList ∧ Segment.Separated segments ∧
      (Scanner.ofString (Utf8.lossy bytes)).items =
        Segment.itemsAt (fun place => 1 + (Utf8.Piece.bytesOf (pieces.take place)).count lineFeed) 0
          segments ++ [.token (.endOfFile (1 + bytes.count lineFeed))] := by
  have leaves (read : String → Except Fault Bytes) (path : String) (bytes : Bytes) (s : Session)
      (script : hasScriptExtension path = true) (contents : read path = .ok bytes) :
      Session.left (Session.runFile read path s) = Session.left (Session.run (Utf8.lossy bytes) s) :=
    Session.left_runFile_of_some (by simp only [Session.sourceAt?, script, contents, if_true]) s
  refine ⟨Utf8.lossy_encode, fun read path bytes s script contents =>
    ⟨leaves read path bytes s script contents, fun text encoded => ?_⟩,
    fun before behind byte isAscii => Utf8.lossy_append_ascii before behind isAscii, fun bytes => ?_⟩
  · rw [leaves read path bytes s script contents, encoded, Utf8.lossy_encode]
  · obtain ⟨pieces, rfl, separated, -⟩ := Utf8.exists_pieces bytes
    obtain ⟨segments, same, cut⟩ := Segment.exists_segments (pieces.map Utf8.Piece.char)
    have text := Utf8.toList_lossy separated
    have total : (Utf8.Piece.bytesOf pieces).count lineFeed = (pieces.map Utf8.Piece.char).count '\n' := by
      have whole := Utf8.Piece.count_bytesOf_take separated pieces.length
      rwa [List.take_length, ← List.length_map (f := Utf8.Piece.char), List.take_length] at whole
    refine ⟨pieces, segments, rfl, separated, fun others sameBytes otherSeparated =>
      otherSeparated.unique separated sameBytes, text, fun piece member defect => ?_,
      same.trans text.symm, cut, ?_⟩
    · obtain ⟨behind, ends⟩ := Utf8.Piece.endsBefore_of_mem separated member
      exact Utf8.Piece.above_ascii ends defect
    · have places : Segment.items 1 segments = Segment.itemsAt _ 0 segments :=
        Segment.items_eq_itemsAt [] (fun place =>
          congrArg (1 + ·) ((Utf8.Piece.count_bytesOf_take separated place).trans (by rw [← same]; rfl)))
      rw [Scanner.items_ofString (same.trans text.symm) cut, places, text, total]

/-- A script with a character of two bytes, a sequence of four bytes that a quote breaks off, and a stray
byte in front of a line feed. -/
theorem lossy_keeps_ascii_point :
    Session.left (Session.runFile (fun _ => .ok (Utf8.encode "é\n@")) "a.Ks" {}) =
      Session.left (Session.run "é\n@" {}) ∧
    Utf8.lossy ([0xF0, 0x9F] ++ 0x22 :: [0x80]) =
      Utf8.lossy [0xF0, 0x9F] ++ String.singleton '"' ++ Utf8.lossy [0x80] ∧
    ∃ pieces : List Utf8.Piece, [⟨[0x80], none⟩, Utf8.Piece.ascii lineFeed] = pieces ∧
      (Utf8.lossy [0x80, lineFeed]).toList = pieces.map Utf8.Piece.char ∧
      ∀ byte ∈ [0x80], ¬byte < (0x80 : UInt8) := by
  obtain ⟨-, files, parts, cuts⟩ := lossy_keeps_ascii
  obtain ⟨pieces, -, -, -, unique, text, above, -⟩ := cuts [0x80, lineFeed]
  have separated : Utf8.Piece.Separated [⟨[0x80], none⟩, Utf8.Piece.ascii lineFeed] :=
    ⟨Utf8.isDefect_of_stray (by decide) (by decide) _, Utf8.Piece.endsBefore_ascii (by decide) _, trivial⟩
  obtain rfl := unique _ rfl separated
  exact ⟨(files _ "a.Ks" _ {} (by decide) rfl).2 "é\n@" rfl, parts [0xF0, 0x9F] [0x80] 0x22 (by decide),
    _, rfl, text, above _ (List.mem_cons_self ..) rfl⟩

end ScriptLexer
