import ScriptLexer.Proofs.Decoding
import ScriptLexer.Proofs.Faultless
import ScriptLexer.Session.ScriptFile

namespace ScriptLexer

namespace Utf8

theorem length_encode (text : String) : (encode text).length = text.utf8ByteSize := by
  calc (encode text).length = (String.ofList text.toList).toByteArray.size := List.size_toByteArray.symm
    _ = text.utf8ByteSize := by rw [String.ofList_toList, String.size_toByteArray]

theorem encode_append (text more : String) : encode (text ++ more) = encode text ++ encode more := by
  simp only [encode, String.toList_append, List.flatMap_append]

theorem Piece.separated_ascii {bytes : Bytes} (isAscii : ∀ byte ∈ bytes, byte < 0x80) :
    Separated (bytes.map ascii) := by
  induction bytes with
  | nil => trivial
  | cons byte bytes ih =>
    obtain ⟨first, others⟩ := List.forall_mem_cons.mp isAscii
    exact ⟨endsBefore_ascii first _, ih others⟩

/-- Bytes of ASCII are read as their characters, whatever stands before them. -/
theorem units_append_ascii (before : Bytes) {tail : Bytes} (isAscii : ∀ byte ∈ tail, byte < 0x80) :
    units (before ++ tail) = units before ++ tail.map fun byte => some (Char.ofNat byte.toNat) := by
  obtain ⟨pieces, rfl, separated, -⟩ := exists_pieces before
  have whole : Piece.bytesOf (pieces ++ tail.map Piece.ascii) = Piece.bytesOf pieces ++ tail := by
    rw [Piece.bytesOf_append]
    simp [Piece.bytesOf, Piece.ascii, List.flatMap_map]
  have cut : Piece.Separated (pieces ++ tail.map Piece.ascii) := by
    cases tail with
    | nil => rwa [List.map_nil, List.append_nil]
    | cons byte tail =>
      obtain ⟨first, others⟩ := List.forall_mem_cons.mp isAscii
      exact Piece.separated_append_ascii separated (Piece.separated_ascii others) first
  rw [← whole, units_bytesOf cut, units_bytesOf separated, List.map_append, List.map_map]
  rfl

/-- Bytes of ASCII at the end of an encoding are the characters at the end of the text. -/
theorem exists_stem {text : String} {before tail : Bytes} (ends : encode text = before ++ tail)
    (isAscii : ∀ byte ∈ tail, byte < 0x80) :
    ∃ stem, text.toList = stem ++ tail.map fun byte => Char.ofNat byte.toNat := by
  have cut := units_append_ascii before isAscii
  rw [← ends, units_encode] at cut
  obtain ⟨stem, last, same, -, sameLast⟩ := List.map_eq_append_iff.mp cut
  refine ⟨stem, same.trans (congrArg (stem ++ ·) ?_)⟩
  have mapped : last.map some = (tail.map fun byte => Char.ofNat byte.toNat).map some :=
    sameLast.trans List.map_map.symm
  exact (List.map_inj_right fun _ _ => Option.some.inj).mp mapped

end Utf8

theorem asciiLower_eq_dot_iff {byte : UInt8} : asciiLower byte = 0x2E ↔ byte = 0x2E := by
  unfold asciiLower
  grind

/-- A letter in lower case is what it is in lower case, and what is 32 places before it. -/
theorem asciiLower_eq_iff {byte lower : UInt8} (isLower : 0x61 ≤ lower ∧ lower ≤ 0x7A) :
    asciiLower byte = lower ↔ byte = lower ∨ byte = lower - 0x20 := by
  simp only [asciiLower, ← UInt8.toNat_inj, UInt8.le_iff_toNat_le] at *
  split <;> simp only [UInt8.toNat_add, UInt8.toNat_sub, UInt8.toNat_ofNat] at * <;> omega

theorem map_asciiLower_eq_iff {bytes : Bytes} :
    bytes.map asciiLower = Utf8.encode ".ks" ↔
      ∃ k s, bytes = [0x2E, k, s] ∧ (k = 0x6B ∨ k = 0x4B) ∧ (s = 0x73 ∨ s = 0x53) := by
  have extension : Utf8.encode ".ks" = [0x2E, 0x6B, 0x73] := by decide
  rw [extension]
  constructor
  · intro same
    obtain ⟨point, _, rfl, isPoint, same⟩ := List.map_eq_cons_iff.mp same
    obtain ⟨k, _, rfl, isK, same⟩ := List.map_eq_cons_iff.mp same
    obtain ⟨s, _, rfl, isS, same⟩ := List.map_eq_cons_iff.mp same
    obtain rfl := List.map_eq_nil_iff.mp same
    obtain rfl := asciiLower_eq_dot_iff.mp isPoint
    exact ⟨k, s, rfl, (asciiLower_eq_iff (by decide)).mp isK, (asciiLower_eq_iff (by decide)).mp isS⟩
  · rintro ⟨k, s, rfl, rfl | rfl, rfl | rfl⟩ <;> rfl

/-- The last bytes of a path as a text, if there are so many and they can be cut off. -/
def tail? (path : String) (count : Nat) : Option String :=
  if count ≤ path.utf8ByteSize then sliceBytes? path (path.utf8ByteSize - count) path.utf8ByteSize
  else none

/-- Equality of texts up to the case of ASCII letters. -/
def sameInAnyCase (text other : String) : Bool :=
  (Utf8.encode text).map asciiLower == (Utf8.encode other).map asciiLower

theorem tail?_append (before tail : String) : tail? (before ++ tail) tail.utf8ByteSize = some tail := by
  have slice := sliceBytes?_append before tail ""
  rw [String.append_empty] at slice
  rw [tail?, String.utf8ByteSize_append, if_pos (Nat.le_add_left _ _), Nat.add_sub_cancel]
  exact slice

/-- There is no cut if there are too few bytes, or inside a character. -/
theorem tail?_eq_none_iff {path : String} {count : Nat} :
    tail? path count = none ↔ path.utf8ByteSize < count ∨
      ¬String.Pos.Raw.IsValid path ⟨path.utf8ByteSize - count⟩ := by
  have stop : String.Pos.Raw.IsValid path ⟨path.utf8ByteSize⟩ := String.Pos.Raw.isValid_rawEndPos
  by_cases enough : count ≤ path.utf8ByteSize
  · by_cases start : String.Pos.Raw.IsValid path ⟨path.utf8ByteSize - count⟩
    · simp [tail?, sliceBytes?, enough, start, stop]
    · simp [tail?, sliceBytes?, enough, start]
  · simp [tail?, enough, Nat.lt_of_not_le enough]

theorem exists_append_of_tail? {path tail : String} {count : Nat} (cut : tail? path count = some tail) :
    ∃ before, path = before ++ tail ∧ tail.utf8ByteSize = count := by
  have present : ¬(path.utf8ByteSize < count ∨
      ¬String.Pos.Raw.IsValid path ⟨path.utf8ByteSize - count⟩) := by
    intro absent
    rw [tail?_eq_none_iff.mpr absent] at cut
    cases cut
  rw [not_or, Nat.not_lt, not_not] at present
  obtain ⟨enough, valid⟩ := present
  obtain ⟨before, behind, rfl, place⟩ := String.Pos.Raw.isValid_iff_exists_append.mp valid
  have start : (before ++ behind).utf8ByteSize - count = before.utf8ByteSize :=
    congrArg String.Pos.Raw.byteIdx place
  have size : behind.utf8ByteSize = count := by
    rw [String.utf8ByteSize_append] at start enough
    omega
  rw [← size, tail?_append] at cut
  obtain rfl := Option.some.inj cut
  exact ⟨before, rfl, size⟩

/-- The last three bytes are the last characters. -/
theorem hasScriptExtension_append {before tail : String} (size : (Utf8.encode tail).length = 3) :
    hasScriptExtension (before ++ tail) = sameInAnyCase tail ".ks" := by
  have extension : (Utf8.encode ".ks").map asciiLower = Utf8.encode ".ks" := by decide
  have start : (Utf8.encode before ++ Utf8.encode tail).length - 3 = (Utf8.encode before).length := by
    rw [List.length_append, size, Nat.add_sub_cancel]
  rw [hasScriptExtension, Utf8.encode_append, start, List.drop_left, sameInAnyCase, extension]

theorem exists_tail_of_chars {path : String} {stem : List Char} {k s : Char}
    (same : path.toList = stem ++ ['.', k, s]) : path = String.ofList stem ++ String.ofList ['.', k, s] := by
  rw [← String.toList_inj, same, String.toList_append, String.toList_ofList, String.toList_ofList]

theorem sameInAnyCase_extension {k s : Char} (isK : k = 'k' ∨ k = 'K') (isS : s = 's' ∨ s = 'S') :
    (Utf8.encode (String.ofList ['.', k, s])).length = 3 ∧
      sameInAnyCase (String.ofList ['.', k, s]) ".ks" = true := by
  rcases isK with rfl | rfl <;> rcases isS with rfl | rfl <;> decide

theorem hasScriptExtension_iff_chars {path : String} :
    hasScriptExtension path = true ↔ ∃ stem k s, path.toList = stem ++ ['.', k, s] ∧
      (k = 'k' ∨ k = 'K') ∧ (s = 's' ∨ s = 'S') := by
  constructor
  · intro named
    rw [hasScriptExtension, beq_iff_eq, map_asciiLower_eq_iff] at named
    obtain ⟨k, s, last, isK, isS⟩ := named
    have ends := (List.take_append_drop ((Utf8.encode path).length - 3) (Utf8.encode path)).symm
    rw [last] at ends
    have isAscii : ∀ byte ∈ [0x2E, k, s], byte < 0x80 := by
      refine List.forall_mem_cons.mpr
        ⟨by decide, List.forall_mem_cons.mpr ⟨?_, List.forall_mem_singleton.mpr ?_⟩⟩
      · rcases isK with rfl | rfl <;> decide
      · rcases isS with rfl | rfl <;> decide
    obtain ⟨stem, same⟩ := Utf8.exists_stem ends isAscii
    refine ⟨stem, Char.ofNat k.toNat, Char.ofNat s.toNat, same, ?_, ?_⟩
    · rcases isK with rfl | rfl <;> decide
    · rcases isS with rfl | rfl <;> decide
  · rintro ⟨stem, k, s, same, isK, isS⟩
    obtain ⟨size, isExtension⟩ := sameInAnyCase_extension isK isS
    rw [exists_tail_of_chars same, hasScriptExtension_append size, isExtension]

theorem hasScriptExtension_eq_any_tail? (path : String) :
    hasScriptExtension path = (tail? path 3).any (sameInAnyCase · ".ks") := by
  cases cut : tail? path 3 with
  | some tail =>
    obtain ⟨before, rfl, size⟩ := exists_append_of_tail? cut
    exact hasScriptExtension_append ((Utf8.length_encode tail).trans size)
  | none =>
    refine Bool.eq_false_iff.mpr fun named => ?_
    obtain ⟨stem, k, s, same, isK, isS⟩ := hasScriptExtension_iff_chars.mp named
    have size := (sameInAnyCase_extension isK isS).1
    have found := tail?_append (String.ofList stem) (String.ofList ['.', k, s])
    rw [← Utf8.length_encode, size, ← exists_tail_of_chars same, cut] at found
    cases found

/-- A path names a script exactly when its last three characters are a point, a `k` and an `s`, the
letters in either case. The check cuts the path three bytes before its end, which can be impossible:
where the path has fewer bytes, and where a character goes over that place. Then it answers no. -/
theorem hasScriptExtension_iff (path : String) :
    (hasScriptExtension path = true ↔ ∃ stem k s, path.toList = stem ++ ['.', k, s] ∧
      (k = 'k' ∨ k = 'K') ∧ (s = 's' ∨ s = 'S')) ∧
    hasScriptExtension path = (tail? path 3).any (sameInAnyCase · ".ks") ∧
    (tail? path 3 = none ↔ path.utf8ByteSize < 3 ∨
      ¬String.Pos.Raw.IsValid path ⟨path.utf8ByteSize - 3⟩) :=
  ⟨hasScriptExtension_iff_chars, hasScriptExtension_eq_any_tail? path, tail?_eq_none_iff⟩

/-- The Kelvin sign and the long s have the letters as their other case, but not in ASCII. -/
example : hasScriptExtension "a.\u212As" = false ∧ hasScriptExtension "a.k\u017F" = false := by
  decide +kernel

end ScriptLexer
