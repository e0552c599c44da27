import ScriptLexer.Utf8

namespace ScriptLexer

namespace Utf8

/-- The bytes complete the sequence under way, and this is the code point. -/
inductive Sequence.Spells : Sequence → Bytes → Nat → Prop
  | last {sequence : Sequence} {byte : UInt8} (low : sequence.low ≤ byte) (high : byte ≤ sequence.high)
      (missing : sequence.missing = 1) :
      Spells sequence [byte] (sequence.bits * 64 + byte.toNat % 64)
  | more {sequence : Sequence} {byte : UInt8} {rest : Bytes} {code : Nat} (low : sequence.low ≤ byte)
      (high : byte ≤ sequence.high) (missing : 1 < sequence.missing)
      (later : Spells ⟨sequence.bits * 64 + byte.toNat % 64, sequence.missing - 1, 0x80, 0xBF⟩ rest code) :
      Spells sequence (byte :: rest) code

theorem ofLead?_two {lead : UInt8} (low : 0xC2 ≤ lead.toNat) (high : lead.toNat ≤ 0xDF) :
    Sequence.ofLead? lead = some ⟨lead.toNat - 0xC0, 1, 0x80, 0xBF⟩ := by
  simp only [Sequence.ofLead?, UInt8.le_iff_toNat_le, UInt8.toNat_ofNat]
  rw [if_pos (by omega)]

/-- Three bytes begin with bounds that are narrow for two leads. -/
theorem ofLead?_three {lead : UInt8} (leadLow : 0xE0 ≤ lead.toNat) (leadHigh : lead.toNat ≤ 0xEF) :
    ∃ low high : UInt8, Sequence.ofLead? lead = some ⟨lead.toNat - 0xE0, 2, low, high⟩ ∧
      (lead.toNat = 0xE0 ∧ low.toNat = 0xA0 ∨ lead.toNat ≠ 0xE0 ∧ low.toNat = 0x80) ∧
      (lead.toNat = 0xED ∧ high.toNat = 0x9F ∨ lead.toNat ≠ 0xED ∧ high.toNat = 0xBF) := by
  simp only [Sequence.ofLead?, UInt8.le_iff_toNat_le, ← UInt8.toNat_inj, UInt8.toNat_ofNat]
  rw [if_neg (by omega)]
  by_cases first : lead.toNat = 0xE0
  · exact ⟨0xA0, 0xBF, by simp [first], by simp [first], by simp [first]⟩
  by_cases surrogate : lead.toNat = 0xED
  · exact ⟨0x80, 0x9F, by simp [surrogate], by simp [surrogate], by simp [surrogate]⟩
  have between : 0xE1 ≤ lead.toNat := by omega
  exact ⟨0x80, 0xBF, by simp [first, surrogate, between, leadHigh], by simp [first], by simp [surrogate]⟩

/-- So do four. -/
theorem ofLead?_four {lead : UInt8} (leadLow : 0xF0 ≤ lead.toNat) (leadHigh : lead.toNat ≤ 0xF4) :
    ∃ low high : UInt8, Sequence.ofLead? lead = some ⟨lead.toNat - 0xF0, 3, low, high⟩ ∧
      (lead.toNat = 0xF0 ∧ low.toNat = 0x90 ∨ lead.toNat ≠ 0xF0 ∧ low.toNat = 0x80) ∧
      (lead.toNat = 0xF4 ∧ high.toNat = 0x8F ∨ lead.toNat ≠ 0xF4 ∧ high.toNat = 0xBF) := by
  simp only [Sequence.ofLead?, UInt8.le_iff_toNat_le, ← UInt8.toNat_inj, UInt8.toNat_ofNat]
  rw [if_neg (by omega), if_neg (by omega), if_neg (by omega), if_neg (by omega)]
  by_cases first : lead.toNat = 0xF0
  · exact ⟨0x90, 0xBF, by simp [first], by simp [first], by simp [first]⟩
  by_cases last : lead.toNat = 0xF4
  · exact ⟨0x80, 0x8F, by simp [last], by simp [last], by simp [last]⟩
  have between : 0xF1 ≤ lead.toNat := by omega
  have below : lead.toNat ≤ 0xF3 := by omega
  exact ⟨0x80, 0xBF, by simp [first, between, below], by simp [first], by simp [last]⟩

theorem lead_cases {lead : UInt8} {sequence : Sequence} (begins : Sequence.ofLead? lead = some sequence) :
    (0xC2 ≤ lead.toNat ∧ lead.toNat ≤ 0xDF) ∨ (0xE0 ≤ lead.toNat ∧ lead.toNat ≤ 0xEF) ∨
      (0xF0 ≤ lead.toNat ∧ lead.toNat ≤ 0xF4) := by
  refine Decidable.byContradiction fun outside => ?_
  simp only [Sequence.ofLead?, UInt8.le_iff_toNat_le, ← UInt8.toNat_inj, UInt8.toNat_ofNat] at begins
  rw [if_neg (by omega), if_neg (by omega), if_neg (by omega), if_neg (by omega), if_neg (by omega),
    if_neg (by omega), if_neg (by omega)] at begins
  cases begins

/-- What follows a lead is at least one byte, and it is above ASCII. -/
theorem bounds_of_ofLead? {lead : UInt8} {sequence : Sequence}
    (begins : Sequence.ofLead? lead = some sequence) :
    0x80 ≤ lead.toNat ∧ 0 < sequence.missing ∧ 0x80 ≤ sequence.low.toNat := by
  rcases lead_cases begins with ⟨leadLow, leadHigh⟩ | ⟨leadLow, leadHigh⟩ | ⟨leadLow, leadHigh⟩
  · obtain rfl := Option.some.inj ((ofLead?_two leadLow leadHigh).symm.trans begins)
    exact ⟨by omega, Nat.one_pos, Nat.le_refl 0x80⟩
  · obtain ⟨low, high, bounds, lowest, -⟩ := ofLead?_three leadLow leadHigh
    obtain rfl := Option.some.inj (bounds.symm.trans begins)
    have above : 0x80 ≤ low.toNat := by omega
    exact ⟨by omega, Nat.two_pos, above⟩
  · obtain ⟨low, high, bounds, lowest, -⟩ := ofLead?_four leadLow leadHigh
    obtain rfl := Option.some.inj (bounds.symm.trans begins)
    have above : 0x80 ≤ low.toNat := by omega
    exact ⟨by omega, Nat.succ_pos 2, above⟩

theorem Sequence.Spells.above_ascii {sequence : Sequence} {bytes : Bytes} {code : Nat}
    (spells : sequence.Spells bytes code) (bound : 0x80 ≤ sequence.low.toNat) :
    ∀ byte ∈ bytes, 0x80 ≤ byte.toNat := by
  induction spells with
  | last low high missing =>
    exact List.forall_mem_singleton.mpr (Nat.le_trans bound (UInt8.le_iff_toNat_le.mp low))
  | more low high missing later ih =>
    refine List.forall_mem_cons.mpr ⟨Nat.le_trans bound (UInt8.le_iff_toNat_le.mp low), ?_⟩
    exact ih (Nat.le_refl 0x80)

theorem low_le_high_of_ofLead? {lead : UInt8} {sequence : Sequence}
    (begins : Sequence.ofLead? lead = some sequence) : sequence.low ≤ sequence.high := by
  rw [UInt8.le_iff_toNat_le]
  rcases lead_cases begins with ⟨leadLow, leadHigh⟩ | ⟨leadLow, leadHigh⟩ | ⟨leadLow, leadHigh⟩
  · obtain rfl := Option.some.inj ((ofLead?_two leadLow leadHigh).symm.trans begins)
    exact show 0x80 ≤ 0xBF by decide
  · obtain ⟨low, high, bounds, lowest, highest⟩ := ofLead?_three leadLow leadHigh
    obtain rfl := Option.some.inj (bounds.symm.trans begins)
    exact show low.toNat ≤ high.toNat by omega
  · obtain ⟨low, high, bounds, lowest, highest⟩ := ofLead?_four leadLow leadHigh
    obtain rfl := Option.some.inj (bounds.symm.trans begins)
    exact show low.toNat ≤ high.toNat by omega

theorem toNat_ofNat {code : Nat} (valid : code.isValidChar) : (Char.ofNat code).val.toNat = code := by
  rw [Char.ofNat, dif_pos valid]
  rfl

theorem utf8EncodeChar_one {code : Nat} (low : code ≤ 0x7F) :
    String.utf8EncodeChar (Char.ofNat code) = [UInt8.ofNat code] := by
  have valid : code.isValidChar := Or.inl (by omega)
  simp only [String.utf8EncodeChar, toNat_ofNat valid]
  rw [if_pos low]

theorem utf8EncodeChar_two {lead second : UInt8} {code : Nat}
    (value : code = (lead.toNat - 0xC0) * 64 + second.toNat % 64)
    (leadLow : 0xC2 ≤ lead.toNat) (leadHigh : lead.toNat ≤ 0xDF)
    (low : 0x80 ≤ second.toNat) (high : second.toNat ≤ 0xBF) :
    String.utf8EncodeChar (Char.ofNat code) = [lead, second] := by
  have valid : code.isValidChar := Or.inl (by omega)
  simp only [String.utf8EncodeChar, toNat_ofNat valid]
  rw [if_neg (by omega), if_pos (by omega)]
  simp only [List.cons.injEq, ← UInt8.toNat_inj, UInt8.toNat_ofNat', and_true]
  omega

theorem utf8EncodeChar_three {lead second third : UInt8} {code : Nat}
    (value : code = ((lead.toNat - 0xE0) * 64 + second.toNat % 64) * 64 + third.toNat % 64)
    (leadLow : 0xE0 ≤ lead.toNat) (leadHigh : lead.toNat ≤ 0xEF)
    (secondLow : 0x80 ≤ second.toNat) (secondHigh : second.toNat ≤ 0xBF)
    (thirdLow : 0x80 ≤ third.toNat) (thirdHigh : third.toNat ≤ 0xBF)
    (long : 0x800 ≤ code) (valid : code.isValidChar) :
    String.utf8EncodeChar (Char.ofNat code) = [lead, second, third] := by
  simp only [String.utf8EncodeChar, toNat_ofNat valid]
  rw [if_neg (by omega), if_neg (by omega), if_pos (by omega)]
  simp only [List.cons.injEq, ← UInt8.toNat_inj, UInt8.toNat_ofNat', and_true]
  omega

theorem utf8EncodeChar_four {lead second third fourth : UInt8} {code : Nat}
    (value : code = (((lead.toNat - 0xF0) * 64 + second.toNat % 64) * 64 + third.toNat % 64) * 64 +
      fourth.toNat % 64)
    (leadLow : 0xF0 ≤ lead.toNat) (leadHigh : lead.toNat ≤ 0xF4)
    (secondLow : 0x80 ≤ second.toNat) (secondHigh : second.toNat ≤ 0xBF)
    (thirdLow : 0x80 ≤ third.toNat) (thirdHigh : third.toNat ≤ 0xBF)
    (fourthLow : 0x80 ≤ fourth.toNat) (fourthHigh : fourth.toNat ≤ 0xBF)
    (long : 0x10000 ≤ code) (valid : code.isValidChar) :
    String.utf8EncodeChar (Char.ofNat code) = [lead, second, third, fourth] := by
  simp only [String.utf8EncodeChar, toNat_ofNat valid]
  rw [if_neg (by omega), if_neg (by omega), if_neg (by omega)]
  simp only [List.cons.injEq, ← UInt8.toNat_inj, UInt8.toNat_ofNat', and_true]
  omega

/-- A last byte that is bound by nothing but its form. -/
theorem Sequence.Spells.tail {bits code : Nat} {rest : Bytes}
    (spells : Spells ⟨bits, 1, 0x80, 0xBF⟩ rest code) :
    ∃ byte : UInt8, rest = [byte] ∧ 0x80 ≤ byte.toNat ∧ byte.toNat ≤ 0xBF ∧
      code = bits * 64 + byte.toNat % 64 := by
  cases spells with
  | @last _ byte lower upper missing =>
    exact ⟨byte, rfl, UInt8.le_iff_toNat_le.mp lower, UInt8.le_iff_toNat_le.mp upper, rfl⟩
  | more lower upper missing later => exact absurd missing (Nat.lt_irrefl 1)

theorem Sequence.Spells.several {bits missing code : Nat} {low high : UInt8} {bytes : Bytes}
    (spells : Spells ⟨bits, missing + 2, low, high⟩ bytes code) :
    ∃ (byte : UInt8) (rest : Bytes), bytes = byte :: rest ∧ low.toNat ≤ byte.toNat ∧
      byte.toNat ≤ high.toNat ∧
      Spells ⟨bits * 64 + byte.toNat % 64, missing + 1, 0x80, 0xBF⟩ rest code := by
  cases spells with
  | last lower upper single => cases single
  | @more _ byte rest _ lower upper several later =>
    exact ⟨byte, rest, rfl, UInt8.le_iff_toNat_le.mp lower, UInt8.le_iff_toNat_le.mp upper, later⟩

/-- What a sequence spells is a character, and the bytes are its encoding. -/
theorem Sequence.Spells.encodes {lead : UInt8} {sequence : Sequence} {rest : Bytes} {code : Nat}
    (begins : Sequence.ofLead? lead = some sequence) (spells : sequence.Spells rest code) :
    code.isValidChar ∧ String.utf8EncodeChar (Char.ofNat code) = lead :: rest := by
  rcases lead_cases begins with ⟨leadLow, leadHigh⟩ | ⟨leadLow, leadHigh⟩ | ⟨leadLow, leadHigh⟩
  · obtain rfl := Option.some.inj ((ofLead?_two leadLow leadHigh).symm.trans begins)
    obtain ⟨second, rfl, low, high, value⟩ := spells.tail
    refine ⟨Or.inl ?_, utf8EncodeChar_two value leadLow leadHigh low high⟩
    omega
  · obtain ⟨low, high, bounds, lowest, highest⟩ := ofLead?_three leadLow leadHigh
    obtain rfl := Option.some.inj (bounds.symm.trans begins)
    obtain ⟨second, rest, rfl, secondLow, secondHigh, later⟩ := spells.several
    obtain ⟨third, rfl, thirdLow, thirdHigh, value⟩ := later.tail
    -- The narrow bounds keep out what two bytes can spell, and the surrogates.
    have long : 0x800 ≤ code := by omega
    have valid : code.isValidChar := by
      unfold Nat.isValidChar
      omega
    exact ⟨valid, utf8EncodeChar_three value leadLow leadHigh (by omega) (by omega) thirdLow thirdHigh
      long valid⟩
  · obtain ⟨low, high, bounds, lowest, highest⟩ := ofLead?_four leadLow leadHigh
    obtain rfl := Option.some.inj (bounds.symm.trans begins)
    obtain ⟨second, rest, rfl, secondLow, secondHigh, later⟩ := spells.several
    obtain ⟨third, rest, rfl, thirdLower, thirdUpper, last⟩ := later.several
    obtain ⟨fourth, rfl, fourthLow, fourthHigh, value⟩ := last.tail
    have thirdLow : 0x80 ≤ third.toNat := thirdLower
    have thirdHigh : third.toNat ≤ 0xBF := thirdUpper
    have long : 0x10000 ≤ code := by omega
    have valid : code.isValidChar := by
      unfold Nat.isValidChar
      omega
    exact ⟨valid, utf8EncodeChar_four value leadLow leadHigh (by omega) (by omega) thirdLow thirdHigh
      fourthLow fourthHigh long valid⟩

theorem exists_byte {value : Nat} (small : value < 256) : ∃ byte : UInt8, byte.toNat = value :=
  ⟨UInt8.ofNat value, by rw [UInt8.toNat_ofNat', Nat.mod_eq_of_lt small]⟩

theorem Sequence.spells_tail {bits code : Nat} {byte : UInt8} (low : 0x80 ≤ byte.toNat)
    (high : byte.toNat ≤ 0xBF) (value : code = bits * 64 + byte.toNat % 64) :
    Spells ⟨bits, 1, 0x80, 0xBF⟩ [byte] code := by
  rw [value]
  exact .last (UInt8.le_iff_toNat_le.mpr low) (UInt8.le_iff_toNat_le.mpr high) rfl

theorem Sequence.spells_several {bits missing code : Nat} {low high byte : UInt8} {rest : Bytes}
    (lower : low.toNat ≤ byte.toNat) (upper : byte.toNat ≤ high.toNat)
    (later : Spells ⟨bits * 64 + byte.toNat % 64, missing + 1, 0x80, 0xBF⟩ rest code) :
    Spells ⟨bits, missing + 2, low, high⟩ (byte :: rest) code :=
  .more (UInt8.le_iff_toNat_le.mpr lower) (UInt8.le_iff_toNat_le.mpr upper)
    (show 1 < missing + 2 by omega) later

/-- Every character above ASCII is spelled by some sequence. -/
theorem exists_spells {code : Nat} (valid : code.isValidChar) (above : 0x7F < code) :
    ∃ (lead : UInt8) (sequence : Sequence) (rest : Bytes),
      Sequence.ofLead? lead = some sequence ∧ sequence.Spells rest code := by
  unfold Nat.isValidChar at valid
  obtain ⟨last, lastValue⟩ := exists_byte (show code % 64 + 0x80 < 256 by omega)
  by_cases two : code ≤ 0x7FF
  · obtain ⟨lead, leadValue⟩ := exists_byte (show code / 64 + 0xC0 < 256 by omega)
    exact ⟨lead, _, [last], ofLead?_two (by omega) (by omega),
      Sequence.spells_tail (by omega) (by omega) (by omega)⟩
  obtain ⟨third, thirdValue⟩ := exists_byte (show code / 64 % 64 + 0x80 < 256 by omega)
  by_cases three : code ≤ 0xFFFF
  · obtain ⟨lead, leadValue⟩ := exists_byte (show code / 4096 + 0xE0 < 256 by omega)
    obtain ⟨low, high, bounds, lowest, highest⟩ :=
      ofLead?_three (show 0xE0 ≤ lead.toNat by omega) (by omega)
    exact ⟨lead, _, [third, last], bounds, Sequence.spells_several (by omega) (by omega)
      (Sequence.spells_tail (by omega) (by omega) (by omega))⟩
  obtain ⟨second, secondValue⟩ := exists_byte (show code / 4096 % 64 + 0x80 < 256 by omega)
  obtain ⟨lead, leadValue⟩ := exists_byte (show code / 262144 + 0xF0 < 256 by omega)
  obtain ⟨low, high, bounds, lowest, highest⟩ :=
    ofLead?_four (show 0xF0 ≤ lead.toNat by omega) (by omega)
  have thirdLow : (0x80 : UInt8).toNat ≤ third.toNat := show 0x80 ≤ third.toNat by omega
  have thirdHigh : third.toNat ≤ (0xBF : UInt8).toNat := show third.toNat ≤ 0xBF by omega
  exact ⟨lead, _, [second, third, last], bounds, Sequence.spells_several (by omega) (by omega)
    (Sequence.spells_several thirdLow thirdHigh
      (Sequence.spells_tail (by omega) (by omega) (by omega)))⟩

/-- The first byte of an encoding tells whether the character is one of ASCII. -/
theorem encoding_cases {c : Char} {first : UInt8} {others : Bytes}
    (encoding : String.utf8EncodeChar c = first :: others) :
    (first < 0x80 ∧ others = [] ∧ Char.ofNat first.toNat = c) ∨
      ∃ sequence, Sequence.ofLead? first = some sequence ∧ sequence.Spells others c.val.toNat := by
  have same : Char.ofNat c.val.toNat = c := Char.ofNat_toNat c
  by_cases ascii : c.val.toNat ≤ 0x7F
  · obtain ⟨byte, value⟩ := exists_byte (show c.val.toNat < 256 by omega)
    have single := utf8EncodeChar_one ascii
    rw [same, encoding, ← value, UInt8.ofNat_toNat] at single
    obtain ⟨rfl, rfl⟩ := List.cons.inj single
    have low : first < 0x80 := UInt8.lt_iff_toNat_lt.mpr (show first.toNat < 0x80 by omega)
    exact Or.inl ⟨low, rfl, by rw [value, same]⟩
  · obtain ⟨lead, sequence, rest, begins, spells⟩ := exists_spells c.valid (Nat.lt_of_not_le ascii)
    have whole := (spells.encodes begins).2
    rw [same, encoding] at whole
    obtain ⟨rfl, rfl⟩ := List.cons.inj whole
    exact Or.inr ⟨sequence, begins, spells⟩

theorem exists_encoding (c : Char) : ∃ first others, String.utf8EncodeChar c = first :: others :=
  List.exists_cons_of_ne_nil String.utf8EncodeChar_ne_nil

theorem encoding_ascii {byte : UInt8} (ascii : byte < 0x80) :
    String.utf8EncodeChar (Char.ofNat byte.toNat) = [byte] := by
  rw [utf8EncodeChar_one (Nat.le_of_lt_succ (UInt8.lt_iff_toNat_lt.mp ascii)), UInt8.ofNat_toNat]

/-- A byte of ASCII is the encoding of a character and no part of another one. -/
theorem encoding_of_ascii_mem {c : Char} {byte : UInt8} (ascii : byte < 0x80)
    (member : byte ∈ String.utf8EncodeChar c) :
    String.utf8EncodeChar c = [byte] ∧ Char.ofNat byte.toNat = c := by
  obtain ⟨first, others, encoding⟩ := exists_encoding c
  rw [encoding] at member
  rcases encoding_cases encoding with ⟨-, rfl, same⟩ | ⟨sequence, begins, spells⟩
  · obtain rfl := List.mem_singleton.mp member
    exact ⟨encoding, same⟩
  · obtain ⟨firstAbove, -, bound⟩ := bounds_of_ofLead? begins
    have above : ∀ byte ∈ first :: others, 0x80 ≤ byte.toNat :=
      List.forall_mem_cons.mpr ⟨firstAbove, spells.above_ascii bound⟩
    exact absurd (UInt8.lt_iff_toNat_lt.mp ascii) (Nat.not_lt.mpr (above byte member))

namespace Sequence

/-- The sequence under way once a byte of it has come. -/
def next (sequence : Sequence) (byte : UInt8) : Sequence :=
  ⟨sequence.bits * 64 + byte.toNat % 64, sequence.missing - 1, 0x80, 0xBF⟩

theorem spells_cons_iff {sequence : Sequence} {byte : UInt8} {rest : Bytes} {code : Nat} :
    sequence.Spells (byte :: rest) code ↔ (sequence.low ≤ byte ∧ byte ≤ sequence.high) ∧
      (sequence.missing = 1 ∧ rest = [] ∧ code = sequence.bits * 64 + byte.toNat % 64 ∨
        1 < sequence.missing ∧ (sequence.next byte).Spells rest code) := by
  constructor
  · intro spells
    cases spells with
    | last low high single => exact ⟨⟨low, high⟩, Or.inl ⟨single, rfl, rfl⟩⟩
    | more low high several later => exact ⟨⟨low, high⟩, Or.inr ⟨several, later⟩⟩
  · rintro ⟨⟨low, high⟩, ⟨single, rfl, rfl⟩ | ⟨several, later⟩⟩
    · exact .last low high single
    · exact .more low high several later

theorem Spells.ne_nil {sequence : Sequence} {bytes : Bytes} {code : Nat}
    (spells : sequence.Spells bytes code) : bytes ≠ [] := by
  cases spells <;> exact List.cons_ne_nil _ _

/-- The bytes that come complete a sequence in one way. -/
theorem Spells.unique {sequence : Sequence} {bytes others behind more : Bytes} {code other : Nat}
    (spells : sequence.Spells bytes code) (otherSpells : sequence.Spells others other)
    (same : bytes ++ behind = others ++ more) : code = other := by
  induction spells generalizing others with
  | last low high single =>
    cases others with
    | nil => exact absurd rfl otherSpells.ne_nil
    | cons byte rest =>
      obtain ⟨rfl, -⟩ := List.cons.inj same
      obtain ⟨-, ⟨-, -, value⟩ | ⟨several, -⟩⟩ := spells_cons_iff.mp otherSpells
      · exact value.symm
      · exact absurd several (single ▸ Nat.lt_irrefl 1)
  | more low high several later ih =>
    cases others with
    | nil => exact absurd rfl otherSpells.ne_nil
    | cons byte rest =>
      obtain ⟨rfl, sameRest⟩ := List.cons.inj same
      obtain ⟨-, ⟨single, -, -⟩ | ⟨-, otherLater⟩⟩ := spells_cons_iff.mp otherSpells
      · exact absurd several (single ▸ Nat.lt_irrefl 1)
      · exact ih otherLater sameRest

end Sequence

/-- No encoding is the beginning of another one. -/
theorem eq_of_encoding_append {c other : Char} {behind more : Bytes}
    (same : String.utf8EncodeChar c ++ behind = String.utf8EncodeChar other ++ more) : c = other := by
  obtain ⟨first, others, encoding⟩ := exists_encoding c
  obtain ⟨_, otherOthers, otherEncoding⟩ := exists_encoding other
  rw [encoding, otherEncoding] at same
  obtain ⟨rfl, sameOthers⟩ := List.cons.inj same
  rcases encoding_cases encoding with ⟨ascii, -, isChar⟩ | ⟨sequence, begins, spells⟩
  · have member : first ∈ String.utf8EncodeChar other := otherEncoding ▸ List.mem_cons_self ..
    exact isChar.symm.trans (encoding_of_ascii_mem ascii member).2
  · rcases encoding_cases otherEncoding with ⟨ascii, -, -⟩ | ⟨_, again, otherSpells⟩
    · have above := (bounds_of_ofLead? begins).1
      exact absurd (UInt8.lt_iff_toNat_lt.mp ascii) (Nat.not_lt.mpr above)
    · obtain rfl := Option.some.inj (again.symm.trans begins)
      have codes : c.val.toNat = other.val.toNat := spells.unique otherSpells sameOthers
      exact Char.ext (UInt32.toNat_inj.mp codes)

end Utf8

end ScriptLexer
