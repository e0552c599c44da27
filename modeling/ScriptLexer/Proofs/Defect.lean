import ScriptLexer.Proofs.Sequence

namespace ScriptLexer

namespace Utf8

namespace Sequence

/-- The bytes belong to a sequence under way and leave it incomplete. -/
def Admits (sequence : Sequence) (bytes : Bytes) : Prop :=
  ∃ (missing : Bytes) (code : Nat), missing ≠ [] ∧ sequence.Spells (bytes ++ missing) code

theorem admits_cons_iff {sequence : Sequence} {byte : UInt8} {rest : Bytes} :
    sequence.Admits (byte :: rest) ↔ (sequence.low ≤ byte ∧ byte ≤ sequence.high) ∧
      1 < sequence.missing ∧ (sequence.next byte).Admits rest := by
  constructor
  · rintro ⟨missing, code, present, spells⟩
    obtain ⟨inBounds, ⟨-, complete, -⟩ | ⟨several, later⟩⟩ := spells_cons_iff.mp spells
    · exact absurd (List.append_eq_nil_iff.mp complete).2 present
    · exact ⟨inBounds, several, missing, code, present, later⟩
  · rintro ⟨inBounds, several, missing, code, present, later⟩
    exact ⟨missing, code, present, spells_cons_iff.mpr ⟨inBounds, Or.inr ⟨several, later⟩⟩⟩

/-- Every sequence that is begun can be completed. -/
theorem admits_nil {sequence : Sequence} (present : 0 < sequence.missing)
    (bounds : sequence.low ≤ sequence.high) : sequence.Admits [] := by
  obtain ⟨bits, missing, low, high⟩ := sequence
  induction missing generalizing bits low high with
  | zero => exact absurd present (Nat.lt_irrefl 0)
  | succ missing ih =>
    by_cases single : missing = 0
    · subst single
      exact ⟨[low], _, List.cons_ne_nil _ _, .last (UInt8.le_refl low) bounds rfl⟩
    · obtain ⟨rest, code, -, spells⟩ := ih (bits * 64 + low.toNat % 64) 0x80 0xBF
        (Nat.pos_of_ne_zero single) (show (0x80 : UInt8) ≤ 0xBF by decide)
      exact ⟨low :: rest, code, List.cons_ne_nil _ _,
        .more (UInt8.le_refl low) bounds (show 1 < missing + 1 by omega) spells⟩

/-- The sequence under way goes on with the bytes, and those behind them break it off. -/
inductive BreaksOff : Sequence → Bytes → Bytes → Prop
  | ended {sequence : Sequence} : BreaksOff sequence [] []
  | outside {sequence : Sequence} {byte : UInt8} {behind : Bytes}
      (outside : ¬(sequence.low ≤ byte ∧ byte ≤ sequence.high)) :
      BreaksOff sequence [] (byte :: behind)
  | more {sequence : Sequence} {byte : UInt8} {bytes behind : Bytes}
      (inBounds : sequence.low ≤ byte ∧ byte ≤ sequence.high) (missing : 1 < sequence.missing)
      (later : BreaksOff (sequence.next byte) bytes behind) :
      BreaksOff sequence (byte :: bytes) behind

theorem spells_or_breaksOff (sequence : Sequence) (present : 0 < sequence.missing) (bytes : Bytes) :
    (∃ spelling rest code, bytes = spelling ++ rest ∧ sequence.Spells spelling code) ∨
      ∃ admitted behind, bytes = admitted ++ behind ∧ sequence.BreaksOff admitted behind := by
  induction bytes generalizing sequence with
  | nil => exact Or.inr ⟨[], [], rfl, .ended⟩
  | cons byte bytes ih =>
    by_cases inBounds : sequence.low ≤ byte ∧ byte ≤ sequence.high
    · by_cases single : sequence.missing = 1
      · exact Or.inl ⟨[byte], bytes, _, rfl, .last inBounds.1 inBounds.2 single⟩
      · have several : 1 < sequence.missing := by omega
        rcases ih (sequence.next byte) (show 0 < sequence.missing - 1 by omega) with
          ⟨spelling, rest, code, rfl, spells⟩ | ⟨admitted, behind, rfl, breaks⟩
        · exact Or.inl ⟨byte :: spelling, rest, code, rfl, .more inBounds.1 inBounds.2 several spells⟩
        · exact Or.inr ⟨byte :: admitted, behind, rfl, .more inBounds several breaks⟩
    · exact Or.inr ⟨[], byte :: bytes, rfl, .outside inBounds⟩

theorem BreaksOff.admits {sequence : Sequence} {bytes behind : Bytes}
    (breaks : sequence.BreaksOff bytes behind) (present : 0 < sequence.missing)
    (bounds : sequence.low ≤ sequence.high) : sequence.Admits bytes := by
  induction breaks with
  | ended => exact admits_nil present bounds
  | outside => exact admits_nil present bounds
  | @more sequence byte bytes behind inBounds missing later ih =>
    have left : 0 < (sequence.next byte).missing := show 0 < sequence.missing - 1 by omega
    exact admits_cons_iff.mpr ⟨inBounds, missing, ih left (show (0x80 : UInt8) ≤ 0xBF by decide)⟩

theorem BreaksOff.not_spelled {sequence : Sequence} {bytes behind spelling : Bytes} {code : Nat}
    (breaks : sequence.BreaksOff bytes behind) (spells : sequence.Spells spelling code) :
    ¬spelling <+: bytes ++ behind := by
  induction breaks generalizing spelling with
  | ended => exact fun isPrefix => spells.ne_nil (List.prefix_nil.mp isPrefix)
  | outside outside =>
    cases spelling with
    | nil => exact absurd rfl spells.ne_nil
    | cons head rest =>
      intro isPrefix
      obtain ⟨rfl, -⟩ := List.cons_prefix_cons.mp isPrefix
      exact outside (spells_cons_iff.mp spells).1
  | more inBounds missing later ih =>
    cases spelling with
    | nil => exact absurd rfl spells.ne_nil
    | cons head rest =>
      intro isPrefix
      obtain ⟨rfl, restPrefix⟩ := List.cons_prefix_cons.mp isPrefix
      obtain ⟨-, ⟨single, -, -⟩ | ⟨-, spelled⟩⟩ := spells_cons_iff.mp spells
      · exact absurd missing (single ▸ Nat.lt_irrefl 1)
      · exact ih spelled restPrefix

/-- No more bytes than those before the break belong to the sequence. -/
theorem BreaksOff.length_le {sequence : Sequence} {bytes behind more : Bytes}
    (breaks : sequence.BreaksOff bytes behind) (admits : sequence.Admits more)
    (isPrefix : more <+: bytes ++ behind) : more.length ≤ bytes.length := by
  induction breaks generalizing more with
  | ended => exact isPrefix.length_le
  | outside outside =>
    cases more with
    | nil => exact Nat.le_refl 0
    | cons head rest =>
      obtain ⟨rfl, -⟩ := List.cons_prefix_cons.mp isPrefix
      exact absurd (admits_cons_iff.mp admits).1 outside
  | more inBounds missing later ih =>
    cases more with
    | nil => exact Nat.zero_le _
    | cons head rest =>
      obtain ⟨rfl, restPrefix⟩ := List.cons_prefix_cons.mp isPrefix
      exact Nat.succ_le_succ (ih (admits_cons_iff.mp admits).2.2 restPrefix)

end Sequence

/-- The bytes begin the encoding of a character, and more bytes of it are to come. -/
def IsBeginning (bytes : Bytes) : Prop :=
  bytes ≠ [] ∧ ∃ (c : Char) (missing : Bytes), missing ≠ [] ∧ String.utf8EncodeChar c = bytes ++ missing

/-- No encoding of a character stands where the bytes stand. They are the longest beginning of one
that stands there or, if there is none, a single byte. -/
structure IsDefect (bytes behind : Bytes) : Prop where
  not_encoded : ∀ c, ¬String.utf8EncodeChar c <+: bytes ++ behind
  form : IsBeginning bytes ∨ ∃ byte, bytes = [byte]
  longest : ∀ more, IsBeginning more → more <+: bytes ++ behind → more.length ≤ bytes.length

theorem isBeginning_cons_iff {first : UInt8} {others : Bytes} :
    IsBeginning (first :: others) ↔
      ∃ sequence, Sequence.ofLead? first = some sequence ∧ sequence.Admits others := by
  constructor
  · rintro ⟨-, c, missing, present, encoding⟩
    rcases encoding_cases encoding with ⟨-, complete, -⟩ | ⟨sequence, begins, spells⟩
    · exact absurd (List.append_eq_nil_iff.mp complete).2 present
    · exact ⟨sequence, begins, missing, _, present, spells⟩
  · rintro ⟨sequence, begins, missing, code, present, spells⟩
    exact ⟨List.cons_ne_nil _ _, _, missing, present, (spells.encodes begins).2⟩

/-- A byte above ASCII is the first of an encoding only if it is a lead. -/
theorem exists_lead_of_prefix {c : Char} {first : UInt8} {behind : Bytes} (above : ¬first < 0x80)
    (isPrefix : String.utf8EncodeChar c <+: first :: behind) :
    ∃ sequence spelling, Sequence.ofLead? first = some sequence ∧
      sequence.Spells spelling c.val.toNat ∧ spelling <+: behind := by
  obtain ⟨lead, spelling, encoding⟩ := exists_encoding c
  rw [encoding] at isPrefix
  obtain ⟨rfl, others⟩ := List.cons_prefix_cons.mp isPrefix
  rcases encoding_cases encoding with ⟨ascii, -, -⟩ | ⟨sequence, begins, spells⟩
  · exact absurd ascii above
  · exact ⟨sequence, spelling, begins, spells, others⟩

theorem isDefect_of_breaksOff {lead : UInt8} {sequence : Sequence} {bytes behind : Bytes}
    (begins : Sequence.ofLead? lead = some sequence) (breaks : sequence.BreaksOff bytes behind) :
    IsDefect (lead :: bytes) behind := by
  obtain ⟨leadAbove, present, -⟩ := bounds_of_ofLead? begins
  have above : ¬lead < 0x80 := fun ascii =>
    absurd (UInt8.lt_iff_toNat_lt.mp ascii) (Nat.not_lt.mpr leadAbove)
  have admits := breaks.admits present (low_le_high_of_ofLead? begins)
  refine ⟨fun c isPrefix => ?_, Or.inl (isBeginning_cons_iff.mpr ⟨sequence, begins, admits⟩),
    fun more isBeginning isPrefix => ?_⟩
  · obtain ⟨same, spelling, again, spells, others⟩ := exists_lead_of_prefix above isPrefix
    obtain rfl := Option.some.inj (again.symm.trans begins)
    exact breaks.not_spelled spells others
  · cases more with
    | nil => exact Nat.zero_le _
    | cons first others =>
      obtain ⟨rfl, othersPrefix⟩ := List.cons_prefix_cons.mp isPrefix
      obtain ⟨same, again, othersAdmitted⟩ := isBeginning_cons_iff.mp isBeginning
      obtain rfl := Option.some.inj (again.symm.trans begins)
      exact Nat.succ_le_succ (breaks.length_le othersAdmitted othersPrefix)

theorem isDefect_of_stray {byte : UInt8} (above : ¬byte < 0x80)
    (stray : Sequence.ofLead? byte = none) (behind : Bytes) : IsDefect [byte] behind := by
  refine ⟨fun c isPrefix => ?_, Or.inr ⟨byte, rfl⟩, fun more isBeginning isPrefix => ?_⟩
  · obtain ⟨sequence, -, begins, -⟩ := exists_lead_of_prefix above isPrefix
    cases begins.symm.trans stray
  · cases more with
    | nil => exact Nat.zero_le _
    | cons first others =>
      obtain ⟨rfl, -⟩ := List.cons_prefix_cons.mp isPrefix
      obtain ⟨sequence, begins, -⟩ := isBeginning_cons_iff.mp isBeginning
      cases begins.symm.trans stray

theorem IsBeginning.above_ascii {bytes : Bytes} (isBeginning : IsBeginning bytes) :
    ∀ byte ∈ bytes, ¬byte < 0x80 := by
  obtain ⟨present, c, missing, more, encoding⟩ := isBeginning
  intro byte member ascii
  have whole := (encoding_of_ascii_mem ascii (encoding ▸ List.mem_append_left missing member)).1
  have length := congrArg List.length (encoding.symm.trans whole)
  have positive := List.length_pos_iff.mpr present
  have morePositive := List.length_pos_iff.mpr more
  rw [List.length_append, List.length_singleton] at length
  omega

theorem IsDefect.above_ascii {bytes behind : Bytes} (isDefect : IsDefect bytes behind) :
    ∀ byte ∈ bytes, ¬byte < 0x80 := by
  rcases isDefect.form with isBeginning | ⟨byte, rfl⟩
  · exact isBeginning.above_ascii
  · refine List.forall_mem_singleton.mpr fun ascii => ?_
    exact isDefect.not_encoded (Char.ofNat byte.toNat) (encoding_ascii ascii ▸ List.prefix_append ..)

theorem IsDefect.ne_nil {bytes behind : Bytes} (isDefect : IsDefect bytes behind) : bytes ≠ [] := by
  rcases isDefect.form with isBeginning | ⟨byte, rfl⟩
  · exact isBeginning.1
  · exact List.cons_ne_nil _ _

/-- The bytes that stand in one place are a defect in one way. -/
theorem IsDefect.unique {bytes others behind more : Bytes} (isDefect : IsDefect bytes behind)
    (otherDefect : IsDefect others more) (same : bytes ++ behind = others ++ more) : bytes = others := by
  have length_le {run other after afterOther : Bytes} (runs : IsDefect run after)
      (otherRuns : IsDefect other afterOther) (together : run ++ after = other ++ afterOther) :
      run.length ≤ other.length := by
    rcases runs.form with isBeginning | ⟨byte, rfl⟩
    · exact otherRuns.longest run isBeginning (together ▸ List.prefix_append run after)
    · exact List.length_pos_iff.mpr otherRuns.ne_nil
  have sameLength := Nat.le_antisymm (length_le isDefect otherDefect same)
    (length_le otherDefect isDefect same.symm)
  exact List.append_inj_left same sameLength

/-- What stands in front of a byte ends before it, or goes over it. -/
theorem prefix_or_mem {more bytes behind : Bytes} {byte : UInt8}
    (isPrefix : more <+: bytes ++ byte :: behind) : more <+: bytes ∨ byte ∈ more := by
  have before : bytes ++ [byte] <+: bytes ++ byte :: behind := ⟨behind, by simp⟩
  rcases List.prefix_or_prefix_of_prefix isPrefix before with shorter | ⟨rest, rfl⟩
  · rcases List.prefix_concat_iff.mp shorter with rfl | inside
    · exact Or.inr (List.mem_append_right _ (List.mem_singleton_self byte))
    · exact Or.inl inside
  · exact Or.inr (List.mem_append_left _ (List.mem_append_right _ (List.mem_singleton_self byte)))

/-- A byte of ASCII behind a defect changes it as little as the end does. -/
theorem IsDefect.append_ascii {bytes behind : Bytes} {byte : UInt8} (isDefect : IsDefect bytes behind)
    (ascii : byte < 0x80) (rest : Bytes) : IsDefect bytes (behind ++ byte :: rest) := by
  refine ⟨fun c isPrefix => ?_, isDefect.form, fun more isBeginning isPrefix => ?_⟩
  · rw [← List.append_assoc] at isPrefix
    rcases prefix_or_mem isPrefix with before | member
    · exact isDefect.not_encoded c before
    · -- Then the defect would begin with this byte.
      obtain ⟨first, others, cut⟩ := List.exists_cons_of_ne_nil isDefect.ne_nil
      rw [(encoding_of_ascii_mem ascii member).1, cut] at isPrefix
      obtain ⟨rfl, -⟩ := List.cons_prefix_cons.mp isPrefix
      exact isDefect.above_ascii byte (cut ▸ List.mem_cons_self ..) ascii
  · rw [← List.append_assoc] at isPrefix
    rcases prefix_or_mem isPrefix with before | member
    · exact isDefect.longest more isBeginning before
    · exact absurd ascii (isBeginning.above_ascii byte member)

end Utf8

end ScriptLexer
