import ScriptLexer.Proofs.NumberValue
import ScriptLexer.Proofs.ShortestDigits

namespace ScriptLexer

-- Powers are those of the core library, whatever else is imported.
attribute [local instance (high)] instPowNat

theorem newline_not_mem_numberText (whole : Digits) (fraction : Option Digits) :
    '\n' ∉ Lexeme.numberText whole fraction := by
  have absent (digits : Digits) : '\n' ∉ digits.chars :=
    fun member => absurd (digits.isDigit_of_mem _ member) (by decide)
  cases fraction with
  | none => exact absent whole
  | some fraction =>
    intro member
    rcases List.mem_append.mp member with front | back
    · exact absent whole front
    · exact absent fraction ((List.mem_cons.mp back).resolve_left (by decide))

theorem scan_numberText (whole : Digits) (fraction : Option Digits) :
    scan (String.ofList (Lexeme.numberText whole fraction)) =
      ([⟨.number, String.ofList (Lexeme.numberText whole fraction),
        some (.number (.ofDecimal (Lexeme.numberValue whole fraction))), 1⟩, .endOfFile 1], {}) := by
  let lexeme : Lexeme := .number whole fraction
  have text : Segment.sourceOf [.token lexeme] =
      (String.ofList (Lexeme.numberText whole fraction)).toList := by
    rw [String.toList_ofList]
    exact List.append_nil _
  have separated : Segment.Separated [.token lexeme] := ⟨lexeme.endsBefore_nil, trivial⟩
  refine Prod.ext ?_ (Diagnostics.ext_toList (scan_errors_of_segments text separated))
  have oneLine := List.count_eq_zero.mpr (newline_not_mem_numberText whole fraction)
  rw [scan_tokens_of_segments text separated, String.toList_ofList, oneLine]
  rfl

namespace Binary64

theorem shortest_reduced {x : Binary64} (finite : x.magnitude < infinityMagnitude) :
    x.shortest.places = 0 ∨ x.shortest.digits % 10 ≠ 0 := by
  rcases Nat.eq_zero_or_pos x.exactDigits with zero | nonzero
  · rw [shortest, if_pos zero]
    exact Or.inl rfl
  · obtain ⟨digits, s, same, isCoarsest⟩ := exists_shortest finite nonzero
    rw [same]
    rcases Nat.le_total unitPlaces s with coarse | fine
    · exact Or.inl (Nat.sub_eq_zero_of_le coarse)
    · right
      rw [onGrid, Nat.sub_eq_zero_of_le fine, Nat.pow_zero, Nat.mul_one]
      exact isCoarsest.mod_ten_ne_zero

/-- Of what is written, only the digits that were found count. -/
theorem significantDigits_onGrid_le {digits : Nat} (s : Nat) (positive : 0 < digits) :
    significantDigits (onGrid digits s).toChars ≤ (Nat.toDigits 10 digits).length := by
  have cut := (onGrid digits s).filter_toChars
  rw [Decimal.paddedDigits_eq, onGrid, toDigits_mul_pow positive] at cut
  refine significantDigits_le cut (endsRun_beq_iff.mpr ?_)
  have begins := head?_toDigits_ne_zero positive
  obtain ⟨first, others, written⟩ := List.exists_cons_of_ne_nil (@Nat.toDigits_ne_nil digits 10)
  rwa [written] at begins ⊢

/-- No text with fewer digits that count is read as the double. -/
theorem significantDigits_shortest_le {x : Binary64} (finite : x.magnitude < infinityMagnitude)
    {text : List Char} {d : Decimal} (reads : Decimal.ofChars? text = some d) (same : ofDecimal d = x) :
    significantDigits x.shortest.toChars ≤ significantDigits text := by
  have magnitude : nearestMagnitude d.digits (10 ^ d.places) = x.magnitude := by
    rw [← same, ofDecimal, magnitude_ofRatio]
  rcases Nat.eq_zero_or_pos x.exactDigits with zero | nonzero
  · have noDigits : significantDigits x.shortest.toChars = 0 := by
      rw [shortest, if_pos zero]
      decide
    rw [noDigits]
    exact Nat.zero_le _
  · obtain ⟨digits, s, found, isCoarsest⟩ := exists_shortest finite nonzero
    obtain ⟨core, zeros, cut, small⟩ := exists_lt_pow reads
    rw [cut] at magnitude
    have counts : 0 < significantDigits text := by
      refine Nat.pos_of_ne_zero fun noDigits => ?_
      rw [noDigits, Nat.pow_zero, Nat.lt_one_iff] at small
      rw [small, Nat.zero_mul, nearestMagnitude_zero (ten_pow_pos _)] at magnitude
      exact Nat.ne_of_lt (exactDigits_pos_iff.mp nonzero) magnitude
    have fewest := isCoarsest.lt_pow magnitude small counts
    have positive := Nat.pos_of_mul_pos_right (pos_of_isReadFrom nonzero isCoarsest.reads)
    rw [found]
    exact Nat.le_trans (significantDigits_onGrid_le s positive)
      ((Nat.length_toDigits_le_iff (by decide) counts).mpr fewest)

theorem toText_of_isFinite {x : Binary64} (unsigned : x.IsUnsigned) (finite : x.isInfinite = false) :
    x.toText = String.ofList x.shortest.toChars := by
  simp [toText, unsigned.isNumber, unsigned.noSign, finite]

theorem toText_of_isInfinite {x : Binary64} (unsigned : x.IsUnsigned) (infinite : x.isInfinite = true) :
    x.toText = "inf" := by
  simp [toText, unsigned.isNumber, unsigned.noSign, infinite]

/-- The decimal that is printed is read as the double that it was made from, bit by bit. -/
theorem ofDecimal_shortest {x : Binary64} (unsigned : x.IsUnsigned)
    (finite : x.magnitude < infinityMagnitude) : ofDecimal x.shortest = x :=
  (isUnsigned_ofRatio _ _).ext unsigned (magnitude_ofDecimal_shortest finite)

end Binary64

/-- The printed form of a number is plain, it scans as this number alone, bit by bit, and no text with
fewer digits that count is read as this number. -/
structure PrintsBack (x : Binary64) : Prop where
  plain : ∃ whole fraction, (Literal.number x).toText = String.ofList (Lexeme.numberText whole fraction) ∧
    IsPlain whole fraction
  scansBack : scan (Literal.number x).toText =
    ([⟨.number, (Literal.number x).toText, some (.number x), 1⟩, .endOfFile 1], {})
  fewest : ∀ (text : List Char) (d : Decimal), Decimal.ofChars? text = some d →
    Binary64.ofDecimal d = x → significantDigits (Literal.number x).toText.toList ≤ significantDigits text

theorem Binary64.IsUnsigned.printsBack {x : Binary64} (unsigned : x.IsUnsigned)
    (bounded : x.isInfinite = false) : PrintsBack x := by
  have finite := isFinite_iff_magnitude.mp ⟨unsigned.isNumber, bounded⟩
  have printed : (Literal.number x).toText = String.ofList x.shortest.toChars :=
    toText_of_isFinite unsigned bounded
  have text := x.shortest.toChars_eq_numberText
  have plain := x.shortest.isPlain_written (shortest_reduced finite)
  refine ⟨⟨_, _, ?_, plain⟩, ?_, fun other d reads same => ?_⟩
  · rw [printed, text]
  · rw [printed, text, scan_numberText, Decimal.numberValue_written, ofDecimal_shortest unsigned finite]
  · rw [printed, String.toList_ofList]
    exact significantDigits_shortest_le finite reads same

/-- Every finite number that is found prints back. Infinity is printed as a word, and that scans as a
name. -/
theorem printed_number_scans :
    (∀ token : Token, token.IsFound → token.kind = .number →
      ∃ x, token.literal = some (.number x) ∧ (x.isInfinite = false → PrintsBack x) ∧
        (x.isInfinite = true → (Literal.number x).toText = "inf")) ∧
    scan "inf" = ([⟨.identifier, "inf", none, 1⟩, .endOfFile 1], {}) := by
  refine ⟨fun token found number => ?_, by decide +kernel⟩
  obtain ⟨x, literal, -⟩ := found.exists_isRounded number
  have unsigned := found.isUnsigned literal
  exact ⟨x, literal, unsigned.printsBack, Binary64.toText_of_isInfinite unsigned⟩

/-- One tenth is no double. What is read for it is printed as one tenth all the same. A number of three
hundred and nine digits is too great for any double but infinity. -/
theorem printed_number_scans_point :
    ∃ (token huge : Token) (x y : Binary64), token ∈ (scan "00.10").1 ∧
      huge ∈ (scan (String.ofList ('2' :: List.replicate 308 '0'))).1 ∧
      token.literal = some (.number x) ∧ huge.literal = some (.number y) ∧
      (Literal.number x).toText = "0.1" ∧ PrintsBack x ∧ (Literal.number y).toText = "inf" := by
  let x : Binary64 := ⟨4591870180066957722⟩
  let token : Token := ⟨.number, "00.10", some (.number x), 1⟩
  have first : (scan "00.10").1 = [token, .endOfFile 1] := by decide +kernel
  have inFirst : token ∈ (scan "00.10").1 := first ▸ List.mem_cons_self
  let whole : Digits := ⟨'2' :: List.replicate 308 '0', List.cons_ne_nil _ _,
    List.all_eq_true.mp (by decide +kernel)⟩
  let y : Binary64 := .ofDecimal (Lexeme.numberValue whole none)
  let huge : Token := ⟨.number, String.ofList whole.chars, some (.number y), 1⟩
  have second : (scan (String.ofList whole.chars)).1 = [huge, .endOfFile 1] :=
    congrArg Prod.fst (scan_numberText whole none)
  have inSecond : huge ∈ (scan (String.ofList whole.chars)).1 := second ▸ List.mem_cons_self
  obtain ⟨numbers, -⟩ := printed_number_scans
  obtain ⟨value, literal, printsBack, -⟩ := numbers token ⟨_, inFirst⟩ rfl
  obtain rfl : x = value := Literal.number.inj (Option.some.inj literal)
  obtain ⟨hugeValue, hugeLiteral, -, infinite⟩ := numbers huge ⟨_, inSecond⟩ rfl
  obtain rfl : y = hugeValue := Literal.number.inj (Option.some.inj hugeLiteral)
  exact ⟨token, huge, x, y, inFirst, inSecond, rfl, rfl, by decide +kernel,
    printsBack (by decide +kernel), infinite (by decide +kernel)⟩

end ScriptLexer
