import ScriptLexer.Proofs.Found
import ScriptLexer.Proofs.Pull

namespace ScriptLexer

/-- The part of a text between two places counted in bytes. There is none if the places are the wrong
way round, or if one of them lies inside a character or behind the end. -/
def sliceBytes? (text : String) (start stop : Nat) : Option String :=
  if places : String.Pos.Raw.IsValid text ⟨start⟩ ∧ String.Pos.Raw.IsValid text ⟨stop⟩ ∧ start ≤ stop then
    some (String.extract ⟨⟨start⟩, places.1⟩ ⟨⟨stop⟩, places.2.1⟩)
  else none

theorem isValid_append (before behind : String) :
    String.Pos.Raw.IsValid (before ++ behind) ⟨before.utf8ByteSize⟩ :=
  String.Pos.Raw.isValid_iff_exists_append.mpr ⟨before, behind, rfl, rfl⟩

theorem sliceBytes?_append (before middle behind : String) :
    sliceBytes? (before ++ (middle ++ behind)) before.utf8ByteSize
      (before.utf8ByteSize + middle.utf8ByteSize) = some middle := by
  have start := isValid_append before (middle ++ behind)
  have stop := isValid_append (before ++ middle) behind
  rw [String.append_assoc, String.utf8ByteSize_append] at stop
  have bytes : (before ++ (middle ++ behind)).toByteArray.extract before.utf8ByteSize
      (before.utf8ByteSize + middle.utf8ByteSize) = middle.toByteArray := by
    rw [String.toByteArray_append, String.toByteArray_append]
    calc _ = (middle.toByteArray ++ behind.toByteArray).extract 0 middle.utf8ByteSize :=
          ByteArray.extract_append_size_add' String.size_toByteArray.symm
      _ = middle.toByteArray := ByteArray.extract_append_eq_left String.size_toByteArray.symm
  rw [sliceBytes?, dif_pos ⟨start, stop, Nat.le_add_right _ _⟩, Option.some.injEq,
    ← String.toByteArray_inj, String.toByteArray_extract]
  exact bytes

/-- The bytes of a lexeme but the first and the last are the contents of a string. -/
structure CutsOut (lexeme contents : String) : Prop where
  lexeme_eq : lexeme = "\"" ++ contents ++ "\""
  ordered : 1 ≤ lexeme.utf8ByteSize - 1
  isValid_start : String.Pos.Raw.IsValid lexeme ⟨1⟩
  isValid_stop : String.Pos.Raw.IsValid lexeme ⟨lexeme.utf8ByteSize - 1⟩
  slice_eq : sliceBytes? lexeme 1 (lexeme.utf8ByteSize - 1) = some contents

theorem cutsOut_quoted (contents : String) : CutsOut ("\"" ++ contents ++ "\"") contents := by
  have stop : ("\"" ++ contents ++ "\"").utf8ByteSize - 1 = 1 + contents.utf8ByteSize := by
    rw [String.utf8ByteSize_append, String.utf8ByteSize_append]
    exact Nat.add_sub_cancel _ 1
  have isValid_stop := isValid_append ("\"" ++ contents) "\""
  rw [String.utf8ByteSize_append] at isValid_stop
  refine ⟨rfl, ?_, ?_, ?_, ?_⟩
  · rw [stop]
    exact Nat.le_add_right 1 _
  · rw [String.append_assoc]
    exact isValid_append "\"" (contents ++ "\"")
  · rw [stop]
    exact isValid_stop
  · rw [stop, String.append_assoc]
    exact sliceBytes?_append "\"" contents "\""

namespace Cursor

/-- As `readString`, with the contents cut out of the bytes of the lexeme. Nothing if that fails. -/
def cutString? (c : Cursor) : Option (Reading × Cursor) :=
  let (contents, inside) := c.takeUntil (· == '"')
  let inside := inside.addLines (contents.count '\n')
  match inside.advance? with
  | none => some (.error (.unterminatedString inside.line), inside)
  | some (_, after) =>
    let lexeme := String.ofList after.taken
    (sliceBytes? lexeme 1 (lexeme.utf8ByteSize - 1)).map fun contents =>
      (.token .string (some (.string contents)), after)

/-- As `readLexeme?`, with the contents of strings cut out of bytes. Nothing if that fails. -/
def cutLexeme? (c : Cursor) : Option (Option (Reading × Cursor)) :=
  match c.restart.advance? with
  | none => some none
  | some (first, begun) =>
    if Lead.of first = .quote then begun.cutString?.map some else some (some (begun.read first))

/-- The search for the next item fails at one of the lexemes that it comes to. -/
inductive BreaksDown : Cursor → Prop
  | cut {c : Cursor} (fault : c.cutLexeme? = none) : c.BreaksDown
  | later {c after : Cursor} (lexeme : c.readLexeme? = some (.skipped, after))
      (fault : after.BreaksDown) : c.BreaksDown

theorem begun_of_advance? {c begun : Cursor} {first : Char}
    (begins : c.restart.advance? = some (first, begun)) :
    ∃ others, c.rest = first :: others ∧ begun = ⟨[first], others, c.line⟩ := by
  obtain ⟨taken, rest, line⟩ := c
  cases rest with
  | nil => cases begins
  | cons next others =>
    cases begins
    exact ⟨others, rfl, rfl⟩

/-- A string is read only up to a quote, so its lexeme has its contents between two quotes. -/
theorem taken_of_readString {others : List Char} {line : Nat} {contents : String} {after : Cursor}
    (reads : readString ⟨['"'], others, line⟩ = (.token .string (some (.string contents)), after)) :
    after.taken = '"' :: (contents.toList ++ ['"']) ∧ '"' ∉ contents.toList := by
  obtain ⟨inside, rest, rfl, noQuote, ends⟩ := Segment.exists_until '"' others
  cases rest with
  | nil =>
    rw [List.append_nil, readString_open line noQuote] at reads
    cases reads
  | cons closing rest =>
    obtain rfl : closing = '"' := by simpa using ends
    rw [readString_closed rest line noQuote] at reads
    cases reads
    rw [String.toList_ofList]
    exact ⟨rfl, noQuote⟩

theorem cutsOut_of_readString {others : List Char} {line : Nat} {contents : String} {after : Cursor}
    (reads : readString ⟨['"'], others, line⟩ = (.token .string (some (.string contents)), after)) :
    CutsOut (String.ofList after.taken) contents := by
  have quoted : String.ofList after.taken = "\"" ++ contents ++ "\"" := by
    rw [← String.toList_inj, String.toList_ofList, (taken_of_readString reads).1]
    simp
  rw [quoted]
  exact cutsOut_quoted contents

theorem cutString?_eq (others : List Char) (line : Nat) :
    cutString? ⟨['"'], others, line⟩ = some (readString ⟨['"'], others, line⟩) := by
  have cuts (contents : String) (after : Cursor) := @cutsOut_of_readString others line contents after
  simp only [cutString?, readString] at cuts ⊢
  generalize advance? _ = quote at cuts ⊢
  cases quote with
  | none => rfl
  | some closing =>
    obtain ⟨_, after⟩ := closing
    have slice := (cuts _ after rfl).slice_eq
    dsimp only
    rw [slice, Option.map_some]

theorem cutLexeme?_eq (c : Cursor) : c.cutLexeme? = some c.readLexeme? := by
  rcases begins : c.restart.advance? with _ | ⟨first, begun⟩
  · simp only [cutLexeme?, readLexeme?, begins]
  · obtain ⟨others, -, rfl⟩ := begun_of_advance? begins
    simp only [cutLexeme?, readLexeme?, begins]
    split
    · next quote =>
      have describes := describes_lead first
      rw [quote] at describes
      obtain rfl : first = '"' := describes
      rw [cutString?_eq]
      rfl
    · rfl

theorem not_breaksDown (c : Cursor) : ¬c.BreaksDown := by
  intro fault
  induction fault with
  | cut fault =>
    rw [cutLexeme?_eq] at fault
    cases fault
  | later lexeme fault ih => exact ih

theorem readNumber_after (c : Cursor) : c.readNumber.2 = c.takeDigits.takeFraction := by
  simp only [readNumber]
  split <;> rfl

/-- When the value is asked for, the lexeme is digits, or digits, a point and digits. -/
theorem exists_numberText {first : Char} (others : List Char) (line : Nat) (digit : first.isDigit = true) :
    ∃ whole fraction, (takeFraction (takeDigits ⟨[first], others, line⟩)).taken =
        Lexeme.numberText whole fraction ∧
      (readNumber ⟨[first], others, line⟩).1 =
        .token .number (some (.number (.ofDecimal (Lexeme.numberValue whole fraction)))) := by
  obtain ⟨segment, rest, cut, ends⟩ := Segment.opens_digit others digit
  obtain ⟨begun, more, begins⟩ := List.exists_cons_of_ne_nil segment.text_ne_nil
  have lead := Segment.lead_of_text begins
  rw [begins, List.cons_append] at cut
  obtain ⟨rfl, rfl⟩ := List.cons.inj cut
  rw [lead_of_isDigit digit] at lead
  cases segment with
  | token lexeme =>
    cases lexeme with
    | number whole fraction =>
      have reads := readNumber_text line begins ends
      refine ⟨whole, fraction, ?_, congrArg Prod.fst reads⟩
      rw [← readNumber_after, reads]
      exact begins.symm
    | _ => cases lead
  | _ => cases lead

end Cursor

/-- In whatever state a lexeme is begun, the contents of a string can be cut out of its bytes, and the
text of a number has the form of a number and is read. So no call for an item breaks down, and no scan
reports an error of another kind than stray characters and strings that are left open. -/
theorem scans_without_fault :
    (∀ (c begun after : Cursor) (contents : String), c.restart.advance? = some ('"', begun) →
      begun.readString = (.token .string (some (.string contents)), after) →
      '"' ∉ contents.toList ∧ CutsOut (String.ofList after.taken) contents) ∧
    (∀ (c begun : Cursor) (first : Char), c.restart.advance? = some (first, begun) →
      first.isDigit = true →
      ∃ (whole : Digits) (fraction : Option Digits),
        begun.takeDigits.takeFraction.taken = Lexeme.numberText whole fraction ∧
        Decimal.ofChars? begun.takeDigits.takeFraction.taken =
          some (Lexeme.numberValue whole fraction) ∧
        begun.readNumber.1 =
          .token .number (some (.number (.ofDecimal (Lexeme.numberValue whole fraction))))) ∧
    (∀ c : Cursor, c.cutLexeme? = some c.readLexeme?) ∧
    (∀ (source : String) (calls : Nat), ¬((Scanner.ofString source).pull calls).2.cursor.BreaksDown) ∧
    ∀ (source : String) (line : Nat) (message : String),
      .other line message ∉ (scan source).2.toList ∧
        ∀ calls, some (.error (.other line message)) ∉ ((Scanner.ofString source).pull calls).1 := by
  have notOther (source : String) (line : Nat) (message : String) :
      .other line message ∉ (scan source).2.toList := by
    intro member
    rcases LexicalError.IsFound.cases ⟨source, member⟩ with ⟨itsLine, c, stray, same⟩ | ⟨itsLine, same⟩
    · cases same
    · cases same
  refine ⟨fun c begun after contents begins reads => ?_, fun c begun first begins digit => ?_,
    Cursor.cutLexeme?_eq, fun source calls => Cursor.not_breaksDown _, fun source line message =>
    ⟨notOther source line message, fun calls answered => notOther source line message ?_⟩⟩
  · obtain ⟨others, -, rfl⟩ := Cursor.begun_of_advance? begins
    exact ⟨(Cursor.taken_of_readString reads).2, Cursor.cutsOut_of_readString reads⟩
  · obtain ⟨others, -, rfl⟩ := Cursor.begun_of_advance? begins
    obtain ⟨whole, fraction, text, reads⟩ := Cursor.exists_numberText others c.line digit
    exact ⟨whole, fraction, text, text ▸ Lexeme.ofChars?_numberText whole fraction, reads⟩
  · have found := List.reduceOption_mem_iff.mpr answered
    rw [Scanner.answered_pull] at found
    rw [scan, Scanner.scanTokens_errors]
    exact List.mem_append_right _ (List.mem_filterMap.mpr ⟨_, List.mem_of_mem_take found, rfl⟩)

/-- The empty contents between two quotes, contents of two bytes, and digits whose point is not theirs. -/
theorem scans_without_fault_point :
    ('"' ∉ "".toList ∧ CutsOut "\"\"" "") ∧ ('"' ∉ "é".toList ∧ CutsOut "\"é\"" "é") ∧
      ∃ whole fraction, ['1', '2'] = Lexeme.numberText whole fraction := by
  obtain ⟨strings, numbers, -⟩ := scans_without_fault
  refine ⟨strings ⟨[], ['"', '"'], 1⟩ _ _ "" rfl rfl,
    strings ⟨['@'], ['"', 'é', '"', 'x'], 3⟩ _ _ "é" rfl rfl, ?_⟩
  obtain ⟨whole, fraction, text, -⟩ := numbers ⟨[], ['1', '2', '.'], 1⟩ _ '1' rfl (by decide)
  exact ⟨whole, fraction, text⟩

end ScriptLexer
