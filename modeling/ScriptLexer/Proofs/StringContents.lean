import ScriptLexer.Proofs.Inside
import ScriptLexer.Proofs.LineBreak

namespace ScriptLexer

/-- Contents between quotes, with text before and behind. -/
def quoted (before contents behind : String) : String := before ++ "\"" ++ contents ++ "\"" ++ behind

/-- The token of a string with the given contents. -/
def Token.quoted (contents : String) (line : Nat) : Token :=
  ⟨.string, "\"" ++ contents ++ "\"", some (.string contents), line⟩

namespace Segment

/-- A string is cut off from what stands before it, unless that is a string or comment still open. -/
theorem separated_append_string {segments more : List Segment} {contents : List Char}
    {noQuote : '"' ∉ contents} (separated : Separated segments)
    (closed : ∀ contents noQuote, unterminated contents noQuote ∉ segments)
    (outside : ∀ body oneLine, segments.getLast? ≠ some (comment body oneLine))
    (separatedMore : Separated more) :
    Separated (segments ++ token (.string contents noQuote) :: more) := by
  refine separated_append separated ⟨trivial, separatedMore⟩ ?_
  rintro before segment behind rfl ends
  cases segment with
  | comment body oneLine =>
    have lineEnd : EndsRun (· != '\n') (sourceOf behind) := ends
    cases rest : sourceOf behind with
    | nil =>
      obtain rfl := eq_nil_of_sourceOf_eq_nil rest
      exact absurd List.getLast?_concat (outside body oneLine)
    | cons c more =>
      rw [rest] at lineEnd
      obtain rfl : c = '\n' := by simpa using lineEnd
      exact endsRun_bne '\n' _
  | token lexeme =>
    exact Lexeme.EndsBefore.append ends (lexeme.endsBefore_quote _) (endsRun_cons.mpr rfl)
  | unterminated other otherNoQuote =>
    exact absurd (List.mem_append_right _ (List.mem_cons_self ..)) (closed other otherNoQuote)
  | _ => trivial

end Segment

open Segment in
theorem items_quoted {before behind contents : String} {segments : List Segment}
    (text : sourceOf segments = before.toList) (separated : Separated segments)
    (closed : ∀ contents noQuote, unterminated contents noQuote ∉ segments)
    (outside : ∀ body oneLine, segments.getLast? ≠ some (comment body oneLine))
    (noQuote : '"' ∉ contents.toList) :
    (Scanner.ofString (quoted before contents behind)).items =
      Segment.items 1 segments ++
        .token (.quoted contents (1 + before.toList.count '\n')) ::
          (Scanner.ofString behind).items.map
            (Item.addLines (before.toList.count '\n' + contents.toList.count '\n')) := by
  obtain ⟨more, behindText, separatedMore⟩ := exists_segments behind.toList
  have whole : sourceOf (segments ++ token (.string contents.toList noQuote) :: more) =
      (quoted before contents behind).toList := by
    simp [quoted, text, behindText, Segment.text, Lexeme.text]
  have lines : (token (.string contents.toList noQuote)).lineAfter (1 + before.toList.count '\n') =
      1 + (before.toList.count '\n' + contents.toList.count '\n') := by
    simp [lineAfter, Segment.text, Lexeme.text, Nat.add_assoc]
  have total : (quoted before contents behind).toList.count '\n' =
      behind.toList.count '\n' + (before.toList.count '\n' + contents.toList.count '\n') := by
    have mark : "\"".toList.count '\n' = 0 := rfl
    simp only [quoted, String.toList_append, List.count_append, mark]
    omega
  have ending : Item.addLines (before.toList.count '\n' + contents.toList.count '\n')
      (.token (.endOfFile (1 + behind.toList.count '\n'))) =
        .token (.endOfFile (1 + (quoted before contents behind).toList.count '\n')) := by
    rw [total, ← Nat.add_assoc]
    rfl
  have found : (token (.string contents.toList noQuote)).item? (1 + before.toList.count '\n') =
      some (.token (.quoted contents (1 + before.toList.count '\n'))) := by
    have lexeme : String.ofList (Lexeme.string contents.toList noQuote).text = "\"" ++ contents ++ "\"" :=
      String.toList_injective (by simp [Lexeme.text])
    rw [item?, lexeme, Lexeme.literal, String.ofList_toList]
    rfl
  rw [Scanner.items_ofString whole (separated_append_string separated closed outside separatedMore),
    Scanner.items_ofString behindText separatedMore, List.map_append, List.map_singleton, ending,
    items_append, text, Segment.items, lines, items_addLines, found, List.append_assoc]
  rfl

/-- Two strings in the same place of a source are scanned as two tokens that differ only in what is
between the quotes. All before them is the same, and all behind them but for the lines. -/
theorem items_quoted_alike (before behind first second : String)
    (noError : ∀ line, Item.error (.unterminatedString line) ∉ (Scanner.ofString before).items)
    (outside : Region.code.after before.toList ≠ .comment)
    (firstNoQuote : '"' ∉ first.toList) (secondNoQuote : '"' ∉ second.toList) :
    ∃ found,
      (Scanner.ofString before).items =
        found ++ [.token (.endOfFile (1 + before.toList.count '\n'))] ∧
      (Scanner.ofString (quoted before first behind)).items =
        found ++ .token (.quoted first (1 + before.toList.count '\n')) ::
          (Scanner.ofString behind).items.map
            (Item.addLines (before.toList.count '\n' + first.toList.count '\n')) ∧
      (Scanner.ofString (quoted before second behind)).items =
        found ++ .token (.quoted second (1 + before.toList.count '\n')) ::
          (Scanner.ofString behind).items.map
            (Item.addLines (before.toList.count '\n' + second.toList.count '\n')) := by
  obtain ⟨segments, text, separated⟩ := Segment.exists_segments before.toList
  have yields := Scanner.items_ofString text separated
  have closed : ∀ contents noQuote, Segment.unterminated contents noQuote ∉ segments := by
    refine @Segment.closed_of_items 1 segments fun line member => noError line ?_
    rw [yields]
    exact List.mem_append_left _ member
  have notLast : ∀ body oneLine, segments.getLast? ≠ some (.comment body oneLine) := by
    intro body oneLine last
    rw [← text] at outside
    exact outside (Region.after_of_getLast? separated last)
  exact ⟨Segment.items 1 segments, yields, items_quoted text separated closed notLast firstNoQuote,
    items_quoted text separated closed notLast secondNoQuote⟩

/-- A comment mark and a newline between the quotes, or a character that is reported outside of them. The
open string behind is reported one line further up then. -/
theorem items_quoted_alike_point :
    (∀ line, Item.error (.unterminatedString line) ∉ (Scanner.ofString "#\n12.").items) ∧
    Region.code.after "#\n12.".toList ≠ .comment ∧
    '"' ∉ "//\n\\".toList ∧ '"' ∉ "é".toList ∧
    ∃ found,
      (Scanner.ofString "#\n12.").items = found ++ [.token (.endOfFile 2)] ∧
      (Scanner.ofString "#\n12.\"//\n\\\"5 \"").items =
        found ++ .token (.quoted "//\n\\" 2) ::
          (Scanner.ofString "5 \"").items.map (Item.addLines 2) ∧
      (Scanner.ofString "#\n12.\"é\"5 \"").items =
        found ++ .token (.quoted "é" 2) :: (Scanner.ofString "5 \"").items.map (Item.addLines 1) := by
  have yields : (Scanner.ofString "#\n12.").items =
      [.error (.unexpectedCharacter 1 '#'),
        .token ⟨.number, "12", some (.number (.ofDecimal ⟨12, 0⟩)), 2⟩,
        .token ⟨.dot, ".", none, 2⟩, .token (.endOfFile 2)] := by decide +kernel
  have noError : ∀ line, Item.error (.unterminatedString line) ∉ (Scanner.ofString "#\n12.").items := by
    intro line
    rw [yields]
    simp
  have outside : Region.code.after "#\n12.".toList ≠ .comment := by decide
  have firstNoQuote : '"' ∉ "//\n\\".toList := by decide
  have secondNoQuote : '"' ∉ "é".toList := by decide
  exact ⟨noError, outside, firstNoQuote, secondNoQuote,
    items_quoted_alike "#\n12." "5 \"" "//\n\\" "é" noError outside firstNoQuote secondNoQuote⟩

end ScriptLexer
