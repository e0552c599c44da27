import ScriptLexer.Proofs.LineBreak
import ScriptLexer.Proofs.TokenForm

namespace ScriptLexer

theorem count_newline_blank {c : Char} (blank : isBlank c = true) : [c].count '\n' = 0 := by
  refine List.count_eq_zero_of_not_mem fun member => ?_
  obtain rfl := List.mem_singleton.mp member
  cases blank

namespace Segment

/-- A blank behind the segments is one more segment, or it goes into a last segment that is still
open. Neither yields anything. -/
theorem exists_segments_append_blank {segments : List Segment} (separated : Separated segments)
    {c : Char} (blank : isBlank c = true) :
    ∃ more, sourceOf more = sourceOf segments ++ [c] ∧ Separated more ∧
      ∀ line, items line more = items line segments := by
  have noNewline : c ≠ '\n' := by rintro rfl; cases blank
  have noQuote : c ≠ '"' := by rintro rfl; cases blank
  have space : isSpace c = true := by simp [isSpace, blank]
  induction segments with
  | nil => exact ⟨[.blank c blank], rfl, ⟨trivial, trivial⟩, fun _ => rfl⟩
  | cons segment segments ih =>
    obtain ⟨ends, separated⟩ := separated
    obtain ⟨more, text, separatedMore, yields⟩ := ih separated
    have goesOn (endsMore : segment.EndsBefore (sourceOf segments ++ [c])) :
        ∃ more, sourceOf more = sourceOf (segment :: segments) ++ [c] ∧ Separated more ∧
          ∀ line, items line more = items line (segment :: segments) := by
      refine ⟨segment :: more, ?_, ⟨text ▸ endsMore, separatedMore⟩, fun line => ?_⟩
      · rw [sourceOf_cons, sourceOf_cons, text, List.append_assoc]
      · rw [items, items, yields]
    cases segment with
    | blank d is => exact goesOn trivial
    | newline => exact goesOn trivial
    | unexpected d stray => exact goesOn trivial
    | token lexeme => exact goesOn (Lexeme.EndsBefore.append_space ends space [])
    | comment body oneLine =>
      cases rest : sourceOf segments with
      | cons d others =>
        have atNewline : EndsRun (· != '\n') (d :: others) := rest ▸ ends
        rw [rest] at goesOn
        have newline : d = '\n' := by simpa using atNewline
        subst newline
        exact goesOn (endsRun_bne '\n' _)
      | nil =>
        obtain rfl := eq_nil_of_sourceOf_eq_nil rest
        have longer : '\n' ∉ body ++ [c] := by
          simp [oneLine, Ne.symm noNewline]
        exact ⟨[.comment (body ++ [c]) longer], by simp [Segment.text], ⟨endsRun_nil, trivial⟩,
          fun _ => rfl⟩
    | unterminated contents closed =>
      obtain rfl := eq_nil_of_sourceOf_eq_nil ends
      have longer : '"' ∉ contents ++ [c] := by
        simp [closed, Ne.symm noQuote]
      have sameCount : (contents ++ [c]).count '\n' = contents.count '\n' := by
        rw [List.count_append, count_newline_blank blank, Nat.add_zero]
      refine ⟨[.unterminated (contents ++ [c]) longer], by simp [Segment.text], ⟨rfl, trivial⟩,
        fun line => ?_⟩
      simp only [items, item?, sameCount]

end Segment

/-- Blanks at the end of a source change nothing. -/
theorem items_append_blank (source : List Char) {c : Char} (blank : isBlank c = true) :
    (Scanner.ofString (String.ofList (source ++ [c]))).items =
      (Scanner.ofString (String.ofList source)).items := by
  obtain ⟨segments, text, separated⟩ := Segment.exists_segments source
  obtain ⟨more, longer, separatedMore, yields⟩ :=
    Segment.exists_segments_append_blank separated blank
  rw [Scanner.items_ofString (longer.trans (by rw [text, String.toList_ofList])) separatedMore,
    Scanner.items_ofString (text.trans String.toList_ofList.symm) separated, yields,
    String.toList_ofList, String.toList_ofList, List.count_append, count_newline_blank blank,
    Nat.add_zero]

theorem items_append_blanks (source : List Char) {blanks : List Char}
    (all : ∀ c ∈ blanks, isBlank c = true) :
    (Scanner.ofString (String.ofList (source ++ blanks))).items =
      (Scanner.ofString (String.ofList source)).items := by
  induction blanks generalizing source with
  | nil => rw [List.append_nil]
  | cons c blanks ih =>
    obtain ⟨first, others⟩ := List.forall_mem_cons.mp all
    have cut : source ++ c :: blanks = source ++ [c] ++ blanks := by
      rw [List.append_assoc, List.singleton_append]
    rw [cut, ih _ others, items_append_blank source first]

/-- What stands between line feeds. Behind the last one there is a line only if it is not empty. -/
def textLines (text : List Char) : List (List Char) :=
  let pieces := text.splitOn '\n'
  if pieces.getLast? = some [] then pieces.dropLast else pieces

theorem textLines_of_not_mem {run : List Char} (oneLine : '\n' ∉ run) :
    textLines run = if run = [] then [] else [run] := by
  rw [textLines, List.splitOn_eq_singleton oneLine]
  simp

theorem textLines_append_newline {run : List Char} (oneLine : '\n' ∉ run) (rest : List Char) :
    textLines (run ++ '\n' :: rest) = run :: textLines rest := by
  have pieces := List.splitOn_append_cons_self_of_not_mem oneLine rest
  obtain ⟨piece, others, cut⟩ := List.exists_cons_of_ne_nil (List.splitOn_ne_nil '\n' rest)
  rw [textLines, textLines, pieces, cut, List.getLast?_cons_cons, List.dropLast_cons_cons]
  split <;> rfl

theorem mem_splitOn_of_mem_textLines {text line : List Char} (member : line ∈ textLines text) :
    line ∈ text.splitOn '\n' := by
  simp only [textLines] at member
  split at member
  · exact List.dropLast_subset _ member
  · exact member

/-- A text is a last line without a line feed, or a line with one and a text behind it. -/
theorem line_induction {motive : List Char → Prop}
    (last : ∀ run, '\n' ∉ run → motive run)
    (more : ∀ run rest, '\n' ∉ run → motive rest → motive (run ++ '\n' :: rest))
    (text : List Char) : motive text := by
  obtain ⟨run, rest, cut, oneLine, ends⟩ := Segment.exists_until '\n' text
  cases rest with
  | nil =>
    rw [cut, List.append_nil]
    exact last run oneLine
  | cons c rest =>
    obtain rfl : c = '\n' := by simpa using ends
    have shorter : rest.length < text.length := by
      rw [cut, List.length_append, List.length_cons]
      omega
    rw [cut]
    exact more run rest oneLine (line_induction last more rest)
termination_by text.length

namespace Scanner

/-- What is scanned before the end of the file. -/
def body (source : List Char) : List Item := (Scanner.ofString (String.ofList source)).items.dropLast

theorem items_eq_body (source : List Char) :
    (Scanner.ofString (String.ofList source)).items =
      body source ++ [.token (.endOfFile (1 + source.count '\n'))] := by
  obtain ⟨segments, text, separated⟩ := Segment.exists_segments source
  rw [body, items_ofString (text.trans String.toList_ofList.symm) separated, List.dropLast_concat,
    String.toList_ofList]

theorem body_eq_items {source : List Char} {segments : List Segment}
    (text : Segment.sourceOf segments = source) (separated : Segment.Separated segments) :
    body source = Segment.items 1 segments := by
  rw [body, items_ofString (text.trans String.toList_ofList.symm) separated, List.dropLast_concat]

/-- No string is left open. -/
def Closed (source : List Char) : Prop :=
  ∀ line, Item.error (.unterminatedString line) ∉ body source

/-- A line is scanned on its own, and what follows it one line further down. -/
theorem body_append_newline {run : List Char} (oneLine : '\n' ∉ run) (closed : Closed run)
    (rest : List Char) :
    body (run ++ '\n' :: rest) = body run ++ (body rest).map (Item.addLines 1) := by
  obtain ⟨segments, text, separated⟩ := Segment.exists_segments run
  obtain ⟨more, textMore, separatedMore⟩ := Segment.exists_segments rest
  have items := body_eq_items text separated
  have noneOpen : ∀ contents noQuote, Segment.unterminated contents noQuote ∉ segments := by
    refine @Segment.closed_of_items 1 segments fun line member => closed line ?_
    rw [items]
    exact member
  have whole : Segment.sourceOf (segments ++ .newline :: more) = run ++ '\n' :: rest := by
    rw [Segment.sourceOf_append, Segment.sourceOf_cons, text, textMore]
    rfl
  rw [body_eq_items whole (Segment.separated_append_newline separated noneOpen separatedMore), items,
    body_eq_items textMore separatedMore, ← Segment.items_addLines, Segment.items_append, text,
    List.count_eq_zero_of_not_mem oneLine]
  rfl

theorem addLines_zero (item : Item) : Item.addLines 0 item = item := by
  rcases item with token | error
  · rfl
  · cases error <;> rfl

theorem addLines_addLines (count more : Nat) (item : Item) :
    Item.addLines more (Item.addLines count item) = Item.addLines (count + more) item := by
  rcases item with token | error
  · simp only [Item.addLines, Nat.add_assoc]
  · cases error <;> simp only [Item.addLines, LexicalError.addLines, Nat.add_assoc]

/-- The items of a text are those of its lines, moved down by the number of lines above. -/
theorem body_eq_flatMap_textLines (text : List Char) (closed : ∀ line ∈ textLines text, Closed line) :
    body text = (textLines text).zipIdx.flatMap fun (line, above) =>
      (body line).map (Item.addLines above) := by
  have unmoved : Item.addLines 0 = id := funext addLines_zero
  induction text using line_induction with
  | last run oneLine =>
    rw [textLines_of_not_mem oneLine]
    by_cases empty : run = []
    · subst empty
      rw [if_pos rfl]
      exact @body_eq_items [] [] rfl trivial
    · simp [empty, unmoved]
  | more run rest oneLine ih =>
    rw [textLines_append_newline oneLine] at closed ⊢
    obtain ⟨first, others⟩ := List.forall_mem_cons.mp closed
    have lower (above : Nat) : Item.addLines 1 ∘ Item.addLines above = Item.addLines (above + 1) :=
      funext (addLines_addLines above 1)
    rw [body_append_newline oneLine first, ih others, List.zipIdx_cons, List.zipIdx_succ,
      List.flatMap_cons, List.flatMap_map, List.map_flatMap]
    simp only [List.map_map, lower, unmoved, List.map_id]

end Scanner

end ScriptLexer
