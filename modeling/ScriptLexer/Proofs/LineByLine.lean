import ScriptLexer.Proofs.Course
import ScriptLexer.Proofs.LineScan

namespace ScriptLexer

namespace Utf8

theorem encode_ofList_append (text more : List Char) :
    encode (String.ofList (text ++ more)) =
      encode (String.ofList text) ++ encode (String.ofList more) := by
  simp only [encode, String.toList_ofList, List.flatMap_append]

theorem encode_newline_cons (text : List Char) :
    encode (String.ofList ('\n' :: text)) = lineFeed :: encode (String.ofList text) :=
  encode_ofList_append ['\n'] text

/-- The byte of the line feed stands for nothing else. -/
theorem eq_newline_of_lineFeed_mem {c : Char} (member : lineFeed ∈ String.utf8EncodeChar c) :
    c = '\n' := (encoding_of_ascii_mem (by decide) member).2.symm

theorem lineFeed_not_mem_encode {text : List Char} (oneLine : '\n' ∉ text) :
    lineFeed ∉ encode (String.ofList text) := by
  intro member
  rw [encode, String.toList_ofList] at member
  obtain ⟨c, inText, byte⟩ := List.mem_flatMap.mp member
  exact oneLine (eq_newline_of_lineFeed_mem byte ▸ inText)

theorem encode_ofList_cons_ne_nil (c : Char) (text : List Char) :
    encode (String.ofList (c :: text)) ≠ [] := by
  intro empty
  have length := congrArg List.length empty
  simp only [encode, String.toList_ofList, List.flatMap_cons, List.length_append,
    String.length_utf8EncodeChar, List.length_nil] at length
  have positive := c.utf8Size_pos
  omega

end Utf8

namespace Session

theorem withoutLineEnd_append (run : List Char) {terminator : List Char}
    (isEnd : ∀ c ∈ terminator, isLineEnd c = true) :
    withoutLineEnd (String.ofList (run ++ terminator)) = withoutLineEnd (String.ofList run) := by
  obtain ⟨ending, cut, inEnding, last⟩ :=
    withoutLineEnd_eq_iff.mp (@rfl _ (withoutLineEnd (String.ofList run)))
  generalize withoutLineEnd (String.ofList run) = source at cut last ⊢
  refine withoutLineEnd_eq_iff.mpr ⟨ending ++ terminator, ?_, ?_, last⟩
  · rw [String.ofList_append, cut, String.ofList_append, String.append_assoc]
  · exact List.forall_mem_append.mpr ⟨inEnding, isEnd⟩

/-- The carriage returns at the end of a line are blanks to the scanner. -/
theorem scan_withoutLineEnd {run : List Char} (oneLine : '\n' ∉ run) :
    ScriptLexer.scan (withoutLineEnd (String.ofList run)) = ScriptLexer.scan (String.ofList run) := by
  obtain ⟨ending, cut, inEnding, -⟩ :=
    withoutLineEnd_eq_iff.mp (@rfl _ (withoutLineEnd (String.ofList run)))
  generalize withoutLineEnd (String.ofList run) = source at cut
  obtain rfl : run = source.toList ++ ending := by
    rw [← String.toList_ofList (l := run), cut, String.toList_append, String.toList_ofList]
  have blanks : ∀ c ∈ ending, isBlank c = true := by
    intro c member
    have newline : c ≠ '\n' := by
      rintro rfl
      exact oneLine (List.mem_append_right _ member)
    obtain rfl : c = '\r' := by simpa [isLineEnd, newline] using inEnding c member
    rfl
  refine scan_eq_of_items_eq ?_
  rw [items_append_blanks source.toList blanks, String.ofList_toList]

/-- The sources that a dialogue over the text finds in its lines. -/
def lineSources (text : List Char) : List String :=
  (textLines text).map fun line => withoutLineEnd (String.ofList line)

variable {s : Session}

theorem Fresh.converse_line (fresh : s.Fresh) (run : List Char)
    (goesOn : withoutLineEnd (String.ofList run) ≠ "exit") {terminator : List Char}
    (isEnd : ∀ c ∈ terminator, isLineEnd c = true) (lines : List Bytes) :
    s.converse (Utf8.encode (String.ofList (run ++ terminator)) :: lines) =
      converse ⟨{}, s.out.push (Utf8.encode "KS> " ++
          tokenLines (ScriptLexer.scan (withoutLineEnd (String.ofList run))).1),
        s.err.push (errorLines
          (ScriptLexer.scan (withoutLineEnd (String.ofList run))).2.toList)⟩ lines := by
  refine fresh.converse_of_answered lines ?_ goesOn
  rw [sourceOf?, Utf8.decode?_encode, Option.map_some, withoutLineEnd_append run isEnd]

/-- A dialogue over a text of which no line asks for the end answers all of them. -/
theorem Fresh.converse_text (fresh : s.Fresh) (text : List Char)
    (goesOn : "exit" ∉ lineSources text) :
    s.converse (Bytes.lines (Utf8.encode (String.ofList text))) = ⟨.ok (), [],
      ⟨{}, s.out.push (transcript (lineSources text)),
        s.err.push (errorTranscript (lineSources text))⟩⟩ := by
  induction text using line_induction generalizing s with
  | last run oneLine =>
    rw [lineSources, textLines_of_not_mem oneLine] at goesOn ⊢
    -- Behind the last line feed the bytes and the text have a line only if there is anything left.
    cases run with
    | nil => exact converse_nil fresh.prompts
    | cons c run =>
      rw [if_neg (List.cons_ne_nil c run), List.map_singleton] at goesOn ⊢
      have noFeed := Utf8.lineFeed_not_mem_encode oneLine
      have step := fresh.converse_line (c :: run) (Ne.symm (List.ne_of_not_mem_cons goesOn))
        (fun _ none => nomatch none : ∀ d ∈ ([] : List Char), isLineEnd d = true) []
      rw [List.append_nil] at step
      rw [Bytes.lines_of_not_mem noFeed (Utf8.encode_ofList_cons_ne_nil c run), step,
        converse_nil (fresh.push _ _).prompts, push_transcript_cons, push_errorTranscript_cons]
  | more run rest oneLine ih =>
    rw [lineSources, textLines_append_newline oneLine, List.map_cons] at goesOn ⊢
    have first := Ne.symm (List.ne_of_not_mem_cons goesOn)
    have others := List.not_mem_of_not_mem_cons goesOn
    have noFeed := Utf8.lineFeed_not_mem_encode oneLine
    have isEnd : ∀ c ∈ ['\n'], isLineEnd c = true := List.forall_mem_singleton.mpr rfl
    have bytes : Utf8.encode (String.ofList (run ++ '\n' :: rest)) =
        Utf8.encode (String.ofList run) ++ lineFeed :: Utf8.encode (String.ofList rest) := by
      rw [← Utf8.encode_newline_cons, ← Utf8.encode_ofList_append]
    have line : Utf8.encode (String.ofList (run ++ ['\n'])) =
        Utf8.encode (String.ofList run) ++ [lineFeed] := Utf8.encode_ofList_append run ['\n']
    rw [bytes, Bytes.lines_append_lineFeed noFeed, ← line, fresh.converse_line run first isEnd,
      ih (fresh.push _ _) others, push_transcript_cons, push_errorTranscript_cons]
    rfl

end Session

theorem scan_tokens_eq_body (text : List Char) :
    (scan (String.ofList text)).1 = (Scanner.body text).filterMap Item.token? ++
      [.endOfFile (1 + text.count '\n')] := by
  rw [scan, Scanner.scanTokens_tokens, Scanner.items_eq_body, List.filterMap_append]
  rfl

theorem scan_errors_eq_body (text : List Char) :
    (scan (String.ofList text)).2.toList = (Scanner.body text).filterMap Item.error? := by
  rw [scan, Scanner.scanTokens_errors, Scanner.items_eq_body, List.filterMap_append]
  exact List.append_nil _

theorem scan_tokens_dropLast (text : List Char) :
    (scan (String.ofList text)).1.dropLast = (Scanner.body text).filterMap Item.token? := by
  rw [scan_tokens_eq_body, List.dropLast_concat]

theorem Scanner.closed_of_scan {text : List Char}
    (noError : ∀ line, .unterminatedString line ∉ (scan (String.ofList text)).2.toList) :
    Scanner.Closed text := by
  intro line member
  refine noError line ?_
  rw [scan_errors_eq_body]
  exact List.mem_filterMap.mpr ⟨_, member, rfl⟩

theorem Item.token?_addLines (count : Nat) (item : Item) :
    (Item.addLines count item).token?.map Token.content = item.token?.map Token.content := by
  cases item <;> rfl

theorem Item.error?_addLines (count : Nat) (item : Item) :
    (Item.addLines count item).error? = item.error?.map (LexicalError.addLines count) := by
  cases item <;> rfl

/-- The tokens of a text are those of its lines. -/
theorem scan_tokens_textLines {text : List Char}
    (closed : ∀ line ∈ textLines text, Scanner.Closed line) :
    (scan (String.ofList text)).1.dropLast.map Token.content =
      (textLines text).flatMap fun line =>
        (scan (String.ofList line)).1.dropLast.map Token.content := by
  have unnumbered (found : List Char → List (Kind × String × Option Literal)) :
      ((textLines text).zipIdx.flatMap fun numbered => found numbered.1) =
        (textLines text).flatMap found := by
    rw [← List.zipIdx_map_fst 0 (textLines text), List.flatMap_map, List.zipIdx_map_fst]
  rw [scan_tokens_dropLast, Scanner.body_eq_flatMap_textLines text closed, List.filterMap_flatMap,
    List.map_flatMap, ← unnumbered]
  simp only [scan_tokens_dropLast, List.filterMap_map, List.map_filterMap, Function.comp_apply,
    Item.token?_addLines]

/-- The errors of a text are those of its lines, moved down by the number of lines above. -/
theorem scan_errors_textLines {text : List Char}
    (closed : ∀ line ∈ textLines text, Scanner.Closed line) :
    (scan (String.ofList text)).2.toList = (textLines text).zipIdx.flatMap fun (line, above) =>
      (scan (String.ofList line)).2.toList.map (LexicalError.addLines above) := by
  rw [scan_errors_eq_body, Scanner.body_eq_flatMap_textLines text closed, List.filterMap_flatMap]
  simp only [scan_errors_eq_body, List.filterMap_map, List.map_filterMap, Function.comp_def,
    Item.error?_addLines]

theorem newline_not_mem_of_mem_textLines {text line : List Char} (member : line ∈ textLines text) :
    '\n' ∉ line := by
  induction text using line_induction with
  | last run oneLine =>
    rw [textLines_of_not_mem oneLine] at member
    split at member
    · cases member
    · obtain rfl := List.mem_singleton.mp member
      exact oneLine
  | more run rest oneLine ih =>
    rw [textLines_append_newline oneLine] at member
    rcases List.mem_cons.mp member with rfl | later
    · exact oneLine
    · exact ih later

namespace Session

/-- What is found in the line of a text is found in its source. -/
theorem flatMap_lineSources {α : Type} (text : List Char) (found : List Token × Diagnostics → List α) :
    (lineSources text).flatMap (fun source => found (ScriptLexer.scan source)) =
      (textLines text).flatMap fun line => found (ScriptLexer.scan (String.ofList line)) := by
  rw [lineSources, List.flatMap_map]
  refine List.flatMap_congr fun line member => ?_
  rw [scan_withoutLineEnd (newline_not_mem_of_mem_textLines member)]

theorem flatMap_zipIdx_lineSources {α : Type} (text : List Char)
    (found : List Token × Diagnostics → Nat → List α) :
    ((lineSources text).zipIdx.flatMap fun (source, above) => found (ScriptLexer.scan source) above) =
      (textLines text).zipIdx.flatMap fun (line, above) =>
        found (ScriptLexer.scan (String.ofList line)) above := by
  rw [lineSources, List.zipIdx_map, List.flatMap_map]
  refine List.flatMap_congr fun (line, above) member => ?_
  have inText := newline_not_mem_of_mem_textLines (List.fst_mem_of_mem_zipIdx member)
  show found (ScriptLexer.scan (withoutLineEnd (String.ofList line))) above = _
  rw [scan_withoutLineEnd inText]

/-- A dialogue over a text and a run of the text, in all that they print. The tokens of the text are
those of its lines, each without its end of file, and an error of a line is found in the text as many
lines further down as there are lines above. -/
theorem repl_agrees_with_run {s : Session} (fresh : s.Fresh) (text : String)
    (goesOn : ∀ line ∈ text.toList.splitOn '\n', withoutLineEnd (String.ofList line) ≠ "exit")
    (closed : ∀ line ∈ text.toList.splitOn '\n', ∀ place,
      .unterminatedString place ∉ (ScriptLexer.scan (String.ofList line)).2.toList) :
    (∃ ran, run text s = .ok () ran ∧
      ran.out.written.toList = s.out.written.toList ++ tokenLines (ScriptLexer.scan text).1 ∧
      ran.err.written.toList = s.err.written.toList ++ errorLines (ScriptLexer.scan text).2.toList) ∧
    (s.repl (Utf8.encode text)).result = .ok () ∧ (s.repl (Utf8.encode text)).unread = [] ∧
    (s.repl (Utf8.encode text)).session.out.written.toList = s.out.written.toList ++
      (lineSources text.toList).flatMap (fun source =>
        Utf8.encode "KS> " ++ tokenLines (ScriptLexer.scan source).1) ++ Utf8.encode "KS> " ∧
    (s.repl (Utf8.encode text)).session.err.written.toList = s.err.written.toList ++
      (lineSources text.toList).flatMap (fun source => errorLines (ScriptLexer.scan source).2.toList) ∧
    (∀ source ∈ text :: lineSources text.toList,
      ∃ last, (ScriptLexer.scan source).1.getLast? = some (.endOfFile last)) ∧
    (ScriptLexer.scan text).1.dropLast.map Token.content =
      (lineSources text.toList).flatMap (fun source =>
        (ScriptLexer.scan source).1.dropLast.map Token.content) ∧
    (ScriptLexer.scan text).2.toList =
      (lineSources text.toList).zipIdx.flatMap fun (source, above) =>
        (ScriptLexer.scan source).2.toList.map (LexicalError.addLines above) := by
  have goesOnAll : "exit" ∉ lineSources text.toList := by
    intro member
    obtain ⟨line, inText, asks⟩ := List.mem_map.mp member
    exact goesOn line (mem_splitOn_of_mem_textLines inText) asks
  have closedAll : ∀ line ∈ textLines text.toList, Scanner.Closed line := fun line inText =>
    Scanner.closed_of_scan (closed line (mem_splitOn_of_mem_textLines inText))
  have converses := fresh.converse_text text.toList goesOnAll
  have tokens := scan_tokens_textLines closedAll
  have errors := scan_errors_textLines closedAll
  rw [String.ofList_toList] at converses tokens errors
  refine ⟨⟨_, fresh.run text, ?_, ?_⟩, ?_⟩
  · exact Sink.toList_push_of_fits (Sink.fits_of_unlimited fresh.outFree _)
  · exact Sink.toList_push_of_fits (Sink.fits_of_unlimited fresh.errFree _)
  rw [repl, converses]
  refine ⟨rfl, rfl, ?_, ?_, ?_, ?_, ?_⟩
  · rw [Sink.toList_push_of_fits (Sink.fits_of_unlimited fresh.outFree _), transcript, List.append_assoc]
  · rw [Sink.toList_push_of_fits (Sink.fits_of_unlimited fresh.errFree _), errorTranscript]
  · intro source _
    refine ⟨1 + source.toList.count '\n', ?_⟩
    rw [← String.ofList_toList (s := source), scan_tokens_eq_body, List.getLast?_concat,
      String.toList_ofList]
  · rw [tokens, flatMap_lineSources text.toList fun found => found.1.dropLast.map Token.content]
  · rw [errors, flatMap_zipIdx_lineSources text.toList fun found above =>
      found.2.toList.map (LexicalError.addLines above)]

/-- A point and digits on the next line make no number, and a quote in a comment opens no string. -/
theorem repl_agrees_with_run_point :
    Fresh {} ∧
    (∀ line ∈ "1.\r\n@ // \"\n\n5 #\r".toList.splitOn '\n',
      withoutLineEnd (String.ofList line) ≠ "exit") ∧
    (∀ line ∈ "1.\r\n@ // \"\n\n5 #\r".toList.splitOn '\n', ∀ place,
      .unterminatedString place ∉ (ScriptLexer.scan (String.ofList line)).2.toList) ∧
    lineSources "1.\r\n@ // \"\n\n5 #\r".toList = ["1.", "@ // \"", "", "5 #"] ∧
    (ScriptLexer.scan "1.\r\n@ // \"\n\n5 #\r").2.toList =
      [.unexpectedCharacter 2 '@', .unexpectedCharacter 4 '#'] ∧
    (repl {} (Utf8.encode "1.\r\n@ // \"\n\n5 #\r")).session.err.written.toList =
      errorLines [.unexpectedCharacter 1 '@', .unexpectedCharacter 1 '#'] := by
  have fresh : Fresh {} := ⟨rfl, rfl, rfl⟩
  have goesOn : ∀ line ∈ "1.\r\n@ // \"\n\n5 #\r".toList.splitOn '\n',
      withoutLineEnd (String.ofList line) ≠ "exit" := by decide +kernel
  have found : ("1.\r\n@ // \"\n\n5 #\r".toList.splitOn '\n').map
      (fun line => (ScriptLexer.scan (String.ofList line)).2.toList) =
        [[], [.unexpectedCharacter 1 '@'], [], [.unexpectedCharacter 1 '#']] := by decide +kernel
  have closed : ∀ line ∈ "1.\r\n@ // \"\n\n5 #\r".toList.splitOn '\n', ∀ place,
      .unterminatedString place ∉ (ScriptLexer.scan (String.ofList line)).2.toList := by
    intro line inText place
    have member := List.mem_map_of_mem (f := fun line =>
      (ScriptLexer.scan (String.ofList line)).2.toList) inText
    rw [found] at member
    generalize (ScriptLexer.scan (String.ofList line)).2.toList = errors at member ⊢
    simp only [List.mem_cons, List.not_mem_nil, or_false] at member
    rcases member with rfl | rfl | rfl | rfl <;> simp
  have sources : lineSources "1.\r\n@ // \"\n\n5 #\r".toList = ["1.", "@ // \"", "", "5 #"] := by
    decide +kernel
  obtain ⟨-, -, -, -, err, -, -, errors⟩ := repl_agrees_with_run fresh _ goesOn closed
  rw [sources] at err errors
  refine ⟨fresh, goesOn, closed, sources, ?_, ?_⟩
  · rw [errors]
    decide +kernel
  · rw [err]
    decide +kernel

end Session

end ScriptLexer
