import ScriptLexer.Scanner
import ScriptLexer.Proofs.SegmentReading

namespace ScriptLexer

namespace Segment

/-- The item of a segment that begins on the given line, if it has one. -/
def item? (line : Nat) : Segment → Option Item
  | token lexeme => some (.token ⟨lexeme.kind, String.ofList lexeme.text, lexeme.literal, line⟩)
  | unexpected c _ => some (.error (.unexpectedCharacter line c))
  | unterminated contents _ => some (.error (.unterminatedString (line + contents.count '\n')))
  | _ => none

theorem lineAfter_add_count (line : Nat) (segment : Segment) (segments : List Segment) :
    segment.lineAfter line + (sourceOf segments).count '\n' =
      line + (sourceOf (segment :: segments)).count '\n' := by
  rw [sourceOf_cons, List.count_append, lineAfter]
  omega

/-- The items of segments of which the first begins on the given line. -/
def items (line : Nat) : List Segment → List Item
  | [] => []
  | segment :: segments => (segment.item? line).toList ++ items (segment.lineAfter line) segments

theorem items_append (line : Nat) (segments more : List Segment) :
    items line (segments ++ more) =
      items line segments ++ items (line + (sourceOf segments).count '\n') more := by
  induction segments generalizing line with
  | nil => rfl
  | cons segment segments ih =>
    rw [List.cons_append, items, items, ih, lineAfter_add_count, List.append_assoc]

/-- An item is that of one of the segments. -/
theorem exists_of_mem_items {line : Nat} {segments : List Segment} {item : Item}
    (member : item ∈ items line segments) :
    ∃ segment ∈ segments, ∃ itsLine, segment.item? itsLine = some item := by
  induction segments generalizing line with
  | nil => cases member
  | cons segment segments ih =>
    rcases List.mem_append.mp member with own | later
    · exact ⟨segment, List.mem_cons_self .., line, Option.mem_toList.mp own⟩
    · obtain ⟨found, inSegments, itsLine, yields⟩ := ih later
      exact ⟨found, List.mem_cons_of_mem _ inSegments, itsLine, yields⟩

/-- Every segment is asked for its item on some line. -/
theorem exists_line_of_mem {segment : Segment} {segments : List Segment} (line : Nat)
    (member : segment ∈ segments) :
    ∃ itsLine, ∀ item, segment.item? itsLine = some item → item ∈ items line segments := by
  induction segments generalizing line with
  | nil => cases member
  | cons head segments ih =>
    rcases List.mem_cons.mp member with rfl | later
    · exact ⟨line, fun item yields => List.mem_append_left _ (Option.mem_toList.mpr yields)⟩
    · obtain ⟨itsLine, yields⟩ := ih (head.lineAfter line) later
      exact ⟨itsLine, fun item found => List.mem_append_right _ (yields item found)⟩

end Segment

namespace Scanner

/-- What a scanner yields is decided by its next item and what follows that. -/
theorem items_eq_of_next_eq {s t : Scanner} (same : s.next = t.next) : s.items = t.items := by
  match step : s.next with
  | (none, _) => rw [items_of_end step, items_of_end (same.symm.trans step)]
  | (some item, _) => rw [items_of_item step, items_of_item (same.symm.trans step)]

theorem items_of_finished {s : Scanner} (finished : s.finished = true) : s.items = [] := by
  have step : s.next = (none, s) := by simp [next, finished]
  exact items_of_end step

/-- At the end of the source only the end-of-file token is left. -/
theorem items_of_rest_nil (taken : List Char) (line : Nat) :
    items ⟨⟨taken, [], line⟩, false⟩ = [.token (.endOfFile line)] := by
  have ended : Cursor.readLexeme? ⟨taken, [], line⟩ = none := rfl
  have step : next ⟨⟨taken, [], line⟩, false⟩ =
      (some (.token (.endOfFile line)), ⟨⟨[], [], line⟩, true⟩) := by
    simp [next, Cursor.nextItem_of_end ended, Cursor.restart]
  rw [items_of_item step, items_of_finished rfl]

theorem items_of_skipped {c after : Cursor} (lexeme : c.readLexeme? = some (.skipped, after)) :
    items ⟨c, false⟩ = items ⟨after, false⟩ := by
  apply items_eq_of_next_eq
  simp only [next, Cursor.nextItem_of_skipped lexeme, Bool.false_eq_true, if_false]

theorem items_of_token {c after : Cursor} {kind : Kind} {literal : Option Literal}
    (lexeme : c.readLexeme? = some (.token kind literal, after)) :
    items ⟨c, false⟩ =
      .token ⟨kind, String.ofList after.taken, literal, c.line⟩ :: items ⟨after, false⟩ := by
  apply items_of_item
  simp [next, Cursor.nextItem_of_token lexeme]

theorem items_of_error {c after : Cursor} {error : LexicalError}
    (lexeme : c.readLexeme? = some (.error error, after)) :
    items ⟨c, false⟩ = .error error :: items ⟨after, false⟩ := by
  apply items_of_item
  simp [next, Cursor.nextItem_of_error lexeme]

/-- One segment yields its item, and the scanner goes on behind it. -/
theorem items_segment {segment : Segment} {rest : List Char} (taken : List Char) (line : Nat)
    (ends : segment.EndsBefore rest) :
    items ⟨⟨taken, segment.text ++ rest, line⟩, false⟩ =
      (segment.item? line).toList ++
        items ⟨⟨segment.text, rest, segment.lineAfter line⟩, false⟩ := by
  have step := Cursor.readLexeme?_segment taken line ends
  cases segment with
  | blank c is => exact items_of_skipped step
  | newline => exact items_of_skipped step
  | comment body oneLine => exact items_of_skipped step
  | token lexeme => exact items_of_token step
  | unexpected c stray => exact items_of_error step
  | unterminated contents noQuote => exact items_of_error step

/-- A scanner in front of separated segments yields their items and then the end of the file. -/
theorem items_sourceOf {segments : List Segment} (taken : List Char) (line : Nat)
    (separated : Segment.Separated segments) :
    items ⟨⟨taken, Segment.sourceOf segments, line⟩, false⟩ =
      Segment.items line segments ++
        [.token (.endOfFile (line + (Segment.sourceOf segments).count '\n'))] := by
  induction segments generalizing taken line with
  | nil => exact items_of_rest_nil taken line
  | cons segment segments ih =>
    obtain ⟨ends, separated⟩ := separated
    rw [Segment.sourceOf_cons, items_segment taken line ends, ih _ _ separated,
      Segment.lineAfter_add_count, Segment.items, Segment.sourceOf_cons, List.append_assoc]

theorem items_ofString {source : String} {segments : List Segment}
    (text : Segment.sourceOf segments = source.toList) (separated : Segment.Separated segments) :
    (Scanner.ofString source).items =
      Segment.items 1 segments ++ [.token (.endOfFile (1 + source.toList.count '\n'))] := by
  show items ⟨⟨[], source.toList, 1⟩, false⟩ = _
  rw [← text]
  exact items_sourceOf [] 1 separated

/-- A scanned token is a lexeme with a line. -/
theorem exists_lexeme_of_mem_items {source : String} {token : Token}
    (member : .token token ∈ (Scanner.ofString source).items) (notEnd : token.kind ≠ .endOfFile) :
    ∃ lexeme : Lexeme,
      token = ⟨lexeme.kind, String.ofList lexeme.text, lexeme.literal, token.line⟩ := by
  obtain ⟨segments, same, separated⟩ := Segment.exists_segments source.toList
  rw [items_ofString same separated] at member
  rcases List.mem_append.mp member with inSegments | ending
  · obtain ⟨segment, -, line, yields⟩ := Segment.exists_of_mem_items inSegments
    cases segment with
    | token lexeme =>
      cases yields
      exact ⟨lexeme, rfl⟩
    | _ => cases yields
  · cases List.mem_singleton.mp ending
    exact absurd rfl notEnd

end Scanner

theorem scan_eq_of_items_eq {source other : String}
    (same : (Scanner.ofString source).items = (Scanner.ofString other).items) :
    scan source = scan other := by
  simp only [scan, Scanner.scanTokens, Scanner.foldItems_eq_foldl, same]

end ScriptLexer
