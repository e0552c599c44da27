import ScriptLexer.Proofs.Replacement

namespace ScriptLexer

/-- All that is read from here to the end of the source, with the text of each piece. -/
def Cursor.pieces (c : Cursor) : List (Reading × List Char) :=
  match _lexeme : c.readLexeme? with
  | none => []
  | some (reading, after) => (reading, after.taken) :: after.pieces
termination_by c.rest.length
decreasing_by exact readLexeme?_rest_length_lt _lexeme

/-- Of what is skipped, only a comment begins with a slash. -/
def isComment : Reading × List Char → Bool
  | (.skipped, '/' :: _) => true
  | _ => false

/-- What is done to a comment: it is taken away, or its text is replaced by another on one line. -/
inductive CommentEdit where
  | erase
  | rewrite (body : List Char) (oneLine : '\n' ∉ body)

namespace CommentEdit

def text : CommentEdit → List Char
  | erase => []
  | rewrite body _ => '/' :: '/' :: body

def segments : CommentEdit → List Segment
  | erase => []
  | rewrite body oneLine => [.comment body oneLine]

theorem sourceOf_segments (edit : CommentEdit) : Segment.sourceOf edit.segments = edit.text := by
  cases edit with
  | erase => rfl
  | rewrite body oneLine => exact List.append_nil _

theorem newline_not_mem_text (edit : CommentEdit) : '\n' ∉ edit.text := by
  cases edit with
  | erase => exact List.not_mem_nil
  | rewrite body oneLine => exact Segment.newline_not_mem_comment oneLine

theorem items_segments (line : Nat) (edit : CommentEdit) : Segment.items line edit.segments = [] := by
  cases edit <;> rfl

end CommentEdit

/-- The text of pieces, with the first comment edited in the first way and so on. -/
def editComments (edits : Nat → CommentEdit) : List (Reading × List Char) → List Char
  | [] => []
  | piece :: pieces =>
    if isComment piece then (edits 0).text ++ editComments (fun place => edits (place + 1)) pieces
    else piece.2 ++ editComments edits pieces

/-- The source with every comment edited that a scan of it skips. -/
def commentsEdited (edits : Nat → CommentEdit) (source : String) : String :=
  String.ofList (editComments edits (Cursor.ofString source).pieces)

theorem Cursor.pieces_of_end {c : Cursor} (ended : c.readLexeme? = none) : c.pieces = [] := by
  rw [pieces]
  split <;> simp_all

theorem Cursor.pieces_of_lexeme {c after : Cursor} {reading : Reading}
    (lexeme : c.readLexeme? = some (reading, after)) :
    c.pieces = (reading, after.taken) :: after.pieces := by
  rw [pieces]
  split <;> simp_all

namespace Segment

/-- What segments are read as if the first begins on the given line. -/
def pieces (line : Nat) : List Segment → List (Reading × List Char)
  | [] => []
  | segment :: segments => (segment.reading line, segment.text) :: pieces (segment.lineAfter line) segments

theorem pieces_sourceOf {segments : List Segment} (taken : List Char) (line : Nat)
    (separated : Separated segments) :
    Cursor.pieces ⟨taken, sourceOf segments, line⟩ = pieces line segments := by
  induction segments generalizing taken line with
  | nil => exact Cursor.pieces_of_end rfl
  | cons segment segments ih =>
    obtain ⟨ends, separated⟩ := separated
    have read := Cursor.readLexeme?_segment taken line ends
    rw [sourceOf_cons, Cursor.pieces_of_lexeme read, ih _ _ separated, pieces]

theorem flatMap_pieces (line : Nat) (segments : List Segment) :
    (pieces line segments).flatMap Prod.snd = sourceOf segments := by
  induction segments generalizing line with
  | nil => rfl
  | cons segment segments ih => rw [pieces, List.flatMap_cons, ih, sourceOf_cons]

/-- A piece that is a comment is a segment that is one. -/
theorem isComment_iff {segment : Segment} (line : Nat) :
    isComment (segment.reading line, segment.text) = true ↔
      ∃ body oneLine, segment = comment body oneLine := by
  constructor
  · intro is
    cases segment with
    | comment body oneLine => exact ⟨body, oneLine, rfl⟩
    | blank c blank =>
      have noSlash : c ≠ '/' := by rintro rfl; cases blank
      simp [reading, text, isComment, noSlash] at is
    | _ => cases is
  · rintro ⟨body, oneLine, rfl⟩
    rfl

/-- A comment is on one line and goes on to its end. -/
theorem exists_body_of_isComment {line : Nat} {segments : List Segment}
    {before behind : List (Reading × List Char)} {piece : Reading × List Char}
    (separated : Separated segments) (cut : pieces line segments = before ++ piece :: behind)
    (is : isComment piece = true) :
    ∃ body, piece.2 = '/' :: '/' :: body ∧ '\n' ∉ body ∧
      EndsRun (· != '\n') (behind.flatMap Prod.snd) := by
  induction before generalizing line segments with
  | nil =>
    cases segments with
    | nil => cases cut
    | cons segment segments =>
      obtain ⟨rfl, rfl⟩ := List.cons.inj cut
      obtain ⟨body, oneLine, rfl⟩ := (isComment_iff line).mp is
      rw [flatMap_pieces]
      exact ⟨body, rfl, oneLine, separated.1⟩
  | cons first before ih =>
    cases segments with
    | nil => cases cut
    | cons segment segments => exact ih separated.2 (List.cons.inj cut).2

/-- The segments of the source with its comments edited. -/
def edited (edits : Nat → CommentEdit) : List Segment → List Segment
  | [] => []
  | comment _ _ :: segments => (edits 0).segments ++ edited (fun place => edits (place + 1)) segments
  | segment :: segments => segment :: edited edits segments

theorem editComments_pieces (edits : Nat → CommentEdit) (line : Nat) (segments : List Segment) :
    editComments edits (pieces line segments) = sourceOf (edited edits segments) := by
  induction segments generalizing edits line with
  | nil => rfl
  | cons segment segments ih =>
    rw [pieces, editComments, ih, ih]
    by_cases is : isComment (segment.reading line, segment.text) = true
    · obtain ⟨body, oneLine, rfl⟩ := (isComment_iff line).mp is
      rw [if_pos is, edited, sourceOf_append, CommentEdit.sourceOf_segments]
    · rw [if_neg is]
      cases segment with
      | comment body oneLine => exact absurd rfl is
      | _ => rfl

/-- Behind a comment there is a newline or nothing, and in front of that everything ends. -/
theorem replaces_edited (edits : Nat → CommentEdit) {segments : List Segment}
    (separated : Separated segments) : Replaces segments (edited edits segments) := by
  induction segments generalizing edits with
  | nil => exact replaces_nil
  | cons segment segments ih =>
    obtain ⟨ends, separated⟩ := separated
    cases segment with
    | comment body oneLine =>
      have replaces := ih (fun place => edits (place + 1)) separated
      have lineEnd : EndsRun (· != '\n') (sourceOf (edited (fun place => edits (place + 1)) segments)) :=
        replaces.mayReplace (comment body oneLine) [] ends
      rw [edited]
      cases edits 0 with
      | erase =>
        refine ⟨replaces.separated, mayReplace_lineEnd ?_ lineEnd⟩
        rw [sourceOf_cons]
        exact fun empty => text_ne_nil _ (List.append_eq_nil_iff.mp empty).1
      | rewrite other otherOneLine =>
        exact ⟨⟨lineEnd, replaces.separated⟩, mayReplace_of_alike rfl⟩
    | _ => exact (ih edits separated).cons ends

theorem count_newline_edited (edits : Nat → CommentEdit) (segments : List Segment) :
    (sourceOf (edited edits segments)).count '\n' = (sourceOf segments).count '\n' := by
  induction segments generalizing edits with
  | nil => rfl
  | cons segment segments ih =>
    cases segment with
    | comment body oneLine =>
      rw [edited, sourceOf_append, sourceOf_cons, List.count_append, List.count_append, ih,
        CommentEdit.sourceOf_segments, List.count_eq_zero_of_not_mem (newline_not_mem_comment oneLine),
        List.count_eq_zero_of_not_mem (edits 0).newline_not_mem_text]
    | _ =>
      rw [edited, sourceOf_cons, sourceOf_cons, List.count_append, List.count_append, ih]
      intro _ _ same
      cases same

theorem items_edited (edits : Nat → CommentEdit) (line : Nat) (segments : List Segment) :
    items line (edited edits segments) = items line segments := by
  induction segments generalizing edits line with
  | nil => rfl
  | cons segment segments ih =>
    cases segment with
    | comment body oneLine =>
      rw [edited, items_append, CommentEdit.items_segments, CommentEdit.sourceOf_segments,
        List.count_eq_zero_of_not_mem (edits 0).newline_not_mem_text, ih, items,
        lineAfter_comment line oneLine]
      rfl
    | _ => exact congrArg (_ ++ ·) (ih edits _)

end Segment

open Segment in
/-- Whatever is done to its comments, a source is scanned alike. Each of them reaches from two slashes
to the end of their line. -/
theorem scan_commentsEdited (edits : Nat → CommentEdit) (source : String) :
    (Cursor.ofString source).pieces.flatMap Prod.snd = source.toList ∧
      (∀ before piece behind, (Cursor.ofString source).pieces = before ++ piece :: behind →
        isComment piece = true → ∃ body, piece.2 = '/' :: '/' :: body ∧ '\n' ∉ body ∧
          EndsRun (· != '\n') (behind.flatMap Prod.snd)) ∧
      scan (commentsEdited edits source) = scan source := by
  obtain ⟨segments, text, separated⟩ := exists_segments source.toList
  have pieces : (Cursor.ofString source).pieces = Segment.pieces 1 segments := by
    rw [Cursor.ofString, ← text]
    exact pieces_sourceOf [] 1 separated
  have editedText : sourceOf (edited edits segments) = (commentsEdited edits source).toList := by
    rw [commentsEdited, String.toList_ofList, pieces, editComments_pieces]
  rw [pieces]
  refine ⟨?_, ?_, scan_eq_of_items_eq ?_⟩
  · rw [flatMap_pieces, text]
  · exact fun before piece behind cut is => exists_body_of_isComment separated cut is
  · rw [Scanner.items_ofString editedText (replaces_edited edits separated).separated,
      Scanner.items_ofString text separated, items_edited, ← editedText, count_newline_edited, text]

/-- The first comment is erased, and the second one begins at the first of three slashes. -/
example : commentsEdited (fun place => if place = 0 then .erase else .rewrite ['"'] (by decide))
    "12.//@\n\"//\"///" = "12.\n\"//\"//\"" := by decide +kernel

end ScriptLexer
