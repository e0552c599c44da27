import ScriptLexer.Proofs.Found
import ScriptLexer.Proofs.Inside
import ScriptLexer.Proofs.Replacement
import ScriptLexer.Proofs.Tiling

namespace ScriptLexer

def LexicalError.isUnexpected : LexicalError → Bool
  | unexpectedCharacter _ _ => true
  | _ => false

def Item.isUnexpected : Item → Bool
  | .token _ => false
  | .error found => found.isUnexpected

namespace Scanner

/-- The places of the characters still to be reported, in a source of the given length. The call that
reports a character takes it last, so it stands right in front of what is unread then. -/
def reportedPlaces (length : Nat) (s : Scanner) : List Nat :=
  match _step : s.next with
  | (none, _) => []
  | (some item, after) =>
    (if item.isUnexpected then [length - (after.cursor.rest.length + 1)] else []) ++
      after.reportedPlaces length
termination_by s.remaining
decreasing_by exact remaining_next_lt _step

end Scanner

/-- The places of the characters that a scan of the source reports. -/
def reportedPlaces (source : String) : List Nat :=
  (Scanner.ofString source).reportedPlaces source.toList.length

/-- The source with a space in the place of every character that its scan reports. -/
def blanked (source : String) : String :=
  String.ofList (source.toList.mapIdx fun place c => if place ∈ reportedPlaces source then ' ' else c)

namespace Scanner

variable {length : Nat}

theorem reportedPlaces_of_end {s after : Scanner} (ended : s.next = (none, after)) :
    s.reportedPlaces length = [] := by
  rw [reportedPlaces]
  split <;> simp_all

theorem reportedPlaces_of_item {s after : Scanner} {item : Item} (yields : s.next = (some item, after)) :
    s.reportedPlaces length =
      (if item.isUnexpected then [length - (after.cursor.rest.length + 1)] else []) ++
        after.reportedPlaces length := by
  rw [reportedPlaces]
  split <;> simp_all

theorem reportedPlaces_of_skipped {c after : Cursor} (lexeme : c.readLexeme? = some (.skipped, after)) :
    reportedPlaces length ⟨c, false⟩ = reportedPlaces length ⟨after, false⟩ := by
  have same : next ⟨c, false⟩ = next ⟨after, false⟩ := by
    simp only [next, Cursor.nextItem_of_skipped lexeme, Bool.false_eq_true, if_false]
  cases step : next ⟨c, false⟩ with
  | mk answer rest =>
    cases answer with
    | none => rw [reportedPlaces_of_end step, reportedPlaces_of_end (same.symm.trans step)]
    | some item => rw [reportedPlaces_of_item step, reportedPlaces_of_item (same.symm.trans step)]

end Scanner

theorem ne_newline_of_stray {c : Char} (stray : Lead.of c = .stray) : c ≠ '\n' := by
  rintro rfl
  cases stray

namespace Segment

def isUnexpected : Segment → Bool
  | unexpected _ _ => true
  | _ => false

theorem isBlank_space : isBlank ' ' = true := rfl

/-- Nothing but a stray character is made a blank. -/
def blanked : Segment → Segment
  | unexpected _ _ => .blank ' ' isBlank_space
  | segment => segment

/-- The places of the stray characters in segments of which the first stands at `start`. -/
def strayPlaces (start : Nat) : List Segment → List Nat
  | [] => []
  | segment :: segments => (if segment.isUnexpected then [start] else []) ++
      strayPlaces (start + segment.text.length) segments

theorem exists_of_mem_strayPlaces {start place : Nat} {segments : List Segment}
    (member : place ∈ strayPlaces start segments) :
    ∃ before c stray behind, segments = before ++ unexpected c stray :: behind ∧
      place = start + (sourceOf before).length := by
  induction segments generalizing start with
  | nil => cases member
  | cons segment segments ih =>
    rcases List.mem_append.mp member with own | later
    · cases segment with
      | unexpected c stray => exact ⟨[], c, stray, segments, rfl, List.mem_singleton.mp own⟩
      | _ => cases own
    · obtain ⟨before, c, stray, behind, rfl, same⟩ := ih later
      refine ⟨segment :: before, c, stray, behind, rfl, ?_⟩
      rw [same, sourceOf_cons, List.length_append, Nat.add_assoc]

theorem le_of_mem_strayPlaces {start place : Nat} {segments : List Segment}
    (member : place ∈ strayPlaces start segments) : start ≤ place := by
  obtain ⟨before, -, -, -, -, same⟩ := exists_of_mem_strayPlaces member
  omega

/-- Spaces in the places of the stray characters change a segment only if it is one. -/
theorem mapIdx_text (start : Nat) (segment : Segment) (segments : List Segment) :
    segment.text.mapIdx (fun place c =>
      if start + place ∈ strayPlaces start (segment :: segments) then ' ' else c) =
        segment.blanked.text := by
  by_cases stray : segment.isUnexpected = true
  · cases segment with
    | unexpected c stray => simp [text, blanked, strayPlaces, isUnexpected]
    | _ => cases stray
  · have kept : segment.blanked = segment := by
      cases segment with
      | unexpected c stray => exact absurd rfl stray
      | _ => rfl
    rw [kept]
    refine List.ext_getElem List.length_mapIdx fun place _ inText => ?_
    have absent : start + place ∉ strayPlaces start (segment :: segments) := by
      intro member
      rw [strayPlaces, if_neg stray, List.nil_append] at member
      have bound := le_of_mem_strayPlaces member
      omega
    rw [List.getElem_mapIdx, if_neg absent]

theorem mapIdx_sourceOf (start : Nat) (segments : List Segment) :
    (sourceOf segments).mapIdx
        (fun place c => if start + place ∈ strayPlaces start segments then ' ' else c) =
      sourceOf (segments.map blanked) := by
  induction segments generalizing start with
  | nil => rfl
  | cons segment segments ih =>
    have later (place : Nat) :
        start + (place + segment.text.length) ∈ strayPlaces start (segment :: segments) ↔
          start + segment.text.length + place ∈ strayPlaces (start + segment.text.length) segments := by
      have positive := List.length_pos_iff.mpr segment.text_ne_nil
      have behind : start + segment.text.length + place ≠ start := by omega
      rw [Nat.add_comm place, ← Nat.add_assoc, strayPlaces, List.mem_append]
      split <;> simp [behind]
    rw [List.map_cons, sourceOf_cons, sourceOf_cons, List.mapIdx_append, mapIdx_text,
      ← ih (start + segment.text.length)]
    simp only [later]

/-- The unexpected characters among the errors are the stray ones, each with the line of its place. -/
theorem filter_isUnexpected_itemsIn {source before : List Char} {segments : List Segment}
    (cut : source = before ++ sourceOf segments) :
    ((itemsIn source before segments).filterMap Item.error?).filter (·.isUnexpected) =
      (strayPlaces before.length segments).filterMap fun place =>
        source[place]?.map (.unexpectedCharacter (1 + (source.take place).count '\n')) := by
  induction segments generalizing before with
  | nil => rfl
  | cons segment segments ih =>
    have cutBehind : source = (before ++ segment.text) ++ sourceOf segments := by
      rw [cut, sourceOf_cons, List.append_assoc]
    have later := ih cutBehind
    rw [List.length_append] at later
    rw [itemsIn, strayPlaces, List.filterMap_append, List.filter_append, List.filterMap_append, later]
    refine congrArg (· ++ _) ?_
    cases segment with
    | unexpected c stray =>
      have atPlace : source[before.length]? = some c := by rw [cut]; simp [text]
      have inFront : source.take before.length = before := by rw [cut, List.take_left]
      simp [itemIn?, isUnexpected, LexicalError.isUnexpected, Item.error?, atPlace, inFront]
    | _ => rfl

theorem replaces_blanked {segments : List Segment} (separated : Separated segments) :
    Replaces segments (segments.map blanked) := by
  induction segments with
  | nil => exact replaces_nil
  | cons segment segments ih =>
    obtain ⟨ends, separated⟩ := separated
    have replaces := ih separated
    cases segment with
    | unexpected c stray =>
      have foreign : ∀ (lexeme : Lexeme) (more : List Char), lexeme.EndsBefore (' ' :: more) :=
        fun lexeme more => lexeme.endsBefore_space rfl more
      exact ⟨⟨trivial, replaces.separated⟩, mayReplace_cons foreign rfl (ne_newline_of_stray stray) _ _⟩
    | _ => exact replaces.cons ends

theorem count_newline_blanked (segments : List Segment) :
    (sourceOf (segments.map blanked)).count '\n' = (sourceOf segments).count '\n' := by
  induction segments with
  | nil => rfl
  | cons segment segments ih =>
    rw [List.map_cons, sourceOf_cons, sourceOf_cons, List.count_append, List.count_append, ih]
    cases segment with
    | unexpected c stray =>
      have noNewline : (unexpected c stray).text.count '\n' = 0 := by
        simpa [text, List.count_singleton] using ne_newline_of_stray stray
      rw [noNewline]
      rfl
    | _ => rfl

theorem items_blanked (line : Nat) (segments : List Segment) :
    items line (segments.map blanked) = (items line segments).filter (!·.isUnexpected) := by
  induction segments generalizing line with
  | nil => rfl
  | cons segment segments ih =>
    rw [List.map_cons, items, items, List.filter_append, ← ih]
    cases segment with
    | unexpected c stray => rw [lineAfter_unexpected line stray]; rfl
    | _ => rfl

end Segment

namespace Scanner

theorem reportedPlaces_segment {segment : Segment} {rest : List Char} {length : Nat}
    (taken : List Char) (line : Nat) (ends : segment.EndsBefore rest) :
    reportedPlaces length ⟨⟨taken, segment.text ++ rest, line⟩, false⟩ =
      (if segment.isUnexpected then [length - (rest.length + 1)] else []) ++
        reportedPlaces length ⟨⟨segment.text, rest, segment.lineAfter line⟩, false⟩ := by
  have step := Cursor.readLexeme?_segment taken line ends
  have active (c : Cursor) : (Scanner.mk c false).finished = false := rfl
  cases segment with
  | blank c is => exact reportedPlaces_of_skipped step
  | newline => exact reportedPlaces_of_skipped step
  | comment body oneLine => exact reportedPlaces_of_skipped step
  | token lexeme =>
    exact reportedPlaces_of_item (next_of_item (active _) (Cursor.nextItem_of_token step))
  | unexpected c stray =>
    exact reportedPlaces_of_item (next_of_item (active _) (Cursor.nextItem_of_error step))
  | unterminated contents noQuote =>
    exact reportedPlaces_of_item (next_of_item (active _) (Cursor.nextItem_of_error step))

/-- The scanner reports the stray characters, each in its place. -/
theorem reportedPlaces_sourceOf {segments : List Segment} {start length : Nat} (taken : List Char)
    (line : Nat) (separated : Segment.Separated segments)
    (whole : start + (Segment.sourceOf segments).length = length) :
    reportedPlaces length ⟨⟨taken, Segment.sourceOf segments, line⟩, false⟩ =
      Segment.strayPlaces start segments := by
  induction segments generalizing taken line start with
  | nil =>
    have ended : Cursor.readLexeme? ⟨taken, [], line⟩ = none := rfl
    have step : next ⟨⟨taken, [], line⟩, false⟩ = _ := next_of_end rfl (Cursor.nextItem_of_end ended)
    exact (reportedPlaces_of_item step).trans (reportedPlaces_of_end rfl)
  | cons segment segments ih =>
    obtain ⟨ends, separated⟩ := separated
    rw [Segment.sourceOf_cons, List.length_append] at whole
    have behind : start + segment.text.length + (Segment.sourceOf segments).length = length := by omega
    rw [Segment.sourceOf_cons, reportedPlaces_segment taken line ends, ih _ _ separated behind,
      Segment.strayPlaces]
    by_cases stray : segment.isUnexpected = true
    · have single : segment.text.length = 1 := by
        cases segment with
        | unexpected c stray => rfl
        | _ => cases stray
      have place : length - ((Segment.sourceOf segments).length + 1) = start := by omega
      rw [place]
    · rw [if_neg stray, if_neg stray]

end Scanner

theorem filterMap_token?_filter (items : List Item) :
    (items.filter (!·.isUnexpected)).filterMap Item.token? = items.filterMap Item.token? := by
  rw [List.filterMap_filter]
  refine List.filterMap_congr fun item _ => ?_
  cases item with
  | token found => rfl
  | error found => exact ite_self none

theorem filterMap_error?_filter (items : List Item) :
    (items.filter (!·.isUnexpected)).filterMap Item.error? =
      (items.filterMap Item.error?).filter (!·.isUnexpected) := by
  rw [List.filterMap_filter, List.filter_filterMap]
  refine List.filterMap_congr fun item _ => ?_
  cases item with
  | token found => rfl
  | error found => rfl

section Tiled

variable {source : String} {segments : List Segment} (text : Segment.sourceOf segments = source.toList)
  (separated : Segment.Separated segments)
include text separated

theorem reportedPlaces_eq_strayPlaces : reportedPlaces source = Segment.strayPlaces 0 segments := by
  unfold reportedPlaces Scanner.ofString Cursor.ofString
  rw [← text]
  exact Scanner.reportedPlaces_sourceOf [] 1 separated (Nat.zero_add _)

theorem sourceOf_blanked : Segment.sourceOf (segments.map Segment.blanked) = (blanked source).toList := by
  rw [blanked, String.toList_ofList, reportedPlaces_eq_strayPlaces text separated, ← text,
    ← Segment.mapIdx_sourceOf 0]
  simp only [Nat.zero_add]

/-- Whatever is reported stands in code, or behind a slash. -/
theorem isOpaque_of_mem_reportedPlaces {place : Nat} (member : place ∈ reportedPlaces source) :
    (Region.code.after (source.toList.take place)).isOpaque = false := by
  rw [reportedPlaces_eq_strayPlaces text separated] at member
  obtain ⟨before, c, stray, behind, rfl, same⟩ := Segment.exists_of_mem_strayPlaces member
  have asCode := Region.asCode_sourceOf separated (.inCode _)
  rw [← text, same, Nat.zero_add, Segment.sourceOf_append, List.take_left]
  rcases asCode.eq_code_or_slash (ne_newline_of_stray stray) with region | region <;> rw [region] <;> rfl

end Tiled

/-- With a space in the place of every character that a scan reports, the tokens are the same and all
errors but those. What stands in a string or a comment is not reported and stays. -/
theorem scan_blanked (source : String) :
    (scan source).2.toList.filter (·.isUnexpected) =
        (reportedPlaces source).filterMap (fun place => source.toList[place]?.map
          (.unexpectedCharacter (1 + (source.toList.take place).count '\n'))) ∧
      (scan (blanked source)).1 = (scan source).1 ∧
      (scan (blanked source)).2.toList = (scan source).2.toList.filter (!·.isUnexpected) ∧
      ∀ place, (Region.code.after (source.toList.take place)).isOpaque = true →
        place ∉ reportedPlaces source ∧
          (blanked source).toList[place]? = source.toList[place]? := by
  obtain ⟨segments, text, separated⟩ := Segment.exists_segments source.toList
  have blankedText := sourceOf_blanked text separated
  have separatedBlanked := (Segment.replaces_blanked separated).separated
  have sameCount : (blanked source).toList.count '\n' = source.toList.count '\n' := by
    rw [← blankedText, ← text, Segment.count_newline_blanked]
  refine ⟨?_, ?_, ?_, ?_⟩
  · have placed := @Segment.items_eq_itemsIn source.toList [] segments text.symm separated
    rw [scan_errors_of_segments text separated, reportedPlaces_eq_strayPlaces text separated]
    exact (congrArg (List.filter _ <| List.filterMap _ ·) placed).trans
      (Segment.filter_isUnexpected_itemsIn text.symm)
  · rw [scan_tokens_of_segments blankedText separatedBlanked, scan_tokens_of_segments text separated,
      Segment.items_blanked, sameCount, filterMap_token?_filter]
  · rw [scan_errors_of_segments blankedText separatedBlanked, scan_errors_of_segments text separated,
      Segment.items_blanked, filterMap_error?_filter]
  · intro place inside
    have absent : place ∉ reportedPlaces source := by
      intro member
      rw [isOpaque_of_mem_reportedPlaces text separated member] at inside
      cases inside
    refine ⟨absent, ?_⟩
    rw [blanked, String.toList_ofList, List.getElem?_mapIdx]
    simp only [absent, if_false, Option.map_id_fun', id_eq]

/-- The space keeps apart what the character kept apart, and in a string or a comment there is none. -/
example : blanked "=@=\"@\"//@\n12.é5" = "= =\"@\"//@\n12. 5" := by decide +kernel

end ScriptLexer
