import ScriptLexer.Proofs.SegmentItems

namespace ScriptLexer

def Item.line : Item → Nat
  | .token found => found.line
  | .error found => found.line

namespace Segment

/-- The item of a segment that stands behind `before` in the source. It is on the line where the
segment begins, but a string that is never closed is reported where the source ends. -/
def itemIn? (source before : List Char) : Segment → Option Item
  | token lexeme => some (.token
      ⟨lexeme.kind, String.ofList lexeme.text, lexeme.literal, 1 + before.count '\n'⟩)
  | unexpected c _ => some (.error (.unexpectedCharacter (1 + before.count '\n') c))
  | unterminated _ _ => some (.error (.unterminatedString (1 + source.count '\n')))
  | _ => none

/-- The items of segments of which the first stands behind `before` in the source. -/
def itemsIn (source before : List Char) : List Segment → List Item
  | [] => []
  | segment :: segments =>
    (segment.itemIn? source before).toList ++ itemsIn source (before ++ segment.text) segments

/-- Counting lines from segment to segment agrees with counting newlines in the text before. -/
theorem items_eq_itemsIn {source before : List Char} {segments : List Segment}
    (cut : source = before ++ sourceOf segments) (separated : Separated segments) :
    items (1 + before.count '\n') segments = itemsIn source before segments := by
  induction segments generalizing before with
  | nil => rfl
  | cons segment segments ih =>
    obtain ⟨ends, separated⟩ := separated
    have cutBehind : source = (before ++ segment.text) ++ sourceOf segments := by
      rw [cut, sourceOf_cons, List.append_assoc]
    have lineBehind : segment.lineAfter (1 + before.count '\n') =
        1 + (before ++ segment.text).count '\n' := by
      rw [lineAfter, List.count_append]
      omega
    have sameItem : segment.item? (1 + before.count '\n') = segment.itemIn? source before := by
      cases segment with
      | unterminated contents noQuote =>
        -- Its contents are the rest of the source, so their newlines are the last ones.
        have last : sourceOf segments = [] := ends
        have whole : source.count '\n' = before.count '\n' + contents.count '\n' := by
          rw [cut, sourceOf_cons, last]
          simp [text]
        simp only [item?, itemIn?, whole, Nat.add_assoc]
      | _ => rfl
    rw [items, itemsIn, sameItem, lineBehind, ih cutBehind separated]

theorem line_le_of_item? {line : Nat} {segment : Segment} {item : Item}
    (yields : segment.item? line = some item) :
    line ≤ item.line ∧ item.line ≤ segment.lineAfter line := by
  cases segment with
  | blank c is => cases yields
  | newline => cases yields
  | comment body oneLine => cases yields
  | token lexeme =>
    cases yields
    exact ⟨Nat.le_refl _, Nat.le_add_right _ _⟩
  | unexpected c stray =>
    cases yields
    exact ⟨Nat.le_refl _, Nat.le_add_right _ _⟩
  | unterminated contents noQuote =>
    cases yields
    exact ⟨Nat.le_add_right _ _, Nat.le_of_eq (lineAfter_unterminated line noQuote).symm⟩

theorem line_le_of_mem_items {line : Nat} {segments : List Segment} {item : Item}
    (member : item ∈ items line segments) :
    line ≤ item.line ∧ item.line ≤ line + (sourceOf segments).count '\n' := by
  induction segments generalizing line with
  | nil => cases member
  | cons segment segments ih =>
    have balance := lineAfter_add_count line segment segments
    have grows : line ≤ segment.lineAfter line := Nat.le_add_right _ _
    rcases List.mem_append.mp member with own | later
    · have bounds := line_le_of_item? (Option.mem_toList.mp own)
      omega
    · have bounds := ih later
      omega

theorem items_lines_sorted (line : Nat) (segments : List Segment) :
    (items line segments).Pairwise (fun item later => item.line ≤ later.line) := by
  induction segments generalizing line with
  | nil => exact .nil
  | cons segment segments ih =>
    refine List.pairwise_append.mpr ⟨?_, ih (segment.lineAfter line), ?_⟩
    · cases segment.item? line <;> simp
    · intro item own later inLater
      have upper := (line_le_of_item? (Option.mem_toList.mp own)).2
      have lower := (line_le_of_mem_items inLater).1
      omega

/-- Every source is tiled by segments, and a scan yields exactly what they are, in their order. -/
theorem exists_tiling (source : String) :
    ∃ segments : List Segment,
      sourceOf segments = source.toList ∧
      (∀ segment ∈ segments, segment.text ≠ []) ∧
      Separated segments ∧
      (Scanner.ofString source).items =
        itemsIn source.toList [] segments ++ [.token (.endOfFile (1 + source.toList.count '\n'))] ∧
      (Scanner.ofString source).items.Pairwise (fun item later => item.line ≤ later.line) := by
  obtain ⟨segments, same, separated⟩ := exists_segments source.toList
  have yields := Scanner.items_ofString same separated
  have placed : items 1 segments = itemsIn source.toList [] segments :=
    @items_eq_itemsIn source.toList [] segments same.symm separated
  refine ⟨segments, same, fun segment _ => segment.text_ne_nil, separated, by rw [yields, placed], ?_⟩
  rw [yields]
  refine List.pairwise_append.mpr ⟨items_lines_sorted 1 segments, List.pairwise_singleton _ _, ?_⟩
  intro item member ending inEnding
  obtain rfl := List.mem_singleton.mp inEnding
  have upper := (line_le_of_mem_items member).2
  rw [same] at upper
  exact upper

end Segment

end ScriptLexer
