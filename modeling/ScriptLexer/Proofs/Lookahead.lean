import ScriptLexer.Proofs.Pull

namespace ScriptLexer

/-- Texts that no lookahead tells apart. -/
def Alike (rest other : List Char) : Prop := rest.take 2 = other.take 2

namespace Alike

variable {rest other : List Char}

theorem eq_nil (alike : Alike [] other) : other = [] := by
  cases other with
  | nil => rfl
  | cons c others => cases alike

/-- Alike texts are the same or differ only behind two characters. -/
theorem eq_or_cons_cons (alike : Alike rest other) :
    rest = other ∨ ∃ first second more otherMore,
      rest = first :: second :: more ∧ other = first :: second :: otherMore := by
  unfold Alike at alike
  match rest, other with
  | [], other => exact Or.inl (eq_nil alike).symm
  | [c], [] => cases alike
  | [c], [d] => exact Or.inl alike
  | [c], d :: e :: more => cases (List.cons.inj alike).2
  | c :: d :: more, [] => cases alike
  | c :: d :: more, [e] => cases (List.cons.inj alike).2
  | c :: d :: more, e :: f :: otherMore =>
    obtain ⟨rfl, second⟩ := List.cons.inj alike
    obtain ⟨rfl, -⟩ := List.cons.inj second
    exact Or.inr ⟨c, d, more, otherMore, rfl, rfl⟩

theorem append (text : List Char) (alike : Alike rest other) : Alike (text ++ rest) (text ++ other) := by
  rcases alike.eq_or_cons_cons with rfl | ⟨first, second, more, otherMore, rfl, rfl⟩
  · rfl
  · match text with
    | [] => rfl
    | [c] => rfl
    | c :: d :: text => rfl

/-- Sources that agree on two characters more than a text go on alike behind it. -/
theorem of_take_eq {text source : List Char}
    (agree : (text ++ rest).take (text.length + 2) = source.take (text.length + 2)) :
    ∃ behind, source = text ++ behind ∧ Alike rest behind := by
  induction text generalizing source with
  | nil => exact ⟨source, rfl, agree⟩
  | cons c text ih =>
    cases source with
    | nil => cases agree
    | cons d source =>
      obtain ⟨rfl, later⟩ := List.cons.inj agree
      obtain ⟨behind, rfl, alike⟩ := ih later
      exact ⟨behind, rfl, alike⟩

end Alike

/-- Whether a run ends is seen from one character. -/
theorem EndsRun.of_alike {inRun : Char → Bool} {rest other : List Char} (ends : EndsRun inRun rest)
    (alike : Alike rest other) : EndsRun inRun other := by
  rcases alike.eq_or_cons_cons with rfl | ⟨first, second, more, otherMore, rfl, rfl⟩
  · exact ends
  · exact endsRun_cons.mpr (endsRun_cons.mp ends)

/-- Whether a lexeme ends is seen from two. Only a number whose point may begin a fraction needs the
second one. -/
theorem Lexeme.EndsBefore.of_alike {lexeme : Lexeme} {rest other : List Char}
    (ends : lexeme.EndsBefore rest) (alike : Alike rest other) : lexeme.EndsBefore other := by
  cases lexeme with
  | delimiter c kind single => trivial
  | slash => exact EndsRun.of_alike ends alike
  | short c rule extensible => exact EndsRun.of_alike ends alike
  | long c rule extensible => trivial
  | string contents noQuote => trivial
  | number whole fraction =>
    refine ⟨ends.1.of_alike alike, ?_⟩
    rintro none behind rfl
    rcases alike.eq_or_cons_cons with rfl | ⟨first, second, more, otherMore, rfl, same⟩
    · exact ends.2 none behind rfl
    · obtain ⟨rfl, rfl⟩ := List.cons.inj same
      exact endsRun_cons.mpr (endsRun_cons.mp (ends.2 none _ rfl))
  | word first others start parts => exact EndsRun.of_alike ends alike

/-- An open string ends only with the source, and that is seen as well. -/
theorem Segment.EndsBefore.of_alike {segment : Segment} {rest other : List Char}
    (ends : segment.EndsBefore rest) (alike : Alike rest other) : segment.EndsBefore other := by
  cases segment with
  | comment body oneLine => exact EndsRun.of_alike ends alike
  | token lexeme => exact Lexeme.EndsBefore.of_alike ends alike
  | unterminated contents noQuote =>
    obtain rfl : rest = [] := ends
    exact alike.eq_nil
  | _ => trivial

namespace Cursor

/-- The same place in a source that goes on in another way. -/
def withRest (c : Cursor) (rest : List Char) : Cursor := { c with rest := rest }

theorem readLexeme?_alike {c after : Cursor} {reading : Reading}
    (lexeme : c.readLexeme? = some (reading, after)) :
    ∃ text, c.Passes text after ∧ ∀ taken other, Alike after.rest other →
      readLexeme? ⟨taken, text ++ other, c.line⟩ = some (reading, after.withRest other) := by
  obtain ⟨segment, rest, cut, ends, rfl, rfl⟩ := exists_segment_of_readLexeme? lexeme
  refine ⟨segment.text, ⟨cut, rfl⟩, ?_⟩
  intro taken other alike
  exact readLexeme?_segment taken c.line (ends.of_alike alike)

/-- Reading an item depends on the text that it passes and on two characters more. -/
theorem nextItem_alike (c : Cursor) :
    ∃ text, c.Passes text c.nextItem.2 ∧ ∀ taken other, Alike c.nextItem.2.rest other →
      nextItem ⟨taken, text ++ other, c.line⟩ = (c.nextItem.1, c.nextItem.2.withRest other) := by
  match lexeme : c.readLexeme? with
  | none =>
    have ended : c.rest = [] := readLexeme?_eq_none_iff.mp lexeme
    rw [nextItem_of_end lexeme]
    refine ⟨[], ⟨rfl, rfl⟩, ?_⟩
    intro taken other alike
    have sameEnd : other = [] := by
      rw [restart, ended] at alike
      exact alike.eq_nil
    subst sameEnd
    exact nextItem_of_end rfl
  | some (.skipped, after) =>
    obtain ⟨text, first, sameFirst⟩ := readLexeme?_alike lexeme
    obtain ⟨more, second, sameSecond⟩ := after.nextItem_alike
    rw [nextItem_of_skipped lexeme]
    refine ⟨text ++ more, first.append second, ?_⟩
    intro taken other alike
    have skips := sameFirst taken (more ++ other) (by rw [second.rest_eq]; exact alike.append more)
    rw [List.append_assoc, nextItem_of_skipped skips]
    exact sameSecond after.taken other alike
  | some (.token kind literal, after) =>
    obtain ⟨text, passes, same⟩ := readLexeme?_alike lexeme
    rw [nextItem_of_token lexeme]
    exact ⟨text, passes, fun taken other alike => nextItem_of_token (same taken other alike)⟩
  | some (.error error, after) =>
    obtain ⟨text, passes, same⟩ := readLexeme?_alike lexeme
    rw [nextItem_of_error lexeme]
    exact ⟨text, passes, fun taken other alike => nextItem_of_error (same taken other alike)⟩
termination_by c.rest.length
decreasing_by exact readLexeme?_rest_length_lt lexeme

end Cursor

namespace Scanner

/-- The same scanner in front of another text. -/
def withRest (s : Scanner) (rest : List Char) : Scanner := { s with cursor := s.cursor.withRest rest }

theorem next_alike (s : Scanner) :
    ∃ text, s.cursor.Passes text s.next.2.cursor ∧ ∀ other, Alike s.next.2.cursor.rest other →
      (s.withRest (text ++ other)).next = (s.next.1, s.next.2.withRest other) := by
  obtain ⟨text, passes, same⟩ := s.cursor.nextItem_alike
  rcases s.next_cases with ⟨finished, step⟩ | ⟨active, after, read, step⟩ | ⟨active, item, after, read, step⟩
  · rw [step]
    exact ⟨[], ⟨rfl, rfl⟩, fun other _ => by simp [next, withRest, finished]⟩
  · rw [read] at passes same
    rw [step]
    refine ⟨text, passes, fun other alike => ?_⟩
    have stillActive : (s.withRest (text ++ other)).finished = false := active
    exact next_of_end stillActive (same s.cursor.taken other alike)
  · rw [read] at passes same
    rw [step]
    refine ⟨text, passes, fun other alike => ?_⟩
    have stillActive : (s.withRest (text ++ other)).finished = false := active
    exact next_of_item stillActive (same s.cursor.taken other alike)

/-- A run of calls depends on the text that it passes and on two characters more. -/
theorem pull_alike (calls : Nat) (s : Scanner) :
    ∃ text, s.cursor.Passes text (s.pull calls).2.cursor ∧
      ∀ other, Alike (s.pull calls).2.cursor.rest other →
        (s.withRest (text ++ other)).pull calls = ((s.pull calls).1, (s.pull calls).2.withRest other) := by
  induction calls generalizing s with
  | zero => exact ⟨[], ⟨rfl, rfl⟩, fun other _ => rfl⟩
  | succ calls ih =>
    obtain ⟨text, first, sameFirst⟩ := s.next_alike
    obtain ⟨more, second, sameSecond⟩ := ih s.next.2
    refine ⟨text ++ more, first.append second, ?_⟩
    intro other alike
    have step := sameFirst (more ++ other) (by rw [second.rest_eq]; exact alike.append more)
    rw [List.append_assoc, pull, step, sameSecond other alike]
    rfl

/-- The number of characters that calls consume from the front of a source. -/
def consumed (source : String) (calls : Nat) : Nat :=
  source.toList.length - ((Scanner.ofString source).pull calls).2.cursor.rest.length

theorem consumed_add_unread (source : String) (calls : Nat) :
    consumed source calls + ((Scanner.ofString source).pull calls).2.cursor.rest.length =
      source.toList.length := by
  obtain ⟨text, passes⟩ := (Scanner.ofString source).passes_pull calls
  have cut : source.toList = text ++ ((Scanner.ofString source).pull calls).2.cursor.rest :=
    passes.rest_eq
  rw [consumed, cut, List.length_append]
  omega

/-- Sources that agree on two characters more than calls consume cannot be told apart by the calls. -/
theorem pull_congr {source other : String} {bound calls : Nat}
    (agree : source.toList.take (bound + 2) = other.toList.take (bound + 2))
    (within : consumed source calls ≤ bound) :
    ((Scanner.ofString other).pull calls).1 = ((Scanner.ofString source).pull calls).1 ∧
      consumed other calls = consumed source calls := by
  obtain ⟨text, passes, same⟩ := (Scanner.ofString source).pull_alike calls
  have cut : source.toList = text ++ ((Scanner.ofString source).pull calls).2.cursor.rest :=
    passes.rest_eq
  have length : consumed source calls = text.length := by
    have total := consumed_add_unread source calls
    have lengths := congrArg List.length cut
    rw [List.length_append] at lengths
    omega
  have shorter : text.length + 2 ≤ bound + 2 := by omega
  have agreeShorter : source.toList.take (text.length + 2) = other.toList.take (text.length + 2) := by
    have both := congrArg (List.take (text.length + 2)) agree
    rwa [List.take_take, List.take_take, Nat.min_eq_left shorter] at both
  rw [cut] at agreeShorter
  obtain ⟨behind, otherCut, alike⟩ := Alike.of_take_eq agreeShorter
  have pulled := same behind alike
  have start : (Scanner.ofString source).withRest (text ++ behind) = Scanner.ofString other := by
    rw [← otherCut]
    rfl
  rw [start] at pulled
  rw [consumed, pulled, otherCut, List.length_append, length]
  exact ⟨rfl, Nat.add_sub_cancel text.length behind.length⟩

/-- Text behind a source changes at most the last two items before the end of the file: each of the
two consumes a character of the source, so what comes before them sees two characters of it. -/
theorem exists_kept_of_append (source more : String) :
    ∃ kept changed line, (Scanner.ofString source).items =
        kept ++ changed ++ [.token (.endOfFile line)] ∧
      changed.length ≤ 2 ∧ kept <+: (Scanner.ofString (source ++ more)).items := by
  obtain ⟨found, line, split, -⟩ := exists_items_ofString source
  refine ⟨found.take (found.length - 2), found.drop (found.length - 2), line, ?_, ?_, ?_⟩
  · rw [split, List.take_append_drop]
  · rw [List.length_drop]
    omega
  by_cases few : found.length ≤ 2
  · rw [Nat.sub_eq_zero_of_le few, List.take_zero]
    exact List.nil_prefix
  -- The calls for the items that are kept leave three more, so two characters are unread.
  have left := (Scanner.ofString source).items_pull (found.length - 2)
  have remaining := ((Scanner.ofString source).pull (found.length - 2)).2.items_length_le
  have kept := (Scanner.ofString source).answered_pull (found.length - 2)
  rw [left, split, List.length_drop, List.length_append, List.length_singleton] at remaining
  have unread : consumed source (found.length - 2) + 2 ≤ source.toList.length := by
    have total := consumed_add_unread source (found.length - 2)
    omega
  have agree : source.toList.take (consumed source (found.length - 2) + 2) =
      (source ++ more).toList.take (consumed source (found.length - 2) + 2) := by
    rw [String.toList_append, List.take_append_of_le_length unread]
  have same := (pull_congr agree (Nat.le_refl _)).1
  have otherKept := (Scanner.ofString (source ++ more)).answered_pull (found.length - 2)
  rw [same, kept, split, List.take_append_of_le_length (by omega)] at otherKept
  rw [otherKept]
  exact List.take_prefix _ _

/-- What calls answer is decided by the text that they consume and two characters more. So text
appended to a source changes at most the last two items before the end of the file. -/
theorem answers_of_take_eq :
    (∀ (source other : String) (bound calls : Nat),
      source.toList.take (bound + 2) = other.toList.take (bound + 2) →
      consumed source calls ≤ bound →
      ((Scanner.ofString other).pull calls).1 = ((Scanner.ofString source).pull calls).1 ∧
        consumed other calls = consumed source calls) ∧
    ∀ source more : String, ∃ kept changed line,
      (Scanner.ofString source).items = kept ++ changed ++ [.token (.endOfFile line)] ∧
      changed.length ≤ 2 ∧ kept <+: (Scanner.ofString (source ++ more)).items :=
  ⟨fun _ _ _ _ agree within => pull_congr agree within, exists_kept_of_append⟩

/-- The point and the letter behind a number decide where it ends, and nothing further on does. -/
theorem answers_of_take_eq_point :
    "12.x 1".toList.take 4 = "12.x\"".toList.take 4 ∧ consumed "12.x 1" 1 ≤ 2 ∧
      ((Scanner.ofString "12.x\"").pull 1).1 = ((Scanner.ofString "12.x 1").pull 1).1 ∧
      consumed "12.x\"" 1 = consumed "12.x 1" 1 := by
  have agree : "12.x 1".toList.take (2 + 2) = "12.x\"".toList.take (2 + 2) := by decide
  have within : consumed "12.x 1" 1 ≤ 2 := by decide +kernel
  exact ⟨agree, within, answers_of_take_eq.1 _ _ 2 1 agree within⟩

/-- Two characters are needed: the digit behind the point is the second one. -/
example : ((Scanner.ofString "12.5").pull 1).1 ≠ ((Scanner.ofString "12.x").pull 1).1 := by
  decide +kernel

end Scanner

end ScriptLexer
