import Mathlib.Data.List.ReduceOption
import ScriptLexer.Proofs.TokenForm

namespace ScriptLexer

/-- `later` stands behind `text`, on the line to which the newlines of the text lead. -/
structure Cursor.Passes (c : Cursor) (text : List Char) (later : Cursor) : Prop where
  rest_eq : c.rest = text ++ later.rest
  line_eq : later.line = c.line + text.count '\n'

theorem Cursor.Passes.append {c middle later : Cursor} {text more : List Char}
    (first : c.Passes text middle) (second : middle.Passes more later) :
    c.Passes (text ++ more) later := by
  refine ⟨by rw [first.rest_eq, second.rest_eq, List.append_assoc], ?_⟩
  have lines := second.line_eq
  have earlier := first.line_eq
  rw [List.count_append]
  omega

namespace Cursor

/-- What is read as one lexeme is a segment that ends before what is left. -/
theorem exists_segment_of_readLexeme? {c after : Cursor} {reading : Reading}
    (lexeme : c.readLexeme? = some (reading, after)) :
    ∃ (segment : Segment) (rest : List Char), c.rest = segment.text ++ rest ∧
      segment.EndsBefore rest ∧ reading = segment.reading c.line ∧
      after = ⟨segment.text, rest, segment.lineAfter c.line⟩ := by
  obtain ⟨taken, source, line⟩ := c
  cases source with
  | nil => cases lexeme
  | cons first others =>
    obtain ⟨segment, rest, cut, ends⟩ := Segment.opens_cons first others
    have read := readLexeme?_segment taken line ends
    rw [← cut, lexeme] at read
    obtain ⟨sameReading, sameAfter⟩ := Prod.mk.inj (Option.some.inj read)
    exact ⟨segment, rest, cut, ends, sameReading, sameAfter⟩

theorem passes_of_readLexeme? {c after : Cursor} {reading : Reading}
    (lexeme : c.readLexeme? = some (reading, after)) : ∃ text, c.Passes text after := by
  obtain ⟨segment, rest, cut, -, -, rfl⟩ := exists_segment_of_readLexeme? lexeme
  exact ⟨segment.text, cut, rfl⟩

/-- Reading an item passes what is skipped before it and its own text. -/
theorem passes_nextItem (c : Cursor) : ∃ text, c.Passes text c.nextItem.2 := by
  match lexeme : c.readLexeme? with
  | none =>
    have ended : c.rest = [] := readLexeme?_eq_none_iff.mp lexeme
    rw [nextItem_of_end lexeme]
    exact ⟨[], rfl, rfl⟩
  | some (.skipped, after) =>
    obtain ⟨text, first⟩ := passes_of_readLexeme? lexeme
    obtain ⟨more, second⟩ := after.passes_nextItem
    rw [nextItem_of_skipped lexeme]
    exact ⟨text ++ more, first.append second⟩
  | some (.token kind literal, after) =>
    rw [nextItem_of_token lexeme]
    exact passes_of_readLexeme? lexeme
  | some (.error error, after) =>
    rw [nextItem_of_error lexeme]
    exact passes_of_readLexeme? lexeme
termination_by c.rest.length
decreasing_by exact readLexeme?_rest_length_lt lexeme

end Cursor

namespace Scanner

/-- The answers to a number of calls for the next item, and the scanner that they leave. -/
def pull : Nat → Scanner → List (Option Item) × Scanner
  | 0, s => ([], s)
  | calls + 1, s => (s.next.1 :: (pull calls s.next.2).1, (pull calls s.next.2).2)

theorem next_of_end {s : Scanner} {after : Cursor} (active : s.finished = false)
    (read : s.cursor.nextItem = (none, after)) :
    s.next = (some (.token (.endOfFile after.line)), ⟨after, true⟩) := by
  simp [next, active, read]

theorem next_of_item {s : Scanner} {after : Cursor} {item : Item} (active : s.finished = false)
    (read : s.cursor.nextItem = (some item, after)) : s.next = (some item, ⟨after, false⟩) := by
  simp [next, active, read]

/-- All that a call can do: nothing when the scanner has finished, finish it at the end of the
source, or read an item. -/
theorem next_cases (s : Scanner) :
    (s.finished = true ∧ s.next = (none, s)) ∨
    (s.finished = false ∧ ∃ after, s.cursor.nextItem = (none, after) ∧
      s.next = (some (.token (.endOfFile after.line)), ⟨after, true⟩)) ∨
    (s.finished = false ∧ ∃ item after, s.cursor.nextItem = (some item, after) ∧
      s.next = (some item, ⟨after, false⟩)) := by
  cases state : s.finished with
  | true => exact Or.inl ⟨rfl, by simp [next, state]⟩
  | false =>
    rcases read : s.cursor.nextItem with ⟨_ | item, after⟩
    · exact Or.inr (Or.inl ⟨rfl, after, rfl, next_of_end state read⟩)
    · exact Or.inr (Or.inr ⟨rfl, item, after, rfl, next_of_item state read⟩)

theorem passes_next (s : Scanner) : ∃ text, s.cursor.Passes text s.next.2.cursor := by
  have passes := s.cursor.passes_nextItem
  rcases s.next_cases with ⟨-, step⟩ | ⟨-, after, read, step⟩ | ⟨-, item, after, read, step⟩
  · rw [step]
    exact ⟨[], rfl, rfl⟩
  · rw [read] at passes
    rw [step]
    exact passes
  · rw [read] at passes
    rw [step]
    exact passes

/-- However many calls are made, they pass some text from the front of what was unread. -/
theorem passes_pull (calls : Nat) (s : Scanner) :
    ∃ text, s.cursor.Passes text (s.pull calls).2.cursor := by
  induction calls generalizing s with
  | zero => exact ⟨[], rfl, rfl⟩
  | succ calls ih =>
    obtain ⟨text, first⟩ := s.passes_next
    obtain ⟨more, second⟩ := ih s.next.2
    exact ⟨text ++ more, first.append second⟩

/-- A call answers with the first item and leaves the others, or there are none before and after. -/
theorem items_next (s : Scanner) :
    (s.next.1 = none ∧ s.items = [] ∧ s.next.2.items = []) ∨
      ∃ item, s.next.1 = some item ∧ s.items = item :: s.next.2.items := by
  rcases s.next_cases with ⟨-, step⟩ | ⟨-, after, -, step⟩ | ⟨-, item, after, -, step⟩
  · have ended := items_of_end step
    rw [step]
    exact Or.inl ⟨rfl, ended, ended⟩
  · rw [items_of_item step, step]
    exact Or.inr ⟨_, rfl, rfl⟩
  · rw [items_of_item step, step]
    exact Or.inr ⟨item, rfl, rfl⟩

/-- No scanner yields more items than it has characters and an end. -/
theorem items_length_le_remaining (s : Scanner) : s.items.length ≤ s.remaining := by
  match step : s.next with
  | (none, _) =>
    rw [items_of_end step]
    exact Nat.zero_le _
  | (some item, after) =>
    have fewer := remaining_next_lt step
    have later := after.items_length_le_remaining
    rw [items_of_item step, List.length_cons]
    omega
termination_by s.remaining
decreasing_by exact remaining_next_lt step

theorem items_length_le (s : Scanner) : s.items.length ≤ s.cursor.rest.length + 1 := by
  have bound := s.items_length_le_remaining
  unfold remaining at bound
  split at bound <;> omega

theorem items_pull (calls : Nat) (s : Scanner) : (s.pull calls).2.items = s.items.drop calls := by
  induction calls generalizing s with
  | zero => rfl
  | succ calls ih =>
    rw [pull, ih s.next.2]
    rcases s.items_next with ⟨-, empty, emptyAfter⟩ | ⟨item, -, split⟩
    · rw [empty, emptyAfter, List.drop_nil, List.drop_nil]
    · rw [split, List.drop_succ_cons]

/-- The items among the answers are the first of all. -/
theorem answered_pull (calls : Nat) (s : Scanner) :
    (s.pull calls).1.reduceOption = s.items.take calls := by
  induction calls generalizing s with
  | zero => rfl
  | succ calls ih =>
    have later := ih s.next.2
    rcases s.items_next with ⟨answer, empty, emptyAfter⟩ | ⟨item, answer, split⟩
    · rw [emptyAfter, List.take_nil] at later
      rw [pull, answer, List.reduceOption_cons_of_none, later, empty, List.take_nil]
    · rw [pull, answer, List.reduceOption_cons_of_some, later, split, List.take_succ_cons]

/-- The end of the file comes last, and nothing before it is of its kind. -/
theorem exists_items_ofString (source : String) :
    ∃ found line, (Scanner.ofString source).items = found ++ [.token (.endOfFile line)] ∧
      ∀ token, Item.token token ∈ found → token.kind ≠ .endOfFile := by
  obtain ⟨segments, same, separated⟩ := Segment.exists_segments source.toList
  refine ⟨_, _, items_ofString same separated, ?_⟩
  intro token member
  obtain ⟨segment, -, line, yields⟩ := Segment.exists_of_mem_items member
  obtain ⟨lexeme, -, rfl⟩ := Segment.exists_lexeme_of_item? yields
  exact lexeme.kind_ne_endOfFile

/-- Nothing is left exactly when the end of the file was among the answers. -/
theorem items_pull_eq_nil_iff (source : String) (calls : Nat) :
    ((Scanner.ofString source).pull calls).2.items = [] ↔
      ∃ token, some (.token token) ∈ ((Scanner.ofString source).pull calls).1 ∧
        token.kind = .endOfFile := by
  obtain ⟨found, line, split, notEnd⟩ := exists_items_ofString source
  have answered := (Scanner.ofString source).answered_pull calls
  rw [items_pull, List.drop_eq_nil_iff]
  constructor
  · intro all
    rw [List.take_of_length_le all, split] at answered
    refine ⟨.endOfFile line, List.reduceOption_mem_iff.mp ?_, rfl⟩
    rw [answered]
    exact List.mem_append_right found (List.mem_singleton_self _)
  · rintro ⟨token, member, ending⟩
    have early := List.reduceOption_mem_iff.mpr member
    rw [split] at answered ⊢
    by_contra short
    rw [List.length_append, List.length_singleton] at short
    rw [answered, List.take_append_of_le_length (by omega)] at early
    exact notEnd token (List.mem_of_mem_take early) ending

end Scanner

end ScriptLexer
