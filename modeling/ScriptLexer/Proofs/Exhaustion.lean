import ScriptLexer.Proofs.Pull

namespace ScriptLexer

/-- The token that says that nothing more comes. -/
def Item.IsEnd : Item → Prop
  | .token found => found.kind = .endOfFile
  | .error _ => False

/-- The course of a search for the next item: how many lexemes are read in it, and what it leads to.
A search that went on forever would have no course. -/
inductive Cursor.Search : Cursor → Nat → Option Item × Cursor → Prop
  | ended {c : Cursor} (lexeme : c.readLexeme? = none) : c.Search 0 (none, c.restart)
  | skipped {c after : Cursor} {rounds : Nat} {result : Option Item × Cursor}
      (lexeme : c.readLexeme? = some (.skipped, after)) (later : after.Search rounds result) :
      c.Search (rounds + 1) result
  | token {c after : Cursor} {kind : Kind} {literal : Option Literal}
      (lexeme : c.readLexeme? = some (.token kind literal, after)) :
      c.Search 1 (some (.token ⟨kind, String.ofList after.taken, literal, c.line⟩), after)
  | error {c after : Cursor} {error : LexicalError}
      (lexeme : c.readLexeme? = some (.error error, after)) :
      c.Search 1 (some (.error error), after)

namespace Cursor

/-- A search has no more rounds than there are unread characters. -/
theorem exists_search (c : Cursor) : ∃ rounds, c.Search rounds c.nextItem ∧ rounds ≤ c.rest.length := by
  match lexeme : c.readLexeme? with
  | none =>
    rw [nextItem_of_end lexeme]
    exact ⟨0, .ended lexeme, Nat.zero_le _⟩
  | some (.skipped, after) =>
    have shorter := readLexeme?_rest_length_lt lexeme
    obtain ⟨rounds, later, bound⟩ := after.exists_search
    rw [nextItem_of_skipped lexeme]
    exact ⟨rounds + 1, .skipped lexeme later, by omega⟩
  | some (.token kind literal, after) =>
    have shorter := readLexeme?_rest_length_lt lexeme
    rw [nextItem_of_token lexeme]
    exact ⟨1, .token lexeme, by omega⟩
  | some (.error error, after) =>
    have shorter := readLexeme?_rest_length_lt lexeme
    rw [nextItem_of_error lexeme]
    exact ⟨1, .error lexeme, by omega⟩
termination_by c.rest.length
decreasing_by exact readLexeme?_rest_length_lt lexeme

/-- What a lexeme is read as leaves a search no choice. -/
theorem Search.unique {c : Cursor} {rounds others : Nat} {result other : Option Item × Cursor}
    (search : c.Search rounds result) (again : c.Search others other) :
    others = rounds ∧ other = result := by
  induction search generalizing others other with
  | ended lexeme => cases again <;> simp_all
  | @skipped c after rounds result lexeme later ih =>
    cases again with
    | @skipped _ elsewhere others _ otherwise more =>
      obtain rfl : elsewhere = after := by simpa [lexeme] using otherwise.symm
      obtain ⟨rfl, rfl⟩ := ih more
      exact ⟨rfl, rfl⟩
    | _ => simp_all
  | token lexeme => cases again <;> simp_all
  | error lexeme => cases again <;> simp_all

/-- A search finds nothing only where no characters are left. -/
theorem Search.rest_eq_nil {c after : Cursor} {rounds : Nat} (search : c.Search rounds (none, after)) :
    after.rest = [] := by
  generalize result : (none, after) = found at search
  induction search with
  | ended lexeme =>
    cases result
    exact readLexeme?_eq_none_iff.mp lexeme
  | skipped lexeme later ih => exact ih result
  | token lexeme => cases result
  | error lexeme => cases result

/-- The end of the file is not among what a search finds. -/
theorem Search.not_isEnd {c after : Cursor} {item : Item} {rounds : Nat}
    (search : c.Search rounds (some item, after)) : ¬item.IsEnd := by
  generalize yields : (some item, after) = result at search
  induction search with
  | ended lexeme => cases yields
  | skipped lexeme later ih => exact ih yields
  | token lexeme =>
    cases yields
    obtain ⟨segment, -, -, -, reading, -⟩ := exists_segment_of_readLexeme? lexeme
    cases segment with
    | token found =>
      cases reading
      exact found.kind_ne_endOfFile
    | _ => cases reading
  | error lexeme =>
    cases yields
    exact id

end Cursor

namespace Scanner

/-- The course of a call for the next item. -/
inductive Call : Scanner → Nat → Option Item × Scanner → Prop
  | exhausted {s : Scanner} (finished : s.finished = true) : s.Call 0 (none, s)
  | ends {s : Scanner} {rounds : Nat} {after : Cursor} (active : s.finished = false)
      (search : s.cursor.Search rounds (none, after)) :
      s.Call rounds (some (.token (.endOfFile after.line)), ⟨after, true⟩)
  | yields {s : Scanner} {rounds : Nat} {item : Item} {after : Cursor} (active : s.finished = false)
      (search : s.cursor.Search rounds (some item, after)) :
      s.Call rounds (some item, ⟨after, false⟩)

theorem exists_call (s : Scanner) : ∃ rounds, s.Call rounds s.next ∧ rounds ≤ s.cursor.rest.length := by
  obtain ⟨rounds, search, bound⟩ := s.cursor.exists_search
  rcases s.next_cases with ⟨finished, step⟩ | ⟨active, after, read, step⟩ |
    ⟨active, item, after, read, step⟩
  · rw [step]
    exact ⟨0, .exhausted finished, Nat.zero_le _⟩
  · rw [step]
    exact ⟨rounds, .ends active (read ▸ search), bound⟩
  · rw [step]
    exact ⟨rounds, .yields active (read ▸ search), bound⟩

theorem Call.unique {s : Scanner} {rounds others : Nat} {result other : Option Item × Scanner}
    (call : s.Call rounds result) (again : s.Call others other) : others = rounds ∧ other = result := by
  cases call with
  | exhausted finished => cases again <;> simp_all
  | ends active search =>
    cases again with
    | exhausted finished => simp_all
    | ends _ more =>
      obtain ⟨rfl, same⟩ := search.unique more
      cases same
      exact ⟨rfl, rfl⟩
    | yields _ more => cases (search.unique more).2
  | yields active search =>
    cases again with
    | exhausted finished => simp_all
    | ends _ more => cases (search.unique more).2
    | yields _ more =>
      obtain ⟨rfl, same⟩ := search.unique more
      cases same
      exact ⟨rfl, rfl⟩

/-- An item that is not the end of the file is paid for with characters. The end of the file is the
answer only where no more characters are, and it has no text. -/
theorem next_yields {s after : Scanner} {item : Item} (yields : s.next = (some item, after)) :
    (¬item.IsEnd → after.finished = false ∧
      ∃ text, text ≠ [] ∧ s.cursor.rest = text ++ after.cursor.rest) ∧
    (item.IsEnd → after.finished = true ∧ after.cursor.rest = [] ∧
      item = .token ⟨.endOfFile, "", none, after.cursor.line⟩) := by
  obtain ⟨rounds, call, -⟩ := s.exists_call
  obtain ⟨text, passes⟩ := s.passes_next
  have fewer := remaining_next_lt yields
  rw [yields] at call passes
  cases call with
  | ends active search =>
    exact ⟨fun notEnd => absurd rfl notEnd, fun _ => ⟨rfl, search.rest_eq_nil, rfl⟩⟩
  | yields active search =>
    refine ⟨fun _ => ⟨rfl, text, ?_, passes.rest_eq⟩, fun isEnd => absurd isEnd search.not_isEnd⟩
    rintro rfl
    simp [remaining, active, passes.rest_eq] at fewer

theorem pull_of_finished {s : Scanner} (finished : s.finished = true) (calls : Nat) :
    s.pull calls = (List.replicate calls none, s) := by
  induction calls with
  | zero => rfl
  | succ calls ih =>
    have step : s.next = (none, s) := by simp [next, finished]
    rw [pull, step, ih, List.replicate_succ]

/-- The calls from a scanner that has not finished answer with items, then with the end of the file,
and then with nothing. No more items come before the end than characters are left. -/
theorem exists_answers {s : Scanner} (active : s.finished = false) :
    ∃ (found : List Item) (line : Nat) (last : Scanner),
      s.items = found ++ [.token (.endOfFile line)] ∧ found.length ≤ s.cursor.rest.length ∧
      (∀ item ∈ found, ¬item.IsEnd) ∧ last.finished = true ∧
      ∀ more, s.pull (found.length + 1 + more) =
        (found.map some ++ some (.token (.endOfFile line)) :: List.replicate more none, last) := by
  obtain ⟨rounds, call, -⟩ := s.exists_call
  match step : s.next with
  | (answer, after) =>
    rw [step] at call
    cases call with
    | exhausted finished => exact absurd finished (active ▸ Bool.false_ne_true)
    | @ends _ last _ search =>
      have whole : s.items = [.token (.endOfFile last.line)] := by
        rw [items_of_item step, items_of_finished rfl]
      refine ⟨[], last.line, ⟨last, true⟩, whole, Nat.zero_le _, nofun, rfl, fun more => ?_⟩
      rw [List.length_nil, Nat.zero_add, Nat.add_comm, pull, step, pull_of_finished rfl]
      rfl
    | @yields _ item after _ search =>
      have fewer := remaining_next_lt step
      obtain ⟨found, line, last, whole, bound, others, finished, answers⟩ :=
        exists_answers (s := ⟨after, false⟩) rfl
      simp only [remaining, active, Bool.false_eq_true, if_false] at fewer
      refine ⟨item :: found, line, last, ?_, ?_, List.forall_mem_cons.mpr ⟨search.not_isEnd, others⟩,
        finished, fun more => ?_⟩
      · rw [items_of_item step, whole, List.cons_append]
      · rw [List.length_cons]
        dsimp only at bound
        omega
      · have count : (item :: found).length + 1 + more = found.length + 1 + more + 1 := by
          rw [List.length_cons]
          omega
        rw [count, pull, step, answers more]
        rfl
termination_by s.remaining
decreasing_by exact remaining_next_lt step

/-- As many calls as there are items answer with them, and the next one with nothing. -/
theorem pull_items_length (s : Scanner) :
    (s.pull s.items.length).1 = s.items.map some ∧ (s.pull s.items.length).2.next.1 = none := by
  cases state : s.finished with
  | true =>
    rw [items_of_finished state]
    refine ⟨rfl, ?_⟩
    simp [pull, next, state]
  | false =>
    obtain ⟨found, line, last, whole, -, -, finished, answers⟩ := exists_answers state
    rw [whole, List.length_append, List.length_singleton, ← Nat.add_zero (found.length + 1), answers 0]
    refine ⟨by simp, ?_⟩
    simp [next, finished]

/-- What a scanner that has not finished reads at once ends with the end of the file. -/
theorem exists_scanTokens {s : Scanner} (active : s.finished = false) (held : Diagnostics) :
    ∃ tokens line, (s.scanTokens held).1 = tokens ++ [.endOfFile line] ∧
      ∀ token ∈ tokens, token.kind ≠ .endOfFile := by
  obtain ⟨found, line, last, whole, -, others, -, -⟩ := exists_answers active
  refine ⟨found.filterMap Item.token?, line, ?_, ?_⟩
  · rw [scanTokens_tokens, whole, List.filterMap_append]
    rfl
  · intro token member
    obtain ⟨item, inFound, isToken⟩ := List.mem_filterMap.mp member
    cases item with
    | token _ =>
      cases isToken
      exact others _ inFound
    | error _ => cases isToken

/-- Every call comes back, after one lexeme at most for each unread character, and can do so in only
one way. An answer that is not the end of the file takes text from the source. The end of the file is
the last answer, comes once, and comes after no more others than the source has characters; the calls
behind it answer nothing and change nothing. So reading at once needs finitely many calls, and gives
the end of the file last and only there, unless the scanner had given it before. -/
theorem every_scan_ends :
    (∀ s : Scanner, ∃ rounds, s.Call rounds s.next ∧ rounds ≤ s.cursor.rest.length ∧
      ∀ others result, s.Call others result → others = rounds ∧ result = s.next) ∧
    (∀ (s after : Scanner) (item : Item), s.next = (some item, after) →
      (¬item.IsEnd → after.finished = false ∧
        ∃ text, text ≠ [] ∧ s.cursor.rest = text ++ after.cursor.rest) ∧
      (item.IsEnd → after.finished = true ∧ after.cursor.rest = [] ∧
        item = .token ⟨.endOfFile, "", none, after.cursor.line⟩)) ∧
    (∀ source : String, ∃ (found : List Item) (line : Nat) (last : Scanner),
      found.length ≤ source.toList.length ∧ (∀ item ∈ found, ¬item.IsEnd) ∧ last.finished = true ∧
      ∀ more, (Scanner.ofString source).pull (found.length + 1 + more) =
        (found.map some ++ some (.token ⟨.endOfFile, "", none, line⟩) :: List.replicate more none,
          last)) ∧
    (∀ s : Scanner, s.finished = true → ∀ calls, s.pull calls = (List.replicate calls none, s)) ∧
    (∀ (s : Scanner) (held : Diagnostics), ∃ (calls : Nat) (items : List Item),
      calls ≤ s.cursor.rest.length + 1 ∧ (s.pull calls).1 = items.map some ∧
      (s.pull calls).2.next.1 = none ∧ (s.scanTokens held).1 = items.filterMap Item.token? ∧
      (s.scanTokens held).2.toList = held.toList ++ items.filterMap Item.error?) ∧
    ∀ (s : Scanner) (held : Diagnostics), s.finished = false →
      ∃ tokens line, (s.scanTokens held).1 = tokens ++ [.endOfFile line] ∧
        ∀ token ∈ tokens, token.kind ≠ .endOfFile := by
  refine ⟨fun s => ?_, fun s after item yields => next_yields yields, fun source => ?_,
    fun s finished calls => pull_of_finished finished calls, fun s held => ?_,
    fun s held active => exists_scanTokens active held⟩
  · obtain ⟨rounds, call, bound⟩ := s.exists_call
    exact ⟨rounds, call, bound, fun others result again => call.unique again⟩
  · obtain ⟨found, line, last, -, bound, others, finished, answers⟩ :=
      exists_answers (s := Scanner.ofString source) rfl
    exact ⟨found, line, last, bound, others, finished, answers⟩
  · obtain ⟨answers, ended⟩ := s.pull_items_length
    exact ⟨s.items.length, s.items, s.items_length_le, answers, ended, s.scanTokens_tokens held,
      s.scanTokens_errors held⟩

/-- Behind a string that is left open the end of the file still comes, once. -/
theorem every_scan_ends_point :
    (∃ text, text ≠ [] ∧ ['a', '"', '\n'] = text ++ ['"', '\n']) ∧
    Scanner.pull 3 ⟨⟨[], [], 2⟩, true⟩ = ([none, none, none], ⟨⟨[], [], 2⟩, true⟩) ∧
    ∃ tokens line, ((Scanner.ofString "a\"\n").scanTokens {}).1 = tokens ++ [.endOfFile line] ∧
      ∀ token ∈ tokens, token.kind ≠ .endOfFile := by
  obtain ⟨-, yields, -, finished, -, active⟩ := every_scan_ends
  have first : (Scanner.ofString "a\"\n").next =
      (some (.token ⟨.identifier, "a", none, 1⟩), ⟨⟨['a'], ['"', '\n'], 1⟩, false⟩) := by
    decide +kernel
  have notEnd : ¬(Item.token ⟨.identifier, "a", none, 1⟩).IsEnd := Kind.noConfusion
  exact ⟨((yields _ _ _ first).1 notEnd).2, finished ⟨⟨[], [], 2⟩, true⟩ rfl 3,
    active (Scanner.ofString "a\"\n") {} rfl⟩

end Scanner

end ScriptLexer
