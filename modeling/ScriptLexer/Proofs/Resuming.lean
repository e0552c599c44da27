import ScriptLexer.Proofs.LineBreak
import ScriptLexer.Proofs.Pull

namespace ScriptLexer

namespace Scanner

/-- Whatever was taken before, an unfinished scanner yields what its unread text yields on its own,
further down. -/
theorem items_of_unread (taken rest : List Char) (lines : Nat) :
    items ⟨⟨taken, rest, 1 + lines⟩, false⟩ =
      (Scanner.ofString (String.ofList rest)).items.map (Item.addLines lines) := by
  obtain ⟨segments, same, separated⟩ := Segment.exists_segments rest
  have unread := items_sourceOf taken (1 + lines) separated
  have fresh := items_ofString (same.trans String.toList_ofList.symm) separated
  have ending : Item.token (.endOfFile (1 + lines + rest.count '\n')) =
      Item.addLines lines (.token (.endOfFile (1 + rest.count '\n'))) := by
    rw [Nat.add_right_comm]
    rfl
  rw [same] at unread
  rw [unread, fresh, Segment.items_addLines, List.map_append, List.map_singleton, ending,
    String.toList_ofList]

variable {source : String} {calls : Nat} {answers : List (Option Item)} {left : Scanner}

theorem items_left (pulled : (Scanner.ofString source).pull calls = (answers, left)) :
    answers.reduceOption ++ left.items = (Scanner.ofString source).items := by
  have answered := (Scanner.ofString source).answered_pull calls
  have unread := (Scanner.ofString source).items_pull calls
  rw [pulled] at answered unread
  rw [answered, unread, List.take_append_drop]

theorem items_left_eq_nil_iff (pulled : (Scanner.ofString source).pull calls = (answers, left)) :
    left.items = [] ↔ ∃ token, some (.token token) ∈ answers ∧ token.kind = .endOfFile := by
  have exhausted := items_pull_eq_nil_iff source calls
  rwa [pulled] at exhausted

/-- As long as the end of the file is not among the answers, a scanner that was pulled from goes on
as a new one would on the unread text, from the line that it has reached. -/
theorem items_left_eq_unread (pulled : (Scanner.ofString source).pull calls = (answers, left))
    (unfinished : ∀ token, some (.token token) ∈ answers → token.kind ≠ .endOfFile) :
    ∃ passed, source.toList = passed ++ left.cursor.rest ∧
      left.cursor.line = 1 + passed.count '\n' ∧
      left.items = (Scanner.ofString (String.ofList left.cursor.rest)).items.map
        (Item.addLines (left.cursor.line - 1)) := by
  obtain ⟨passed, passes⟩ := (Scanner.ofString source).passes_pull calls
  rw [pulled] at passes
  have active : left.finished = false := by
    apply Bool.eq_false_iff.mpr
    intro finished
    obtain ⟨token, member, ending⟩ := (items_left_eq_nil_iff pulled).mp (items_of_finished finished)
    exact unfinished token member ending
  have line : left.cursor.line = 1 + passed.count '\n' := passes.line_eq
  refine ⟨passed, passes.rest_eq, line, ?_⟩
  rw [line, Nat.add_sub_cancel_left, ← items_of_unread, ← line, ← active]

/-- Behind a digit run whose point was looked at in vain, after an error and a string of two lines,
nothing is left over but the line. -/
theorem items_left_eq_unread_point :
    ∃ answers left, (Scanner.ofString "@ \"\n\" 12.\n5 #").pull 3 = (answers, left) ∧
      (∀ token, some (.token token) ∈ answers → token.kind ≠ .endOfFile) ∧
      left.cursor.rest = ['.', '\n', '5', ' ', '#'] ∧
      left.items = (Scanner.ofString ".\n5 #").items.map (Item.addLines 1) := by
  have pulled : (Scanner.ofString "@ \"\n\" 12.\n5 #").pull 3 =
      ([some (.error (.unexpectedCharacter 1 '@')),
        some (.token ⟨.string, "\"\n\"", some (.string "\n"), 1⟩),
        some (.token ⟨.number, "12", some (.number (.ofDecimal ⟨12, 0⟩)), 2⟩)],
        ⟨⟨['1', '2'], ['.', '\n', '5', ' ', '#'], 2⟩, false⟩) := by
    decide +kernel
  have unfinished : ∀ token, some (Item.token token) ∈ [some (.error (.unexpectedCharacter 1 '@')),
      some (.token ⟨.string, "\"\n\"", some (.string "\n"), 1⟩),
      some (.token ⟨.number, "12", some (.number (.ofDecimal ⟨12, 0⟩)), 2⟩)] →
      token.kind ≠ .endOfFile := by
    intro token member
    simp only [List.mem_cons, Option.some.injEq, reduceCtorEq, Item.token.injEq, false_or,
      List.not_mem_nil, or_false] at member
    rcases member with rfl | rfl <;> decide
  obtain ⟨passed, -, -, same⟩ := items_left_eq_unread pulled unfinished
  exact ⟨_, _, pulled, unfinished, rfl, same⟩

/-- Reading the rest at once, after any number of pulls and behind any errors held, completes the
tokens and the errors of the whole scan. -/
theorem scanTokens_left {held reported : Diagnostics} {tokens : List Token}
    (pulled : (Scanner.ofString source).pull calls = (answers, left))
    (batch : left.scanTokens held = (tokens, reported)) :
    answers.reduceOption.filterMap Item.token? ++ tokens = (scan source).1 ∧
    reported.toList = held.toList ++ left.items.filterMap Item.error? ∧
    answers.reduceOption.filterMap Item.error? ++ left.items.filterMap Item.error? =
      (scan source).2.toList ∧
    (∀ others, (left.scanTokens others).1 = tokens) ∧
    ((∃ token, some (.token token) ∈ answers ∧ token.kind = .endOfFile) →
      tokens = [] ∧ reported = held) := by
  have whole := items_left pulled
  have sameTokens : tokens = left.items.filterMap Item.token? := by
    rw [← left.scanTokens_tokens held, batch]
  have sameErrors : reported.toList = held.toList ++ left.items.filterMap Item.error? := by
    rw [← left.scanTokens_errors held, batch]
  refine ⟨?_, sameErrors, ?_, ?_, ?_⟩
  · rw [sameTokens, ← List.filterMap_append, whole]
    exact ((Scanner.ofString source).scanTokens_tokens {}).symm
  · rw [← List.filterMap_append, whole]
    exact ((Scanner.ofString source).scanTokens_errors {}).symm
  · intro others
    rw [scanTokens_tokens]
    exact sameTokens.symm
  · intro ended
    have empty := (items_left_eq_nil_iff pulled).mpr ended
    rw [empty] at sameTokens sameErrors
    exact ⟨sameTokens, Diagnostics.ext_toList (by simpa using sameErrors)⟩

/-- The first error is pulled and the last one reported behind an older one. After the end of the file
there is nothing to report. -/
theorem scanTokens_left_point :
    ∃ answers left, (Scanner.ofString "a @ \"").pull 2 = (answers, left) ∧
      answers.reduceOption.filterMap Item.token? ++
        (left.scanTokens ⟨#[.unterminatedString 7]⟩).1 = (scan "a @ \"").1 ∧
      (left.scanTokens ⟨#[.unterminatedString 7]⟩).2.toList =
        [.unterminatedString 7, .unterminatedString 1] ∧
    ∃ answers left, (Scanner.ofString "a @ \"").pull 6 = (answers, left) ∧
      left.scanTokens ⟨#[.unterminatedString 7]⟩ = ([], ⟨#[.unterminatedString 7]⟩) := by
  have early : (Scanner.ofString "a @ \"").pull 2 =
      ([some (.token ⟨.identifier, "a", none, 1⟩), some (.error (.unexpectedCharacter 1 '@'))],
        ⟨⟨['@'], [' ', '"'], 1⟩, false⟩) := by
    decide +kernel
  have late : (Scanner.ofString "a @ \"").pull 6 =
      ([some (.token ⟨.identifier, "a", none, 1⟩), some (.error (.unexpectedCharacter 1 '@')),
        some (.error (.unterminatedString 1)), some (.token (.endOfFile 1)), none, none],
        ⟨⟨[], [], 1⟩, true⟩) := by
    decide +kernel
  have unread : items ⟨⟨['@'], [' ', '"'], 1⟩, false⟩ =
      [.error (.unterminatedString 1), .token (.endOfFile 1)] := by
    decide +kernel
  have batch (s : Scanner) (held : Diagnostics) :
      s.scanTokens held = ((s.scanTokens held).1, (s.scanTokens held).2) := rfl
  obtain ⟨tokens, reported, -, -, -⟩ := scanTokens_left early (batch _ ⟨#[.unterminatedString 7]⟩)
  obtain ⟨-, -, -, -, exhausted⟩ := scanTokens_left late (batch _ ⟨#[.unterminatedString 7]⟩)
  obtain ⟨noTokens, same⟩ := exhausted ⟨.endOfFile 1, by simp, rfl⟩
  rw [unread] at reported
  exact ⟨_, _, early, tokens, reported, _, _, late, Prod.ext noTokens same⟩

end Scanner

end ScriptLexer
