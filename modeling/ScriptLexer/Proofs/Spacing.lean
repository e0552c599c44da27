import ScriptLexer.Proofs.SegmentItems

namespace ScriptLexer

def isSpace (c : Char) : Bool := isBlank c || c == '\n'

/-- A class of characters without any space. -/
def Spaceless (inRun : Char → Bool) : Prop :=
  inRun ' ' = false ∧ inRun '\r' = false ∧ inRun '\t' = false ∧ inRun '\n' = false

theorem Spaceless.eq_false {inRun : Char → Bool} (spaceless : Spaceless inRun) {c : Char}
    (space : isSpace c = true) : inRun c = false := by
  obtain ⟨blank, carriage, tab, newline⟩ := spaceless
  simp only [isSpace, isBlank, Bool.or_eq_true, beq_iff_eq] at space
  rcases space with ((rfl | rfl) | rfl) | rfl <;> assumption

theorem spaceless_second {c : Char} {rule : Kind.Extensible}
    (extensible : Kind.extensible? c = some rule) : Spaceless (· == rule.second) := by
  unfold Kind.extensible? at extensible
  split at extensible <;> cases extensible <;> exact ⟨rfl, rfl, rfl, rfl⟩

/-- More text behind the end of a lexeme prolongs it only if it does so where it stands alone. A digit
may not begin it, since the end may have been a point. -/
theorem Lexeme.EndsBefore.append {lexeme : Lexeme} {rest more : List Char}
    (ends : lexeme.EndsBefore rest) (endsMore : lexeme.EndsBefore more)
    (noDigit : EndsRun Char.isDigit more) : lexeme.EndsBefore (rest ++ more) := by
  cases lexeme with
  | delimiter d kind single => trivial
  | slash => exact EndsRun.append ends endsMore
  | short d rule extensible => exact EndsRun.append ends endsMore
  | long d rule extensible => trivial
  | string contents noQuote => trivial
  | number whole fraction =>
    refine ⟨ends.1.append endsMore.1, ?_⟩
    intro none behind point
    cases rest with
    | nil => exact endsMore.2 none behind point
    | cons next rest =>
      obtain ⟨rfl, rfl⟩ := List.cons.inj point
      exact (ends.2 none rest rfl).append noDigit
  | word first others start parts => exact EndsRun.append ends endsMore

theorem Lexeme.endsBefore_space (lexeme : Lexeme) {c : Char} (space : isSpace c = true)
    (more : List Char) : lexeme.EndsBefore (c :: more) := by
  have stops {inRun : Char → Bool} (spaceless : Spaceless inRun) : EndsRun inRun (c :: more) :=
    endsRun_cons.mpr (spaceless.eq_false space)
  cases lexeme with
  | delimiter d kind single => trivial
  | slash => exact stops ⟨rfl, rfl, rfl, rfl⟩
  | short d rule extensible => exact stops (spaceless_second extensible)
  | long d rule extensible => trivial
  | string contents noQuote => trivial
  | number whole fraction =>
    refine ⟨stops ⟨rfl, rfl, rfl, rfl⟩, ?_⟩
    rintro - behind point
    obtain ⟨rfl, -⟩ := List.cons.inj point
    cases space
  | word first others start parts => exact stops ⟨rfl, rfl, rfl, rfl⟩

/-- A quote goes into no lexeme that is begun before it. -/
theorem Lexeme.endsBefore_quote (lexeme : Lexeme) (rest : List Char) :
    lexeme.EndsBefore ('"' :: rest) := by
  cases lexeme with
  | delimiter c kind single => trivial
  | slash => exact endsRun_cons.mpr rfl
  | short c rule extensible =>
    unfold Kind.extensible? at extensible
    split at extensible <;> cases extensible <;> exact endsRun_cons.mpr rfl
  | long c rule extensible => trivial
  | string contents noQuote => trivial
  | number whole fraction =>
    exact ⟨endsRun_cons.mpr rfl, fun _ _ point => absurd (List.cons.inj point).1 (by decide)⟩
  | word first others start parts => exact endsRun_cons.mpr rfl

/-- A space behind a text does not prolong a lexeme that ends before the text. -/
theorem Lexeme.EndsBefore.append_space {lexeme : Lexeme} {rest : List Char}
    (ends : lexeme.EndsBefore rest) {c : Char} (space : isSpace c = true) (more : List Char) :
    lexeme.EndsBefore (rest ++ c :: more) := by
  have digits : Spaceless Char.isDigit := ⟨rfl, rfl, rfl, rfl⟩
  exact ends.append (lexeme.endsBefore_space space more) (endsRun_cons.mpr (digits.eq_false space))

theorem EndsRun.of_append {inRun : Char → Bool} {rest more : List Char}
    (ends : EndsRun inRun (rest ++ more)) : EndsRun inRun rest := by
  cases rest with
  | nil => exact endsRun_nil
  | cons c rest => exact endsRun_cons.mpr (endsRun_cons.mp ends)

/-- A lexeme that ends before a text also ends where the source breaks off within the text. -/
theorem Lexeme.EndsBefore.of_append {lexeme : Lexeme} {rest more : List Char}
    (ends : lexeme.EndsBefore (rest ++ more)) : lexeme.EndsBefore rest := by
  cases lexeme with
  | delimiter d kind single => trivial
  | slash => exact EndsRun.of_append ends
  | short d rule extensible => exact EndsRun.of_append ends
  | long d rule extensible => trivial
  | string contents noQuote => trivial
  | number whole fraction =>
    refine ⟨ends.1.of_append, ?_⟩
    rintro none behind rfl
    exact (ends.2 none _ rfl).of_append
  | word first others start parts => exact EndsRun.of_append ends

namespace Segment

theorem EndsBefore.of_append {segment : Segment} {rest more : List Char}
    (ends : segment.EndsBefore (rest ++ more)) : segment.EndsBefore rest := by
  cases segment with
  | comment body oneLine => exact EndsRun.of_append ends
  | token lexeme => exact Lexeme.EndsBefore.of_append ends
  | unterminated contents noQuote => exact (List.append_eq_nil_iff.mp ends).1
  | _ => trivial

/-- A newline behind a text prolongs nothing but a string that is still open. -/
theorem EndsBefore.append_newline {segment : Segment} {rest : List Char}
    (ends : segment.EndsBefore rest)
    (closed : ∀ contents noQuote, segment ≠ unterminated contents noQuote) (more : List Char) :
    segment.EndsBefore (rest ++ '\n' :: more) := by
  cases segment with
  | comment body oneLine => exact EndsRun.append ends (endsRun_bne '\n' more)
  | token lexeme => exact Lexeme.EndsBefore.append_space ends (by decide) more
  | unterminated contents noQuote => exact absurd rfl (closed contents noQuote)
  | _ => trivial

end Segment

end ScriptLexer
