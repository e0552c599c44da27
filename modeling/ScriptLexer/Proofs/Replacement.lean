import ScriptLexer.Proofs.Lookahead
import ScriptLexer.Proofs.Spacing

namespace ScriptLexer

namespace Segment

/-- The second text may stand where the first one stood: whatever ended in front of it, next to it or
with other text between, still ends. -/
def MayReplace (rest other : List Char) : Prop :=
  ∀ (segment : Segment) (text : List Char),
    segment.EndsBefore (text ++ rest) → segment.EndsBefore (text ++ other)

variable {rest other : List Char}

theorem mayReplace_refl (rest : List Char) : MayReplace rest rest := fun _ _ ends => ends

theorem MayReplace.append (may : MayReplace rest other) (text : List Char) :
    MayReplace (text ++ rest) (text ++ other) := by
  intro segment before ends
  rw [← List.append_assoc] at ends ⊢
  exact may segment _ ends

theorem mayReplace_of_alike (alike : Alike rest other) : MayReplace rest other :=
  fun _ text ends => ends.of_alike (alike.append text)

/-- In front of the end of a line or of the source everything ends, save an open string. -/
theorem mayReplace_lineEnd (nonempty : rest ≠ []) (lineEnd : EndsRun (· != '\n') other) :
    MayReplace rest other := by
  intro segment text ends
  have endsText := ends.of_append
  cases other with
  | nil =>
    rw [List.append_nil]
    exact endsText
  | cons c more =>
    obtain rfl : c = '\n' := by simpa using lineEnd
    refine endsText.append_newline ?_ more
    rintro contents noQuote rfl
    exact nonempty (List.append_eq_nil_iff.mp ends).2

/-- A character that goes into no lexeme may stand where another one stood. Not where a newline did,
for only a newline ends a comment. -/
theorem mayReplace_cons {c d : Char} (foreign : ∀ (lexeme : Lexeme) (more : List Char),
      lexeme.EndsBefore (d :: more)) (noDigit : d.isDigit = false) (notNewline : c ≠ '\n')
    (rest more : List Char) : MayReplace (c :: rest) (d :: more) := by
  intro segment text ends
  cases segment with
  | comment body oneLine =>
    cases text with
    | nil =>
      have atNewline : EndsRun (· != '\n') (c :: rest) := ends
      exact absurd (by simpa using atNewline) notNewline
    | cons next text =>
      have atNewline : EndsRun (· != '\n') (next :: (text ++ c :: rest)) := ends
      obtain rfl : next = '\n' := by simpa using atNewline
      exact endsRun_bne '\n' _
  | token lexeme =>
    exact Lexeme.EndsBefore.append ends.of_append (foreign lexeme more) (endsRun_cons.mpr noDigit)
  | unterminated contents noQuote =>
    have last : text ++ c :: rest = [] := ends
    simp at last
  | _ => trivial

theorem mayReplace_quote (rest more : List Char) : MayReplace ('"' :: rest) ('"' :: more) :=
  mayReplace_cons Lexeme.endsBefore_quote rfl (by decide) rest more

/-- Segments that are cut where they meet and may stand where the others stood. -/
structure Replaces (segments other : List Segment) : Prop where
  separated : Separated other
  mayReplace : MayReplace (sourceOf segments) (sourceOf other)

theorem replaces_nil : Replaces [] [] := ⟨trivial, mayReplace_refl []⟩

/-- What replaces segments does so behind any segment that ended in front of them. -/
theorem Replaces.cons {segments others : List Segment} {segment : Segment}
    (replaces : Replaces segments others) (ends : segment.EndsBefore (sourceOf segments)) :
    Replaces (segment :: segments) (segment :: others) :=
  ⟨⟨replaces.mayReplace segment [] ends, replaces.separated⟩, replaces.mayReplace.append segment.text⟩

end Segment

end ScriptLexer
