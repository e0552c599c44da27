import ScriptLexer.Proofs.GrammarSegment

namespace ScriptLexer

/-- No run at the front of a text is longer than the one that ends there. -/
theorem EndsRun.length_le {inRun : Char → Bool} {run rest other : List Char}
    (ends : EndsRun inRun rest) (inside : ∀ c ∈ run, inRun c = true)
    (otherInside : ∀ c ∈ other, inRun c = true) (isPrefix : other <+: run ++ rest) :
    other.length ≤ run.length := by
  obtain ⟨more, cut⟩ := isPrefix
  have taken := ends.takeWhile_append inside
  rw [← cut, List.takeWhile_append_of_pos otherInside] at taken
  rw [← taken, List.length_append]
  omega

/-- The texts of the grammar that a first character of a class can begin. -/
def Lead.Begins : Lead → List Char → Prop
  | .operator rule, text => ∃ c, text = [c] ∨ text = [c, rule.second]
  | .delimiter _, text => ∃ c, text = [c]
  | .slash, text => text = ['/'] ∨ ∃ body, '\n' ∉ body ∧ text = '/' :: '/' :: body
  | .blank, text => ∃ c, text = [c]
  | .newline, text => ∃ c, text = [c]
  | .quote, text => ∃ contents, '"' ∉ contents ∧ text = '"' :: (contents ++ ['"'])
  | .digit, text => ∃ whole fraction, text = Lexeme.numberText whole fraction
  | .letter, text => ∀ c ∈ text, isWordPart c = true
  | .stray, _ => False

theorem Lexeme.word_parts {first : Char} {others : List Char} (start : isWordStart first = true)
    (parts : ∀ c ∈ others, isWordPart c = true) : ∀ c ∈ first :: others, isWordPart c = true := by
  intro c member
  rcases List.mem_cons.mp member with rfl | inOthers
  · exact isWordPart_of_isWordStart start
  · exact parts c inOthers

namespace Segment

variable {segment other : Segment} {rest : List Char}

/-- Pieces that begin at one place have one class. -/
theorem lead_eq_of_isPrefix (isPrefix : other.text <+: segment.text ++ rest) :
    other.lead = segment.lead := by
  obtain ⟨first, others, begins⟩ := List.exists_cons_of_ne_nil segment.text_ne_nil
  obtain ⟨otherFirst, otherOthers, otherBegins⟩ := List.exists_cons_of_ne_nil other.text_ne_nil
  rw [begins, otherBegins, List.cons_append, List.cons_prefix_cons] at isPrefix
  rw [← lead_of_text begins, ← lead_of_text otherBegins, isPrefix.1]

/-- Behind the digits of one number there is no room for those of another. -/
theorem number_length_le {whole otherWhole : Digits} {fraction otherFraction : Option Digits}
    (ends : (Lexeme.number whole fraction).EndsBefore rest)
    (isPrefix : Lexeme.numberText otherWhole otherFraction <+:
      Lexeme.numberText whole fraction ++ rest) :
    (Lexeme.numberText otherWhole otherFraction).length ≤ (Lexeme.numberText whole fraction).length := by
  cases otherFraction with
  | none =>
    cases fraction with
    | none => exact ends.1.length_le whole.isDigit_of_mem otherWhole.isDigit_of_mem isPrefix
    | some fraction =>
      have point := endsRun_isDigit_point (fraction.chars ++ rest)
      simp only [Lexeme.numberText, List.append_assoc, List.cons_append] at isPrefix ⊢
      have shorter := point.length_le whole.isDigit_of_mem otherWhole.isDigit_of_mem isPrefix
      rw [List.length_append]
      omega
  | some otherFraction =>
    obtain ⟨more, cut⟩ := isPrefix
    have otherPoint := endsRun_isDigit_point (otherFraction.chars ++ more)
    have otherTaken := otherPoint.takeWhile_append otherWhole.isDigit_of_mem
    have otherDropped := otherPoint.dropWhile_append otherWhole.isDigit_of_mem
    simp only [Lexeme.numberText, List.append_assoc, List.cons_append] at cut
    rw [cut] at otherTaken otherDropped
    cases fraction with
    | none =>
      -- The other number would need a digit behind the point that ends this one.
      have dropped := ends.1.dropWhile_append whole.isDigit_of_mem
      have point := dropped.symm.trans otherDropped
      have noDigit := ends.2 rfl _ point
      obtain ⟨digit, digits, begins⟩ := List.exists_cons_of_ne_nil otherFraction.chars_ne_nil
      have isDigit := otherFraction.isDigit_of_mem digit (by simp [begins])
      rw [begins, List.cons_append, endsRun_cons, isDigit] at noDigit
      cases noDigit
    | some fraction =>
      have point := endsRun_isDigit_point (fraction.chars ++ rest)
      have taken := point.takeWhile_append whole.isDigit_of_mem
      have dropped := point.dropWhile_append whole.isDigit_of_mem
      simp only [List.append_assoc, List.cons_append] at otherTaken otherDropped
      have sameWhole := otherTaken.symm.trans taken
      have sameRest := (List.cons.inj (otherDropped.symm.trans dropped)).2
      have shorter := ends.1.length_le fraction.isDigit_of_mem otherFraction.isDigit_of_mem
        ⟨more, sameRest⟩
      simp only [Lexeme.numberText, List.length_append, List.length_cons, sameWhole]
      omega

theorem lead_begins_text (noError : ¬segment.IsError) : segment.lead.Begins segment.text := by
  cases segment with
  | blank c is => exact ⟨c, rfl⟩
  | newline => exact ⟨'\n', rfl⟩
  | comment body oneLine => exact Or.inr ⟨body, oneLine, rfl⟩
  | unexpected c stray => exact noError trivial
  | unterminated contents noQuote => exact absurd trivial noError
  | token lexeme =>
    cases lexeme with
    | delimiter c kind single => exact ⟨c, rfl⟩
    | slash => exact Or.inl rfl
    | short c rule extensible => exact ⟨c, Or.inl rfl⟩
    | long c rule extensible => exact ⟨c, Or.inr rfl⟩
    | string contents noQuote => exact ⟨contents, noQuote, rfl⟩
    | number whole fraction => exact ⟨whole, fraction, rfl⟩
    | word first others start parts => exact Lexeme.word_parts start parts

/-- A lexeme that ends before the rest is as long as any text of the grammar at its place. -/
theorem token_length_le {lexeme : Lexeme} {text : List Char} (ends : lexeme.EndsBefore rest)
    (begins : lexeme.lead.Begins text) (isPrefix : text <+: lexeme.text ++ rest) :
    text.length ≤ lexeme.text.length := by
  cases lexeme with
  | delimiter c kind single =>
    obtain ⟨d, rfl⟩ := begins
    exact Nat.le_refl _
  | slash =>
    rcases begins with rfl | ⟨body, oneLine, rfl⟩
    · exact Nat.le_refl _
    · obtain ⟨more, rfl⟩ := (List.cons_prefix_cons.mp isPrefix).2
      rw [Lexeme.EndsBefore, List.cons_append, endsRun_cons] at ends
      cases ends
  | short c rule extensible =>
    obtain ⟨d, rfl | rfl⟩ := begins
    · exact Nat.le_refl _
    · obtain ⟨more, rfl⟩ := (List.cons_prefix_cons.mp isPrefix).2
      simp [Lexeme.EndsBefore] at ends
  | long c rule extensible =>
    obtain ⟨d, rfl | rfl⟩ := begins
    · exact Nat.le_succ _
    · exact Nat.le_refl _
  | string contents noQuote =>
    obtain ⟨otherContents, otherNoQuote, rfl⟩ := begins
    have quote := endsRun_bne '"' rest
    simp only [Lexeme.text, List.cons_append, List.append_assoc, List.nil_append,
      List.cons_prefix_cons, true_and] at isPrefix
    have shorter := quote.length_le (bne_of_not_mem noQuote) (bne_of_not_mem otherNoQuote)
      ((List.prefix_append otherContents ['"']).trans isPrefix)
    simp only [Lexeme.text, List.length_cons, List.length_append]
    omega
  | number whole fraction =>
    obtain ⟨otherWhole, otherFraction, rfl⟩ := begins
    exact number_length_le ends isPrefix
  | word first others start parts =>
    exact EndsRun.length_le ends (Lexeme.word_parts start parts) begins isPrefix

/-- Where a segment ends, no text of the grammar goes on, and where it is an error there is none. -/
theorem length_le_of_isPrefix (ends : segment.EndsBefore rest) (noError : ¬other.IsError)
    (isPrefix : other.text <+: segment.text ++ rest) :
    ¬segment.IsError ∧ other.text.length ≤ segment.text.length := by
  have begins := lead_begins_text noError
  rw [lead_eq_of_isPrefix isPrefix] at begins
  generalize other.text = text at begins isPrefix
  cases segment with
  | blank c is =>
    obtain ⟨d, rfl⟩ := begins
    exact ⟨id, Nat.le_refl _⟩
  | newline =>
    obtain ⟨d, rfl⟩ := begins
    exact ⟨id, Nat.le_refl _⟩
  | comment body oneLine =>
    refine ⟨id, ?_⟩
    rcases begins with rfl | ⟨otherBody, otherOneLine, rfl⟩
    · exact Nat.succ_le_succ (Nat.zero_le _)
    · have bodies := (List.cons_prefix_cons.mp (List.cons_prefix_cons.mp isPrefix).2).2
      have shorter := EndsRun.length_le ends (bne_of_not_mem oneLine) (bne_of_not_mem otherOneLine) bodies
      simp only [Segment.text, List.length_cons]
      omega
  | token lexeme => exact ⟨id, token_length_le ends begins isPrefix⟩
  | unexpected c stray => exact begins.elim
  | unterminated contents noQuote =>
    obtain ⟨otherContents, -, rfl⟩ := begins
    obtain rfl : rest = [] := ends
    rw [Segment.text, List.append_nil, List.cons_prefix_cons] at isPrefix
    exact absurd (isPrefix.2.subset (by simp)) noQuote

/-- The text alone tells what a segment is read as, since it could be all of a source. -/
theorem reading_eq_of_text_eq (same : other.text = segment.text) (line : Nat) :
    other.reading line = segment.reading line := by
  have read := Cursor.readLexeme?_segment [] line segment.endsBefore_nil
  have otherRead := Cursor.readLexeme?_segment [] line other.endsBefore_nil
  rw [same, read] at otherRead
  exact (congrArg Prod.fst (Option.some.inj otherRead)).symm

end Segment

namespace Grammar

open Segment

theorem longest_segment {segment : Segment} {rest : List Char} (line : Nat)
    (ends : segment.EndsBefore rest) (noError : ¬segment.IsError) :
    Longest (segment.text ++ rest) segment.text (segment.reading line) := by
  refine ⟨matches_segment line noError, List.prefix_append _ _, ?_⟩
  intro text reading matched isPrefix
  obtain ⟨other, otherNoError, rfl, -⟩ := matched.exists_segment
  exact (length_le_of_isPrefix ends otherNoError isPrefix).2

theorem unmatched_segment {segment : Segment} {rest : List Char} (ends : segment.EndsBefore rest)
    (error : segment.IsError) : Unmatched (segment.text ++ rest) := by
  intro text reading matched isPrefix
  obtain ⟨other, otherNoError, rfl, -⟩ := matched.exists_segment
  exact (length_le_of_isPrefix ends otherNoError isPrefix).1 error

/-- The longest text is a segment that ends before what is left. -/
theorem Longest.exists_segment {text rest : List Char} {reading : Reading}
    (longest : Longest (text ++ rest) text reading) :
    ∃ segment : Segment, segment.text = text ∧ segment.EndsBefore rest ∧
      ∀ line, segment.reading line = reading := by
  obtain ⟨other, otherNoError, rfl, otherReading⟩ := longest.found.exists_segment
  obtain ⟨c, others, begins⟩ := List.exists_cons_of_ne_nil other.text_ne_nil
  obtain ⟨segment, behind, cut, ends⟩ := opens_cons c (others ++ rest)
  rw [← List.cons_append, ← begins] at cut
  have isPrefix : other.text <+: segment.text ++ behind := cut ▸ longest.isPrefix
  -- The segment found here and the longest text bound each other's length.
  obtain ⟨noError, shorter⟩ := length_le_of_isPrefix ends otherNoError isPrefix
  have longer := longest.maximal _ _ (matches_segment 0 noError) (cut ▸ List.prefix_append _ _)
  obtain ⟨sameText, sameRest⟩ := List.append_inj cut (Nat.le_antisymm shorter longer)
  refine ⟨segment, sameText.symm, by rw [sameRest]; exact ends, fun line => ?_⟩
  rw [← otherReading line]
  exact (reading_eq_of_text_eq sameText line).symm

/-- Where no pattern matches, an error stands at the front. -/
theorem Unmatched.exists_segment {c : Char} {others : List Char} (unmatched : Unmatched (c :: others)) :
    ∃ (segment : Segment) (rest : List Char), segment.IsError ∧ c :: others = segment.text ++ rest ∧
      segment.EndsBefore rest := by
  obtain ⟨segment, rest, cut, ends⟩ := opens_cons c others
  by_cases error : segment.IsError
  · exact ⟨segment, rest, error, cut, ends⟩
  · exact absurd (cut ▸ List.prefix_append _ _) (unmatched _ _ (matches_segment 0 error))

/-- The grammar allows the items of separated segments. -/
theorem lexes_items {segments : List Segment} (line : Nat) (separated : Separated segments) :
    Lexes line (sourceOf segments) (items line segments ++
      [.token (.endOfFile (line + (sourceOf segments).count '\n'))]) := by
  induction segments generalizing line with
  | nil => exact .finish
  | cons segment segments ih =>
    obtain ⟨ends, separated⟩ := separated
    have later := ih (segment.lineAfter line) separated
    rw [lineAfter_add_count] at later
    rw [items, List.append_assoc]
    cases segment with
    | blank c is => exact .skip (longest_segment line ends id) later
    | newline => exact .skip (longest_segment line ends id) later
    | comment body oneLine => exact .skip (longest_segment line ends id) later
    | token lexeme => exact .token (longest_segment line ends id) later
    | unexpected c stray =>
      have noQuote : c ≠ '"' := by
        rintro rfl
        cases stray
      rw [lineAfter_unexpected] at later ⊢
      exact .unexpected (unmatched_segment ends trivial) noQuote later
    | unterminated contents noQuote =>
      obtain rfl : segments = [] := eq_nil_of_sourceOf_eq_nil ends
      have unmatched := unmatched_segment ends trivial
      rw [lineAfter_unterminated] at later
      rw [sourceOf_nil, List.append_nil] at unmatched
      have total : (sourceOf [unterminated contents noQuote]).count '\n' = contents.count '\n' := by
        simp [Segment.text]
      rw [total] at later ⊢
      rw [sourceOf_cons, sourceOf_nil, List.append_nil]
      exact .unterminated unmatched later

/-- Whatever items the grammar allows, the scanner yields them. -/
theorem Lexes.items_eq {line : Nat} {source : List Char} {items : List Item}
    (lexes : Lexes line source items) (taken : List Char) :
    Scanner.items ⟨⟨taken, source, line⟩, false⟩ = items := by
  induction lexes generalizing taken with
  | finish => exact Scanner.items_of_rest_nil taken _
  | @skip line text rest items longest lexes ih =>
    obtain ⟨segment, rfl, ends, reading⟩ := longest.exists_segment
    have step := Cursor.readLexeme?_segment taken line ends
    rw [reading line] at step
    rw [Scanner.items_of_skipped step]
    exact ih _
  | @token line text rest kind literal items longest lexes ih =>
    obtain ⟨segment, rfl, ends, reading⟩ := longest.exists_segment
    have step := Cursor.readLexeme?_segment taken line ends
    rw [reading line] at step
    rw [Scanner.items_of_token step]
    exact congrArg _ (ih _)
  | @unterminated line contents items unmatched lexes ih =>
    obtain ⟨segment, rest, error, cut, ends⟩ := unmatched.exists_segment
    cases segment with
    | unterminated same noQuote =>
      have last : rest = [] := ends
      subst last
      rw [Segment.text, List.append_nil, List.cons.injEq] at cut
      obtain rfl := cut.2
      have step := Cursor.readLexeme?_segment taken line ends
      rw [lineAfter_unterminated line noQuote] at step
      rw [← List.append_nil ('"' :: contents)]
      exact (Scanner.items_of_error step).trans (congrArg _ (ih _))
    | unexpected c stray =>
      obtain rfl := (List.cons.inj cut).1
      cases stray
    | _ => exact error.elim
  | @unexpected line c rest items unmatched noQuote lexes ih =>
    obtain ⟨segment, behind, error, cut, ends⟩ := unmatched.exists_segment
    cases segment with
    | unexpected same stray =>
      obtain ⟨rfl, rfl⟩ := List.cons.inj cut
      have step := Cursor.readLexeme?_segment taken line ends
      rw [lineAfter_unexpected line stray] at step
      exact (Scanner.items_of_error step).trans (congrArg _ (ih _))
    | unterminated contents noQuoteIn => exact absurd (List.cons.inj cut).1 noQuote
    | _ => exact error.elim

/-- The scanner yields the items of the grammar: at every place the longest text that a pattern
matches, and an error where none does. -/
theorem lexes_iff_items (source : String) (items : List Item) :
    Lexes 1 source.toList items ↔ (Scanner.ofString source).items = items := by
  constructor
  · intro lexes
    exact lexes.items_eq []
  · rintro rfl
    obtain ⟨segments, same, separated⟩ := exists_segments source.toList
    rw [Scanner.items_ofString same separated, ← same]
    exact lexes_items 1 separated

end Grammar

end ScriptLexer
