import ScriptLexer.Proofs.Lexeme

namespace ScriptLexer

inductive Segment where
  | blank (c : Char) (is : isBlank c = true)
  | newline
  | comment (body : List Char) (oneLine : '\n' ∉ body)
  | token (lexeme : Lexeme)
  | unexpected (c : Char) (stray : Lead.of c = .stray)
  | unterminated (contents : List Char) (noQuote : '"' ∉ contents)

namespace Segment

def text : Segment → List Char
  | blank c _ => [c]
  | newline => ['\n']
  | comment body _ => '/' :: '/' :: body
  | token lexeme => lexeme.text
  | unexpected c _ => [c]
  | unterminated contents _ => '"' :: contents

def lead : Segment → Lead
  | blank _ _ => .blank
  | newline => .newline
  | comment _ _ => .slash
  | token lexeme => lexeme.lead
  | unexpected _ _ => .stray
  | unterminated _ _ => .quote

/-- What follows does not belong to the segment. A comment goes on to the end of its line, and a
string without a second quote to the end of the source. -/
def EndsBefore : Segment → List Char → Prop
  | comment _ _, rest => EndsRun (· != '\n') rest
  | token lexeme, rest => lexeme.EndsBefore rest
  | unterminated _ _, rest => rest = []
  | _, _ => True

theorem text_ne_nil (segment : Segment) : segment.text ≠ [] := by
  cases segment with
  | token lexeme => exact lexeme.text_ne_nil
  | _ => simp [text]

theorem endsBefore_nil (segment : Segment) : segment.EndsBefore [] := by
  cases segment with
  | comment body oneLine => exact endsRun_nil
  | token lexeme => exact lexeme.endsBefore_nil
  | unterminated contents noQuote => rfl
  | _ => trivial

/-- The first character tells the form, up to what a slash and a quote leave open. -/
theorem lead_of_text {segment : Segment} {first : Char} {others : List Char}
    (begins : segment.text = first :: others) : Lead.of first = segment.lead := by
  cases segment with
  | blank c is =>
    obtain ⟨rfl, -⟩ := List.cons.inj begins
    exact lead_of_isBlank is
  | newline =>
    obtain ⟨rfl, -⟩ := List.cons.inj begins
    rfl
  | comment body oneLine =>
    obtain ⟨rfl, -⟩ := List.cons.inj begins
    rfl
  | token lexeme => exact Lexeme.lead_of_text begins
  | unexpected c stray =>
    obtain ⟨rfl, -⟩ := List.cons.inj begins
    exact stray
  | unterminated contents noQuote =>
    obtain ⟨rfl, -⟩ := List.cons.inj begins
    rfl

/-- A segment stands at the front of the source and ends where the source goes on. -/
def Opens (source : List Char) : Prop :=
  ∃ (segment : Segment) (rest : List Char), source = segment.text ++ rest ∧ segment.EndsBefore rest

theorem exists_run (inRun : Char → Bool) (source : List Char) :
    ∃ run rest, source = run ++ rest ∧ (∀ c ∈ run, inRun c = true) ∧ EndsRun inRun rest := by
  have cut : source = source.takeWhile inRun ++ source.dropWhile inRun :=
    List.takeWhile_append_dropWhile.symm
  have inside : ∀ c ∈ source.takeWhile inRun, inRun c = true := List.all_eq_true.mp List.all_takeWhile
  exact ⟨_, _, cut, inside, endsRun_dropWhile inRun source⟩

theorem exists_until (stop : Char) (source : List Char) :
    ∃ run rest, source = run ++ rest ∧ stop ∉ run ∧ EndsRun (· != stop) rest := by
  obtain ⟨run, rest, cut, inside, ends⟩ := exists_run (· != stop) source
  have absent : stop ∉ run := by
    intro member
    have different := inside stop member
    simp at different
  exact ⟨run, rest, cut, absent, ends⟩

theorem opens_operator {c : Char} {rule : Kind.Extensible} (others : List Char)
    (extensible : Kind.extensible? c = some rule) : Opens (c :: others) := by
  by_cases longer : others.head? = some rule.second
  · obtain ⟨rest, rfl⟩ := List.head?_eq_some_iff.mp longer
    exact ⟨.token (.long c rule extensible), rest, rfl, trivial⟩
  · exact ⟨.token (.short c rule extensible), others, rfl, endsRun_beq_iff.mpr longer⟩

theorem opens_slash (others : List Char) : Opens ('/' :: others) := by
  by_cases second : others.head? = some '/'
  · obtain ⟨after, rfl⟩ := List.head?_eq_some_iff.mp second
    obtain ⟨body, rest, rfl, oneLine, ends⟩ := exists_until '\n' after
    exact ⟨.comment body oneLine, rest, rfl, ends⟩
  · exact ⟨.token .slash, others, rfl, endsRun_beq_iff.mpr second⟩

theorem opens_quote (others : List Char) : Opens ('"' :: others) := by
  obtain ⟨contents, rest, rfl, noQuote, ends⟩ := exists_until '"' others
  cases rest with
  | nil => exact ⟨.unterminated contents noQuote, [], by simp [text], rfl⟩
  | cons closing rest =>
    have closes : closing = '"' := by simpa using ends
    subst closes
    exact ⟨.token (.string contents noQuote), rest, by simp [text, Lexeme.text], trivial⟩

theorem opens_digit {c : Char} (others : List Char) (digit : c.isDigit = true) :
    Opens (c :: others) := by
  obtain ⟨run, rest, rfl, inside, ends⟩ := exists_run Char.isDigit others
  have allDigits : ∀ d ∈ c :: run, d.isDigit = true := List.forall_mem_cons.mpr ⟨digit, inside⟩
  let whole : Digits := ⟨c :: run, List.cons_ne_nil c run, allDigits⟩
  -- A point belongs to the number only with a digit behind it.
  by_cases fraction : ∃ next more, rest = '.' :: next :: more ∧ next.isDigit = true
  · obtain ⟨next, more, rfl, nextDigit⟩ := fraction
    obtain ⟨places, after, rfl, placesInside, placesEnd⟩ := exists_run Char.isDigit more
    have allPlaces : ∀ d ∈ next :: places, d.isDigit = true :=
      List.forall_mem_cons.mpr ⟨nextDigit, placesInside⟩
    let fraction : Digits := ⟨next :: places, List.cons_ne_nil next places, allPlaces⟩
    refine ⟨.token (.number whole (some fraction)), after, ?_, placesEnd, nofun⟩
    simp [text, Lexeme.text, Lexeme.numberText, whole, fraction]
  · refine ⟨.token (.number whole none), rest, rfl, ends, ?_⟩
    rintro - more rfl next head
    obtain ⟨after, rfl⟩ := List.head?_eq_some_iff.mp head
    exact Bool.eq_false_iff.mpr fun nextDigit => fraction ⟨next, after, rfl, nextDigit⟩

theorem opens_letter {c : Char} (others : List Char) (start : isWordStart c = true) :
    Opens (c :: others) := by
  obtain ⟨parts, rest, rfl, inside, ends⟩ := exists_run isWordPart others
  exact ⟨.token (.word c parts start inside), rest, rfl, ends⟩

/-- No character is without use: a stray one is a segment of its own. -/
theorem opens_cons (c : Char) (others : List Char) : Opens (c :: others) := by
  cases operator : Kind.extensible? c with
  | some rule => exact opens_operator others operator
  | none =>
    cases delimiter : Kind.single? c with
    | some kind => exact ⟨.token (.delimiter c kind delimiter), others, rfl, trivial⟩
    | none =>
      by_cases slash : c = '/'
      · subst slash
        exact opens_slash others
      by_cases blank : isBlank c = true
      · exact ⟨.blank c blank, others, rfl, trivial⟩
      by_cases newline : c = '\n'
      · subst newline
        exact ⟨.newline, others, rfl, trivial⟩
      by_cases quote : c = '"'
      · subst quote
        exact opens_quote others
      by_cases digit : c.isDigit = true
      · exact opens_digit others digit
      by_cases start : isWordStart c = true
      · exact opens_letter others start
      · have stray : Lead.of c = .stray := by
          simp only [Lead.of, operator, delimiter, slash, blank, newline, quote, digit, start,
            if_false, Bool.false_eq_true]
        exact ⟨.unexpected c stray, others, rfl, trivial⟩

/-- The text of segments one after the other. -/
def sourceOf (segments : List Segment) : List Char := segments.flatMap text

@[simp] theorem sourceOf_nil : sourceOf [] = [] := rfl

@[simp] theorem sourceOf_cons (segment : Segment) (segments : List Segment) :
    sourceOf (segment :: segments) = segment.text ++ sourceOf segments := rfl

@[simp] theorem sourceOf_append (segments more : List Segment) :
    sourceOf (segments ++ more) = sourceOf segments ++ sourceOf more := List.flatMap_append

theorem eq_nil_of_sourceOf_eq_nil {segments : List Segment} (empty : sourceOf segments = []) :
    segments = [] := by
  cases segments with
  | nil => rfl
  | cons segment segments => exact absurd (List.append_eq_nil_iff.mp empty).1 segment.text_ne_nil

/-- Every segment ends before the text of those behind it. -/
def Separated : List Segment → Prop
  | [] => True
  | segment :: segments => segment.EndsBefore (sourceOf segments) ∧ Separated segments

theorem separated_cons {segment : Segment} {segments : List Segment} :
    Separated (segment :: segments) ↔
      segment.EndsBefore (sourceOf segments) ∧ Separated segments := Iff.rfl

/-- Segments in front of others are cut as they are alone, if what comes prolongs none of them. -/
theorem separated_append {segments more : List Segment} (separated : Separated segments)
    (separatedMore : Separated more)
    (ends : ∀ before segment behind, segments = before ++ segment :: behind →
      segment.EndsBefore (sourceOf behind) → segment.EndsBefore (sourceOf behind ++ sourceOf more)) :
    Separated (segments ++ more) := by
  induction segments with
  | nil => exact separatedMore
  | cons segment segments ih =>
    obtain ⟨endsAlone, separated⟩ := separated
    refine ⟨?_, ih separated fun before later behind cut => ?_⟩
    · show segment.EndsBefore (sourceOf (segments ++ more))
      rw [sourceOf_append]
      exact ends [] segment segments rfl endsAlone
    · exact ends (segment :: before) later behind (congrArg (segment :: ·) cut)

/-- Every text is a sequence of segments. -/
theorem exists_segments (source : List Char) :
    ∃ segments, sourceOf segments = source ∧ Separated segments := by
  match source with
  | [] => exact ⟨[], rfl, trivial⟩
  | c :: others =>
    obtain ⟨segment, rest, cut, ends⟩ := opens_cons c others
    have shorter : rest.length < (c :: others).length := by
      have positive := List.length_pos_iff.mpr segment.text_ne_nil
      rw [cut, List.length_append]
      omega
    obtain ⟨segments, same, separated⟩ := exists_segments rest
    have whole : sourceOf (segment :: segments) = c :: others := by rw [sourceOf_cons, same, cut]
    exact ⟨segment :: segments, whole, by rw [same]; exact ends, separated⟩
termination_by source.length
decreasing_by exact shorter

end Segment

end ScriptLexer
