import ScriptLexer.Proofs.Region

namespace ScriptLexer

namespace Region

/-- The region behind a text. -/
def after (region : Region) (text : List Char) : Region := text.foldl next region

/-- What stands in a string or a comment is not looked at. -/
def isOpaque : Region → Bool
  | code => false
  | slash => false
  | string => true
  | comment => true

theorem after_append (region : Region) (text more : List Char) :
    region.after (text ++ more) = (region.after text).after more := List.foldl_append

theorem after_eq_self {region : Region} {run : List Char} (stays : ∀ c ∈ run, region.next c = region) :
    region.after run = region := by
  induction run with
  | nil => rfl
  | cons c run ih =>
    obtain ⟨first, others⟩ := List.forall_mem_cons.mp stays
    show (region.next c).after run = region
    rw [first, ih others]

theorem next_code {c : Char} (noQuote : c ≠ '"') (noSlash : c ≠ '/') : code.next c = code := by
  simp [next, noQuote, noSlash]

theorem after_plain {run : List Char} (plain : ∀ c ∈ run, (Lead.of c).isPlain = true) :
    code.after run = code := by
  refine after_eq_self fun c member => next_code ?_ ?_
  · rintro rfl
    cases plain _ member
  · rintro rfl
    cases plain _ member

theorem after_comment {body : List Char} (oneLine : '\n' ∉ body) : comment.after body = comment := by
  refine after_eq_self fun c member => if_neg ?_
  rintro rfl
  exact oneLine member

theorem after_string {contents : List Char} (noQuote : '"' ∉ contents) :
    string.after contents = string := by
  refine after_eq_self fun c member => if_neg ?_
  rintro rfl
  exact noQuote member

/-- Nothing in the text behind tells the region from code. -/
inductive AsCode : Region → List Char → Prop
  | inCode (rest : List Char) : AsCode code rest
  | behindSlash {rest : List Char} (ends : EndsRun (· == '/') rest) : AsCode slash rest
  | inComment {rest : List Char} (ends : EndsRun (· != '\n') rest) : AsCode comment rest
  | atEnd (region : Region) : AsCode region []

theorem AsCode.next_eq {region : Region} {c : Char} {rest : List Char}
    (asCode : AsCode region (c :: rest)) : region.next c = code.next c := by
  cases asCode with
  | inCode => rfl
  | behindSlash ends =>
    have noSlash : c ≠ '/' := by simpa using ends
    simp [next, noSlash]
  | inComment ends =>
    obtain rfl : c = '\n' := by simpa using ends
    rfl

theorem AsCode.after_eq {region : Region} {segment : Segment} {rest : List Char}
    (asCode : AsCode region (segment.text ++ rest)) :
    region.after segment.text = code.after segment.text := by
  obtain ⟨first, others, begins⟩ := List.exists_cons_of_ne_nil segment.text_ne_nil
  rw [begins, List.cons_append] at asCode
  rw [begins]
  exact congrArg (·.after others) asCode.next_eq

/-- A segment leads from code to a region that what follows does not tell from code. -/
theorem asCode_segment {segment : Segment} {rest : List Char} (ends : segment.EndsBefore rest) :
    AsCode (code.after segment.text) rest := by
  cases segment with
  | blank c is =>
    have same : code.after [c] = code := by
      refine after_plain (List.forall_mem_singleton.mpr ?_)
      rw [lead_of_isBlank is]
      rfl
    show AsCode (code.after [c]) rest
    rw [same]
    exact .inCode rest
  | newline => exact .inCode rest
  | comment body oneLine =>
    show AsCode (comment.after body) rest
    rw [after_comment oneLine]
    exact .inComment ends
  | token lexeme =>
    show AsCode (code.after lexeme.text) rest
    by_cases quoted : lexeme.lead = .quote
    · cases lexeme with
      | string contents noQuote =>
        show AsCode (string.after (contents ++ ['"'])) rest
        rw [after_append, after_string noQuote]
        exact .inCode rest
      | _ => cases quoted
    by_cases slashed : lexeme.lead = .slash
    · cases lexeme with
      | slash => exact .behindSlash ends
      | _ => cases slashed
    · rw [after_plain (Lexeme.plain_of_mem slashed quoted)]
      exact .inCode rest
  | unexpected c stray =>
    show AsCode (code.next c) rest
    rw [next_code (by rintro rfl; cases stray) (by rintro rfl; cases stray)]
    exact .inCode rest
  | unterminated contents noQuote =>
    obtain rfl : rest = [] := ends
    exact .atEnd _

/-- So it is in front of every segment of a source. -/
theorem asCode_sourceOf {before segments : List Segment} {region : Region}
    (separated : Segment.Separated (before ++ segments))
    (asCode : AsCode region (Segment.sourceOf (before ++ segments))) :
    AsCode (region.after (Segment.sourceOf before)) (Segment.sourceOf segments) := by
  induction before generalizing region with
  | nil => exact asCode
  | cons segment before ih =>
    obtain ⟨ends, separated⟩ := separated
    rw [List.cons_append, Segment.sourceOf_cons] at asCode
    rw [Segment.sourceOf_cons, after_append, asCode.after_eq]
    exact ih separated (asCode_segment ends)

/-- No stray character is in a string or comment, nor is one that begins a comment. -/
theorem AsCode.eq_code_or_slash {region : Region} {c : Char} {rest : List Char}
    (asCode : AsCode region (c :: rest)) (notNewline : c ≠ '\n') : region = code ∨ region = slash := by
  cases asCode with
  | inCode => exact Or.inl rfl
  | behindSlash => exact Or.inr rfl
  | inComment ends => exact absurd (by simpa using ends) notNewline

/-- A source that ends with a comment is in a comment at its end. -/
theorem after_of_getLast? {segments : List Segment} {body : List Char} {oneLine : '\n' ∉ body}
    (separated : Segment.Separated segments)
    (last : segments.getLast? = some (.comment body oneLine)) :
    code.after (Segment.sourceOf segments) = comment := by
  obtain ⟨before, rfl⟩ := List.getLast?_eq_some_iff.mp last
  have asCode := asCode_sourceOf separated (.inCode _)
  rw [Segment.sourceOf_cons] at asCode
  rw [Segment.sourceOf_append, after_append, Segment.sourceOf_cons, Segment.sourceOf_nil,
    List.append_nil, asCode.after_eq]
  exact after_comment oneLine

end Region

end ScriptLexer
