import ScriptLexer.Proofs.SegmentItems

namespace ScriptLexer

/-- What a text may hold outside strings and comments, apart from ASCII letters and digits. -/
def signs : List Char :=
  ['_', '(', ')', '{', '}', ',', '.', ';', '-', '+', '^', '!', '=', '<', '>', '&', '|', '*', '/', '"',
    ' ', '\r', '\t', '\n']

def inAlphabet (c : Char) : Bool := c.isAlpha || c.isDigit || signs.contains c

/-- What is known of the text before a character. -/
inductive Region where
  | code | slash | string | comment
deriving DecidableEq, Repr

namespace Region

/-- Where the next character stands. -/
def next : Region → Char → Region
  | code, c => if c = '"' then string else if c = '/' then slash else code
  | slash, c => if c = '"' then string else if c = '/' then comment else code
  | string, c => if c = '"' then code else string
  | comment, c => if c = '\n' then code else comment

/-- Strings and comments may hold anything. -/
def rejects : Region → Char → Bool
  | code, c => !inAlphabet c
  | slash, c => !inAlphabet c
  | string, _ => false
  | comment, _ => false

/-- The errors in a text that begins in a region and on a line. -/
def errors (region : Region) (line : Nat) : List Char → List LexicalError
  | [] => if region = string then [.unterminatedString line] else []
  | c :: rest =>
    (if region.rejects c then [.unexpectedCharacter line c] else []) ++
      (region.next c).errors (if c = '\n' then line + 1 else line) rest

end Region

/-- A stray character is one outside the alphabet. -/
theorem lead_eq_stray_iff {c : Char} : Lead.of c = .stray ↔ inAlphabet c = false := by
  have signsBegin : signs.all (fun sign => Lead.of sign ≠ .stray) = true := by decide
  constructor
  · intro stray
    apply Bool.eq_false_iff.mpr
    intro inside
    simp only [inAlphabet, Bool.or_eq_true, List.contains_iff_mem] at inside
    rcases inside with (alpha | digit) | sign
    · rw [lead_of_isWordStart (isWordStart_iff.mpr (Or.inl alpha))] at stray
      cases stray
    · rw [lead_of_isDigit digit] at stray
      cases stray
    · exact of_decide_eq_true (List.all_eq_true.mp signsBegin c sign) stray
  · intro outside
    have absent : ∀ sign ∈ signs, c ≠ sign := by
      rintro sign member rfl
      simp [inAlphabet, member] at outside
    have noOperator : Kind.extensible? c = none := by
      unfold Kind.extensible?
      split <;> first | rfl | exact absurd rfl (absent _ (by decide))
    have noDelimiter : Kind.single? c = none := by
      unfold Kind.single?
      split <;> first | rfl | exact absurd rfl (absent _ (by decide))
    have noSlash : c ≠ '/' := absent '/' (by decide)
    have noNewline : c ≠ '\n' := absent '\n' (by decide)
    have noQuote : c ≠ '"' := absent '"' (by decide)
    have noBlank : isBlank c = false := by
      simp [isBlank, absent ' ' (by decide), absent '\r' (by decide), absent '\t' (by decide)]
    simp only [inAlphabet, Bool.or_eq_false_iff] at outside
    have noLetter : isWordStart c = false := by
      simp [isWordStart, outside.1.1, absent '_' (by decide)]
    simp only [Lead.of, noOperator, noDelimiter, noSlash, noNewline, noQuote, noBlank, noLetter,
      outside.1.2, if_false, Bool.false_eq_true]

/-- Such a character is part of code and leaves a reader of it where it was. -/
def Lead.isPlain : Lead → Bool
  | operator _ => true
  | delimiter _ => true
  | blank => true
  | digit => true
  | letter => true
  | _ => false

theorem Lead.plain_of_lexical {lead : Lead} (lexical : lead.isLexical = true) : lead.isPlain = true := by
  cases lead <;> first | rfl | cases lexical

/-- Every token but a slash and a string consists of plain characters. -/
theorem Lexeme.plain_of_mem {lexeme : Lexeme} (notSlash : lexeme.lead ≠ .slash)
    (notString : lexeme.lead ≠ .quote) : ∀ c ∈ lexeme.text, (Lead.of c).isPlain = true :=
  fun c member => Lead.plain_of_lexical (lexical_of_mem notSlash notString c member)

namespace Region

theorem errors_cons_of_plain {c : Char} (line : Nat) (rest : List Char)
    (plain : (Lead.of c).isPlain = true) : code.errors line (c :: rest) = code.errors line rest := by
  have inside : inAlphabet c = true := by
    refine (Bool.not_eq_false _).mp fun outside => ?_
    rw [lead_eq_stray_iff.mpr outside] at plain
    cases plain
  have noQuote : c ≠ '"' := by rintro rfl; cases plain
  have noSlash : c ≠ '/' := by rintro rfl; cases plain
  have noNewline : c ≠ '\n' := by rintro rfl; cases plain
  simp [errors, rejects, next, inside, noQuote, noSlash, noNewline]

theorem errors_plain {run : List Char} (line : Nat) (rest : List Char)
    (plain : ∀ c ∈ run, (Lead.of c).isPlain = true) :
    code.errors line (run ++ rest) = code.errors line rest := by
  induction run with
  | nil => rfl
  | cons c run ih =>
    obtain ⟨first, others⟩ := List.forall_mem_cons.mp plain
    rw [List.cons_append, errors_cons_of_plain line _ first, ih others]

theorem errors_newline (line : Nat) (rest : List Char) :
    code.errors line ('\n' :: rest) = code.errors (line + 1) rest := rfl

theorem errors_stray {c : Char} (line : Nat) (rest : List Char) (stray : Lead.of c = .stray) :
    code.errors line (c :: rest) = .unexpectedCharacter line c :: code.errors line rest := by
  have outside := lead_eq_stray_iff.mp stray
  have noQuote : c ≠ '"' := by rintro rfl; cases stray
  have noSlash : c ≠ '/' := by rintro rfl; cases stray
  have noNewline : c ≠ '\n' := by rintro rfl; cases stray
  simp [errors, rejects, next, outside, noQuote, noSlash, noNewline]

/-- Unless a second one follows, a slash makes no difference. -/
theorem errors_behind_slash {rest : List Char} (line : Nat) (ends : EndsRun (· == '/') rest) :
    slash.errors line rest = code.errors line rest := by
  cases rest with
  | nil => rfl
  | cons c rest =>
    have noSlash : c ≠ '/' := by simpa using ends
    simp [errors, rejects, next, noSlash]

theorem errors_inside_string {contents : List Char} (line : Nat) (rest : List Char)
    (noQuote : '"' ∉ contents) :
    string.errors line (contents ++ rest) = string.errors (line + contents.count '\n') rest := by
  induction contents generalizing line with
  | nil => rfl
  | cons c contents ih =>
    obtain ⟨first, others⟩ := not_or.mp (mt List.mem_cons.mpr noQuote)
    have stays : string.next c = string := if_neg (Ne.symm first)
    rw [List.cons_append, errors, stays, ih _ others]
    by_cases newline : c = '\n'
    · subst newline
      rw [if_pos rfl, List.count_cons_self, Nat.add_assoc, Nat.add_comm 1]
      rfl
    · rw [if_neg newline, List.count_cons_of_ne newline]
      rfl

theorem errors_inside_comment {body : List Char} (line : Nat) (rest : List Char)
    (oneLine : '\n' ∉ body) :
    comment.errors line (body ++ rest) = comment.errors line rest := by
  induction body with
  | nil => rfl
  | cons c body ih =>
    obtain ⟨first, others⟩ := not_or.mp (mt List.mem_cons.mpr oneLine)
    have stays : comment.next c = comment := if_neg (Ne.symm first)
    rw [List.cons_append, errors, stays, if_neg (Ne.symm first), ih others]
    rfl

/-- The end of a line and the end of the source end a comment alike. -/
theorem errors_behind_comment {rest : List Char} (line : Nat) (ends : EndsRun (· != '\n') rest) :
    comment.errors line rest = code.errors line rest := by
  cases rest with
  | nil => rfl
  | cons c rest =>
    have newline : c = '\n' := by simpa using ends
    subst newline
    rfl

/-- Over one segment, the machine finds the error of the segment and is back in code, or in a state
that nothing behind the segment tells from code. -/
theorem errors_segment {segment : Segment} {rest : List Char} (line : Nat)
    (ends : segment.EndsBefore rest) :
    code.errors line (segment.text ++ rest) =
      (segment.item? line).toList.filterMap Item.error? ++
        code.errors (segment.lineAfter line) rest := by
  cases segment with
  | blank c is =>
    have plain : (Lead.of c).isPlain = true := by rw [lead_of_isBlank is]; rfl
    have oneLine : '\n' ∉ (Segment.blank c is).text := by
      intro member
      obtain rfl := List.mem_singleton.mp member
      cases is
    rw [Segment.lineAfter_of_not_mem line oneLine]
    exact errors_cons_of_plain line rest plain
  | newline => exact errors_newline line rest
  | comment body oneLine =>
    rw [Segment.lineAfter_comment line oneLine]
    calc code.errors line ('/' :: '/' :: (body ++ rest))
        = comment.errors line (body ++ rest) := rfl
      _ = comment.errors line rest := errors_inside_comment line rest oneLine
      _ = code.errors line rest := errors_behind_comment line ends
  | token lexeme =>
    show code.errors line (lexeme.text ++ rest) = code.errors _ rest
    by_cases quoted : lexeme.lead = .quote
    · cases lexeme with
      | string contents noQuote =>
        have lines : (Segment.token (.string contents noQuote)).lineAfter line =
            line + contents.count '\n' := by
          simp [Segment.lineAfter, Segment.text, Lexeme.text]
        rw [lines]
        calc code.errors line ('"' :: (contents ++ ['"'] ++ rest))
            = string.errors line (contents ++ '"' :: rest) := by
              rw [List.append_assoc]
              rfl
          _ = string.errors (line + contents.count '\n') ('"' :: rest) :=
              errors_inside_string line _ noQuote
          _ = code.errors (line + contents.count '\n') rest := rfl
      | _ => cases quoted
    · have oneLine : '\n' ∉ (Segment.token lexeme).text := Lexeme.newline_not_mem_text quoted
      rw [Segment.lineAfter_of_not_mem line oneLine]
      by_cases slashed : lexeme.lead = .slash
      · cases lexeme with
        | slash => exact errors_behind_slash line ends
        | _ => cases slashed
      · exact errors_plain line rest (Lexeme.plain_of_mem slashed quoted)
  | unexpected c stray =>
    rw [Segment.lineAfter_unexpected line stray]
    exact errors_stray line rest stray
  | unterminated contents noQuote =>
    obtain rfl : rest = [] := ends
    rw [Segment.lineAfter_unterminated line noQuote]
    exact errors_inside_string line [] noQuote

theorem errors_sourceOf {segments : List Segment} (line : Nat)
    (separated : Segment.Separated segments) :
    code.errors line (Segment.sourceOf segments) =
      (Segment.items line segments).filterMap Item.error? := by
  induction segments generalizing line with
  | nil => rfl
  | cons segment segments ih =>
    obtain ⟨ends, separated⟩ := separated
    rw [Segment.sourceOf_cons, errors_segment line ends, ih _ separated, Segment.items,
      List.filterMap_append]

/-- A scan reports the errors that are found character by character. -/
theorem errors_eq_scan (source : String) :
    (scan source).2.toList = code.errors 1 source.toList := by
  obtain ⟨segments, same, separated⟩ := Segment.exists_segments source.toList
  have reported : (scan source).2.toList = (Scanner.ofString source).items.filterMap Item.error? :=
    (Scanner.ofString source).scanTokens_errors {}
  rw [reported, Scanner.items_ofString same separated, List.filterMap_append, ← same,
    errors_sourceOf 1 separated]
  exact List.append_nil _

/-- A quote in a comment, slashes in a string and a third slash are nothing special. -/
example : code.errors 1 "#/\"//\n@\"@//\"@\n///@\n/@/ \"\n".toList =
    [.unexpectedCharacter 1 '#', .unexpectedCharacter 2 '@', .unexpectedCharacter 4 '@',
      .unterminatedString 5] := by
  decide

end Region

end ScriptLexer
