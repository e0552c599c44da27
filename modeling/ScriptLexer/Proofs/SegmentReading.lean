import ScriptLexer.Proofs.Segment

namespace ScriptLexer

namespace Cursor

theorem takeUntil_run {inRun : Char → Bool} {run rest : List Char} (stops : Char → Bool)
    (taken : List Char) (line : Nat) (opposite : ∀ c, (!stops c) = inRun c)
    (inside : ∀ c ∈ run, inRun c = true) (ends : EndsRun inRun rest) :
    takeUntil ⟨taken, run ++ rest, line⟩ stops = (run, ⟨taken ++ run, rest, line⟩) := by
  have same : (fun c => !stops c) = inRun := funext opposite
  simp only [takeUntil, same, ends.takeWhile_append inside, ends.dropWhile_append inside]

theorem accept_expected (taken rest : List Char) (line : Nat) (expected : Char) :
    accept ⟨taken, expected :: rest, line⟩ expected =
      (true, ⟨taken ++ [expected], rest, line⟩) := by
  simp [accept, advance?]

theorem accept_other {rest : List Char} {expected : Char} (taken : List Char) (line : Nat)
    (ends : EndsRun (· == expected) rest) :
    accept ⟨taken, rest, line⟩ expected = (false, ⟨taken, rest, line⟩) := by
  cases rest with
  | nil => rfl
  | cons next rest =>
    have different : next ≠ expected := by simpa using ends
    simp [accept, advance?, different]

theorem takeDigits_run {run rest : List Char} (taken : List Char) (line : Nat)
    (inside : ∀ c ∈ run, c.isDigit = true) (ends : EndsRun Char.isDigit rest) :
    takeDigits ⟨taken, run ++ rest, line⟩ = ⟨taken ++ run, rest, line⟩ := by
  unfold takeDigits
  rw [takeUntil_run _ taken line (fun c => Bool.not_not c.isDigit) inside ends]

theorem takeFraction_point (taken : List Char) {rest : List Char} (line : Nat) (fraction : Digits)
    (ends : EndsRun Char.isDigit rest) :
    takeFraction ⟨taken, '.' :: (fraction.chars ++ rest), line⟩ =
      ⟨taken ++ '.' :: fraction.chars, rest, line⟩ := by
  obtain ⟨digit, digits, cut⟩ := List.exists_cons_of_ne_nil fraction.chars_ne_nil
  have isDigit : digit.isDigit = true := fraction.isDigit_of_mem digit (by simp [cut])
  have run := takeDigits_run (taken ++ ['.']) line fraction.isDigit_of_mem ends
  rw [cut, List.cons_append] at run
  simp only [takeFraction, cut, List.cons_append, isDigit, if_true, accept_expected, run,
    List.append_assoc, List.nil_append]

theorem takeFraction_none {rest : List Char} (taken : List Char) (line : Nat)
    (ends : ∀ more, rest = '.' :: more → EndsRun Char.isDigit more) :
    takeFraction ⟨taken, rest, line⟩ = ⟨taken, rest, line⟩ := by
  unfold takeFraction
  split
  · next next more point =>
    have noDigit : next.isDigit = false := by simpa using ends _ point
    simp [noDigit]
  · rfl

theorem readNumber_text {rest others : List Char} {first : Char} {whole : Digits}
    {fraction : Option Digits} (line : Nat)
    (begins : Lexeme.numberText whole fraction = first :: others)
    (ends : (Lexeme.number whole fraction).EndsBefore rest) :
    readNumber ⟨[first], others ++ rest, line⟩ =
      (.token .number (some (.number (.ofDecimal (Lexeme.numberValue whole fraction)))),
        ⟨first :: others, rest, line⟩) := by
  obtain ⟨digit, digits, cut⟩ := List.exists_cons_of_ne_nil whole.chars_ne_nil
  have inside : ∀ c ∈ digits, c.isDigit = true := by
    intro c member
    exact whole.isDigit_of_mem c (by simp [cut, member])
  have taken : (takeDigits ⟨[first], others ++ rest, line⟩).takeFraction =
      ⟨first :: others, rest, line⟩ := by
    cases fraction with
    | none =>
      obtain ⟨rfl, rfl⟩ := List.cons.inj (cut.symm.trans begins)
      rw [takeDigits_run [digit] line inside ends.1]
      exact takeFraction_none _ line (ends.2 rfl)
    | some fraction =>
      simp only [Lexeme.numberText, cut, List.cons_append, List.cons.injEq] at begins
      obtain ⟨rfl, rfl⟩ := begins
      have point := endsRun_isDigit_point (fraction.chars ++ rest)
      rw [List.append_assoc, List.cons_append, takeDigits_run [digit] line inside point,
        takeFraction_point _ line fraction ends.1]
      simp
  have value := Lexeme.ofChars?_numberText whole fraction
  rw [begins] at value
  simp only [readNumber, taken, value]

theorem readWord_text {rest others : List Char} (first : Char) (line : Nat)
    (parts : ∀ c ∈ others, isWordPart c = true) (ends : EndsRun isWordPart rest) :
    readWord ⟨[first], others ++ rest, line⟩ =
      (.token (.ofWord (String.ofList (first :: others))) none, ⟨first :: others, rest, line⟩) := by
  unfold readWord
  rw [takeUntil_run _ [first] line (fun c => Bool.not_not (isWordPart c)) parts ends]
  rfl

theorem readString_closed {contents : List Char} (rest : List Char) (line : Nat)
    (noQuote : '"' ∉ contents) :
    readString ⟨['"'], contents ++ '"' :: rest, line⟩ =
      (.token .string (some (.string (String.ofList contents))),
        ⟨'"' :: (contents ++ ['"']), rest, line + contents.count '\n'⟩) := by
  have quote := endsRun_bne '"' rest
  have run := takeUntil_run (· == '"') ['"'] line (fun _ => rfl) (bne_of_not_mem noQuote) quote
  simp only [readString, run, addLines, advance?]
  rfl

theorem readString_open {contents : List Char} (line : Nat) (noQuote : '"' ∉ contents) :
    readString ⟨['"'], contents, line⟩ =
      (.error (.unterminatedString (line + contents.count '\n')),
        ⟨'"' :: contents, [], line + contents.count '\n'⟩) := by
  have run := takeUntil_run (· == '"') ['"'] line (fun _ => rfl) (bne_of_not_mem noQuote) endsRun_nil
  rw [List.append_nil] at run
  simp only [readString, run, addLines, advance?]
  rfl

theorem readSlash_comment {body rest : List Char} (line : Nat) (oneLine : '\n' ∉ body)
    (ends : EndsRun (· != '\n') rest) :
    readSlash ⟨['/'], '/' :: (body ++ rest), line⟩ = (.skipped, ⟨'/' :: '/' :: body, rest, line⟩) := by
  have run := takeUntil_run (· == '\n') ['/', '/'] line (fun _ => rfl) (bne_of_not_mem oneLine) ends
  simp only [readSlash, accept_expected, List.cons_append, List.nil_append] at run ⊢
  rw [run]

theorem readLexeme?_cons (taken : List Char) (first : Char) (others : List Char) (line : Nat) :
    readLexeme? ⟨taken, first :: others, line⟩ =
      some (readAfter ⟨[first], others, line⟩ first (Lead.of first)) := by
  simp only [readLexeme?, restart, advance?, List.nil_append, read_eq_readAfter]

end Cursor

/-- Such a character may stand anywhere in a token without quotes, except for the slash. -/
def Lead.isLexical : Lead → Bool
  | operator _ => true
  | delimiter _ => true
  | digit => true
  | letter => true
  | _ => false

theorem lexical_of_isWordPart {c : Char} (part : isWordPart c = true) :
    (Lead.of c).isLexical = true := by
  rw [lead_of_isWordPart part]
  split <;> rfl

theorem Lexeme.lexical_of_mem {lexeme : Lexeme} (notSlash : lexeme.lead ≠ .slash)
    (notString : lexeme.lead ≠ .quote) : ∀ c ∈ lexeme.text, (Lead.of c).isLexical = true := by
  have lexicalDigits (digits : Digits) : ∀ c ∈ digits.chars, (Lead.of c).isLexical = true :=
    fun c member => lexical_of_isWordPart (isWordPart_of_isDigit (digits.isDigit_of_mem c member))
  cases lexeme with
  | delimiter d kind single =>
    refine List.forall_mem_singleton.mpr ?_
    rw [lead_of_single? single]
    rfl
  | slash => exact absurd rfl notSlash
  | short d rule extensible =>
    refine List.forall_mem_singleton.mpr ?_
    rw [lead_of_extensible? extensible]
    rfl
  | long d rule extensible =>
    refine List.forall_mem_cons.mpr ⟨?_, List.forall_mem_singleton.mpr ?_⟩
    · rw [lead_of_extensible? extensible]
      rfl
    · unfold Kind.extensible? at extensible
      split at extensible <;> cases extensible <;> rfl
  | string contents noQuote => exact absurd rfl notString
  | number whole fraction =>
    cases fraction with
    | none => exact lexicalDigits whole
    | some fraction =>
      refine List.forall_mem_append.mpr ⟨lexicalDigits whole, List.forall_mem_cons.mpr ⟨rfl, ?_⟩⟩
      exact lexicalDigits fraction
  | word first others start parts =>
    refine List.forall_mem_cons.mpr ⟨lexical_of_isWordPart (isWordPart_of_isWordStart start), ?_⟩
    exact fun c member => lexical_of_isWordPart (parts c member)

theorem Lexeme.not_mem_text {lexeme : Lexeme} {c : Char} (notString : lexeme.lead ≠ .quote)
    (notLexical : (Lead.of c).isLexical = false) (notSlash : c ≠ '/') : c ∉ lexeme.text := by
  intro member
  by_cases slashed : lexeme.lead = .slash
  · cases lexeme with
    | slash => exact notSlash (List.mem_singleton.mp member)
    | _ => cases slashed
  · rw [lexical_of_mem slashed notString c member] at notLexical
    cases notLexical

theorem Lexeme.newline_not_mem_text {lexeme : Lexeme} (notString : lexeme.lead ≠ .quote) :
    '\n' ∉ lexeme.text := not_mem_text notString rfl (by decide)

namespace Segment

/-- What a segment is read as on the given line. -/
def reading (line : Nat) : Segment → Reading
  | token lexeme => .token lexeme.kind lexeme.literal
  | unexpected c _ => .error (.unexpectedCharacter line c)
  | unterminated contents _ => .error (.unterminatedString (line + contents.count '\n'))
  | _ => .skipped

/-- The line on which the text behind the segment begins. -/
def lineAfter (line : Nat) (segment : Segment) : Nat := line + segment.text.count '\n'

theorem lineAfter_of_not_mem {segment : Segment} (line : Nat) (oneLine : '\n' ∉ segment.text) :
    segment.lineAfter line = line := by
  rw [lineAfter, List.count_eq_zero_of_not_mem oneLine, Nat.add_zero]

theorem newline_not_mem_comment {body : List Char} (oneLine : '\n' ∉ body) :
    '\n' ∉ (comment body oneLine).text := by simpa [text] using oneLine

theorem lineAfter_comment {body : List Char} (line : Nat) (oneLine : '\n' ∉ body) :
    (comment body oneLine).lineAfter line = line :=
  lineAfter_of_not_mem line (newline_not_mem_comment oneLine)

theorem lineAfter_unexpected {c : Char} (line : Nat) (stray : Lead.of c = .stray) :
    (unexpected c stray).lineAfter line = line := by
  apply lineAfter_of_not_mem
  intro member
  obtain rfl := List.mem_singleton.mp member
  cases stray

theorem lineAfter_unterminated {contents : List Char} (line : Nat) (noQuote : '"' ∉ contents) :
    (unterminated contents noQuote).lineAfter line = line + contents.count '\n' := by
  simp [lineAfter, text]

end Segment

open Segment in
/-- A token is read from its whole text. Only a string may run over several lines. -/
theorem Cursor.readLexeme?_token {lexeme : Lexeme} {rest : List Char} (taken : List Char) (line : Nat)
    (ends : lexeme.EndsBefore rest) :
    readLexeme? ⟨taken, lexeme.text ++ rest, line⟩ =
      some (.token lexeme.kind lexeme.literal, ⟨lexeme.text, rest, (token lexeme).lineAfter line⟩) := by
  have sameLine (notString : lexeme.lead ≠ .quote) : (token lexeme).lineAfter line = line :=
    lineAfter_of_not_mem line (Lexeme.newline_not_mem_text notString)
  obtain ⟨first, others, begins⟩ := List.exists_cons_of_ne_nil lexeme.text_ne_nil
  have lead := Lexeme.lead_of_text begins
  rw [begins, List.cons_append, readLexeme?_cons, lead]
  cases lexeme with
  | delimiter c kind single =>
    obtain ⟨rfl, rfl⟩ := List.cons.inj begins
    rw [sameLine (by simp [Lexeme.lead])]
    rfl
  | slash =>
    obtain ⟨rfl, rfl⟩ := List.cons.inj begins
    rw [sameLine (by simp [Lexeme.lead])]
    simp only [Lexeme.lead, readAfter, readSlash, List.nil_append, accept_other _ _ ends]
    rfl
  | short c rule extensible =>
    obtain ⟨rfl, rfl⟩ := List.cons.inj begins
    rw [sameLine (by simp [Lexeme.lead])]
    simp only [Lexeme.lead, readAfter, readExtensible, List.nil_append, accept_other _ _ ends]
    rfl
  | long c rule extensible =>
    obtain ⟨rfl, rfl⟩ := List.cons.inj begins
    rw [sameLine (by simp [Lexeme.lead])]
    simp only [Lexeme.lead, readAfter, readExtensible, List.cons_append, List.nil_append,
      accept_expected]
    rfl
  | string contents noQuote =>
    obtain ⟨rfl, rfl⟩ := List.cons.inj begins
    have sameCount : (token (.string contents noQuote)).lineAfter line = line + contents.count '\n' := by
      simp [lineAfter, text, Lexeme.text]
    rw [sameCount, List.append_assoc]
    simp only [Lexeme.lead, readAfter, List.cons_append, List.nil_append,
      readString_closed rest line noQuote]
    rfl
  | number whole fraction =>
    rw [sameLine (by simp [Lexeme.lead])]
    simp only [Lexeme.lead, readAfter, readNumber_text line begins ends]
    rfl
  | word c parts start inside =>
    obtain ⟨rfl, rfl⟩ := List.cons.inj begins
    rw [sameLine (by simp [Lexeme.lead])]
    simp only [Lexeme.lead, readAfter, readWord_text c line inside ends]
    rfl

open Segment in
/-- A segment that ends before the rest is taken as a whole. -/
theorem Cursor.readLexeme?_segment {segment : Segment} {rest : List Char} (taken : List Char)
    (line : Nat) (ends : segment.EndsBefore rest) :
    readLexeme? ⟨taken, segment.text ++ rest, line⟩ =
      some (segment.reading line, ⟨segment.text, rest, segment.lineAfter line⟩) := by
  cases segment with
  | blank c is =>
    have noNewline : '\n' ∉ (blank c is).text := by
      rintro member
      obtain rfl := List.mem_singleton.mp member
      cases is
    rw [lineAfter_of_not_mem line noNewline, text, List.cons_append, readLexeme?_cons,
      lead_of_isBlank is]
    rfl
  | newline =>
    rw [text, List.cons_append, readLexeme?_cons]
    rfl
  | comment body oneLine =>
    have read := readSlash_comment line oneLine ends
    rw [lineAfter_comment line oneLine, text, List.cons_append, readLexeme?_cons]
    show some (readSlash ⟨['/'], '/' :: (body ++ rest), line⟩) = _
    rw [read]
    rfl
  | token lexeme => exact readLexeme?_token taken line ends
  | unexpected c stray =>
    rw [lineAfter_unexpected line stray, text, List.cons_append, readLexeme?_cons, stray]
    rfl
  | unterminated contents noQuote =>
    obtain rfl : rest = [] := ends
    have read := readString_open line noQuote
    rw [lineAfter_unterminated line noQuote, text, List.cons_append, readLexeme?_cons, List.append_nil]
    show some (readString ⟨['"'], contents, line⟩) = _
    rw [read]
    rfl

end ScriptLexer
