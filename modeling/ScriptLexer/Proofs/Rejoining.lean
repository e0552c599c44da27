import ScriptLexer.Proofs.Spacing

namespace ScriptLexer

/-- A piece of what may stand between two tokens. A comment is closed by its newline. -/
inductive Gap where
  | blank (c : Char) (is : isBlank c = true)
  | newline
  | comment (body : List Char) (oneLine : '\n' ∉ body)

namespace Gap

def text : Gap → List Char
  | blank c _ => [c]
  | newline => ['\n']
  | comment body _ => '/' :: '/' :: (body ++ ['\n'])

def segments : Gap → List Segment
  | blank c is => [.blank c is]
  | newline => [.newline]
  | comment body oneLine => [.comment body oneLine, .newline]

theorem sourceOf_segments (gap : Gap) : Segment.sourceOf gap.segments = gap.text := by
  cases gap <;> simp [segments, text, Segment.text]

theorem items_segments (line : Nat) (gap : Gap) : Segment.items line gap.segments = [] := by
  cases gap <;> rfl

theorem separated_append {segments : List Segment} (gap : Gap)
    (separated : Segment.Separated segments) : Segment.Separated (gap.segments ++ segments) := by
  cases gap with
  | blank c is => exact ⟨trivial, separated⟩
  | newline => exact ⟨trivial, separated⟩
  | comment body oneLine => exact ⟨endsRun_bne '\n' _, trivial, separated⟩

end Gap

/-- What stands between two tokens: pieces of which the first begins with a blank or a newline. -/
structure Separator where
  gaps : List Gap
  begins : ∃ c rest, gaps.flatMap Gap.text = c :: rest ∧ isSpace c = true

namespace Separator

def text (separator : Separator) : List Char := separator.gaps.flatMap Gap.text

def segments (separator : Separator) : List Segment := separator.gaps.flatMap Gap.segments

theorem sourceOf_segments (separator : Separator) :
    Segment.sourceOf separator.segments = separator.text := by
  unfold segments text
  induction separator.gaps with
  | nil => rfl
  | cons gap gaps ih =>
    rw [List.flatMap_cons, List.flatMap_cons, Segment.sourceOf_append, gap.sourceOf_segments, ih]

theorem items_segments (line : Nat) (separator : Separator) :
    Segment.items line separator.segments = [] := by
  unfold segments
  induction separator.gaps generalizing line with
  | nil => rfl
  | cons gap gaps ih =>
    rw [List.flatMap_cons, Segment.items_append, gap.items_segments, ih, List.nil_append]

theorem separated_append {segments : List Segment} (separator : Separator)
    (separated : Segment.Separated segments) :
    Segment.Separated (separator.segments ++ segments) := by
  unfold Separator.segments
  induction separator.gaps with
  | nil => exact separated
  | cons gap gaps ih =>
    rw [List.flatMap_cons, List.append_assoc]
    exact gap.separated_append ih

/-- Every lexeme ends in front of a separator. -/
theorem endsBefore_append (separator : Separator) (lexeme : Lexeme) (more : List Char) :
    lexeme.EndsBefore (separator.text ++ more) := by
  obtain ⟨c, rest, begins, space⟩ := separator.begins
  have ends := Lexeme.EndsBefore.append_space lexeme.endsBefore_nil space (rest ++ more)
  rw [text, begins]
  exact ends

end Separator

/-- The lexemes of tokens, with a separator behind each but the last. -/
def woven (separators : Nat → Separator) : List Token → List Char
  | [] => []
  | [token] => token.lexeme.toList
  | token :: next :: tokens => token.lexeme.toList ++ (separators 0).text ++
      woven (fun place => separators (place + 1)) (next :: tokens)

/-- The tokens on the lines where they stand when they are woven, with `before` in front of them. -/
def placed (separators : Nat → Separator) (before : List Char) : List Token → List Token
  | [] => []
  | token :: tokens => { token with line := 1 + before.count '\n' } ::
      placed (fun place => separators (place + 1))
        (before ++ token.lexeme.toList ++ (separators 0).text) tokens

open Segment in
/-- Woven tokens are cut where they were joined. -/
theorem exists_segments_woven {tokens : List Token} (separators : Nat → Separator)
    (lexemes : ∀ token ∈ tokens, ∃ lexeme : Lexeme,
      token = ⟨lexeme.kind, String.ofList lexeme.text, lexeme.literal, token.line⟩) :
    ∃ segments, sourceOf segments = woven separators tokens ∧ Separated segments ∧
      ∀ before : List Char, Segment.items (1 + before.count '\n') segments =
        (placed separators before tokens).map Item.token := by
  induction tokens generalizing separators with
  | nil => exact ⟨[], rfl, trivial, fun _ => rfl⟩
  | cons token tokens ih =>
    obtain ⟨lexeme, shape⟩ := lexemes token (List.mem_cons_self ..)
    have sameText : token.lexeme.toList = lexeme.text := by rw [shape, String.toList_ofList]
    have own (line : Nat) :
        (Segment.token lexeme).item? line = some (.token { token with line := line }) := by
      rw [shape]
      rfl
    cases tokens with
    | nil =>
      refine ⟨[.token lexeme], ?_, ⟨lexeme.endsBefore_nil, trivial⟩, fun before => ?_⟩
      · rw [woven, sameText, sourceOf_cons, sourceOf_nil, List.append_nil]
        rfl
      · rw [Segment.items, own]
        rfl
    | cons next rest =>
      -- The segments of the separator go between, and move only the line of what follows.
      obtain ⟨segments, same, separated, yields⟩ := ih (fun place => separators (place + 1))
        fun other member => lexemes other (List.mem_cons_of_mem _ member)
      have cut : sourceOf ((separators 0).segments ++ segments) =
          (separators 0).text ++ sourceOf segments := by
        rw [sourceOf_append, (separators 0).sourceOf_segments]
      refine ⟨.token lexeme :: ((separators 0).segments ++ segments), ?_, ⟨?_, ?_⟩, fun before => ?_⟩
      · rw [woven, sameText, sourceOf_cons, cut, same, List.append_assoc]
        rfl
      · rw [cut]
        exact (separators 0).endsBefore_append lexeme _
      · exact (separators 0).separated_append separated
      · have lineBehind : (Segment.token lexeme).lineAfter (1 + before.count '\n') +
            (separators 0).text.count '\n' =
              1 + (before ++ token.lexeme.toList ++ (separators 0).text).count '\n' := by
          simp only [lineAfter, Segment.text, sameText, List.count_append]
          omega
        rw [Segment.items, own, items_append, (separators 0).items_segments,
          (separators 0).sourceOf_segments, lineBehind, yields]
        rfl

/-- Scanning woven tokens gives the tokens back, each on the line where it now stands, and reports
no error. -/
theorem items_woven (tokens : List Token) (separators : Nat → Separator)
    (scanned : ∀ token ∈ tokens, token.kind ≠ .endOfFile ∧
      ∃ source : String, .token token ∈ (Scanner.ofString source).items) :
    (Scanner.ofString (String.ofList (woven separators tokens))).items =
      (placed separators [] tokens).map Item.token ++
        [.token (.endOfFile (1 + (woven separators tokens).count '\n'))] := by
  have lexemes : ∀ token ∈ tokens, ∃ lexeme : Lexeme,
      token = ⟨lexeme.kind, String.ofList lexeme.text, lexeme.literal, token.line⟩ := by
    intro token member
    obtain ⟨notEnd, source, inItems⟩ := scanned token member
    exact Scanner.exists_lexeme_of_mem_items inItems notEnd
  obtain ⟨segments, same, separated, yields⟩ := exists_segments_woven separators lexemes
  have text : Segment.sourceOf segments = (String.ofList (woven separators tokens)).toList := by
    rw [same, String.toList_ofList]
  have whole := Scanner.items_ofString text separated
  have placement : Segment.items 1 segments = (placed separators [] tokens).map Item.token := yields []
  rw [whole, placement, String.toList_ofList]

/-- A blank alone, or with a comment behind it, for the case below. -/
def Separator.blankOr (comment : Bool) : Separator where
  gaps := .blank ' ' rfl :: if comment then [.comment ['5', '"'] (by decide)] else []
  begins := ⟨' ', _, rfl, rfl⟩

/-- Comment marks and a newline in a string stay there, the quote in the comment opens nothing, and
a point with space around it makes no number of its neighbours. -/
theorem items_woven_point :
    (∀ token ∈ [⟨.string, "\"a\n//\"", some (.string "a\n//"), 1⟩,
        ⟨.number, "12", some (.number (.ofDecimal ⟨12, 0⟩)), 2⟩, ⟨.dot, ".", none, 2⟩,
        ⟨.number, "5", some (.number (.ofDecimal ⟨5, 0⟩)), 1⟩],
      (token : Token).kind ≠ .endOfFile ∧
        ∃ source : String, .token token ∈ (Scanner.ofString source).items) ∧
    (Scanner.ofString "\"a\n//\" //5\"\n12 . 5").items =
      [.token ⟨.string, "\"a\n//\"", some (.string "a\n//"), 1⟩,
        .token ⟨.number, "12", some (.number (.ofDecimal ⟨12, 0⟩)), 3⟩,
        .token ⟨.dot, ".", none, 3⟩,
        .token ⟨.number, "5", some (.number (.ofDecimal ⟨5, 0⟩)), 3⟩,
        .token (.endOfFile 3)] := by
  have scanned : ∀ token ∈ [⟨.string, "\"a\n//\"", some (.string "a\n//"), 1⟩,
      ⟨.number, "12", some (.number (.ofDecimal ⟨12, 0⟩)), 2⟩, ⟨.dot, ".", none, 2⟩,
      ⟨.number, "5", some (.number (.ofDecimal ⟨5, 0⟩)), 1⟩],
      (token : Token).kind ≠ .endOfFile ∧
        ∃ source : String, .token token ∈ (Scanner.ofString source).items := by
    have joined : (Scanner.ofString "\"a\n//\"12.").items =
        [.token ⟨.string, "\"a\n//\"", some (.string "a\n//"), 1⟩,
          .token ⟨.number, "12", some (.number (.ofDecimal ⟨12, 0⟩)), 2⟩,
          .token ⟨.dot, ".", none, 2⟩, .token (.endOfFile 2)] := by
      decide +kernel
    have divided : (Scanner.ofString "5/").items =
        [.token ⟨.number, "5", some (.number (.ofDecimal ⟨5, 0⟩)), 1⟩,
          .token ⟨.slash, "/", none, 1⟩, .token (.endOfFile 1)] := by
      decide +kernel
    intro token member
    simp only [List.mem_cons, List.not_mem_nil, or_false] at member
    rcases member with rfl | rfl | rfl | rfl
    · exact ⟨by decide, "\"a\n//\"12.", by rw [joined]; simp⟩
    · exact ⟨by decide, "\"a\n//\"12.", by rw [joined]; simp⟩
    · exact ⟨by decide, "\"a\n//\"12.", by rw [joined]; simp⟩
    · exact ⟨by decide, "5/", by rw [divided]; simp⟩
  have whole := items_woven _ (fun place => .blankOr (place == 0)) scanned
  refine ⟨scanned, ?_⟩
  simpa [woven, placed, Separator.text, Separator.blankOr, Gap.text, Token.endOfFile] using whole

end ScriptLexer
