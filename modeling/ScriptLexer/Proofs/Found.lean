import ScriptLexer.Proofs.TokenForm

namespace ScriptLexer

/-- Some scan gives this token. -/
def Token.IsFound (token : Token) : Prop := ∃ source, token ∈ (scan source).1

/-- Some scan reports this error. -/
def LexicalError.IsFound (error : LexicalError) : Prop := ∃ source, error ∈ (scan source).2.toList

theorem scan_tokens_of_segments {source : String} {segments : List Segment}
    (text : Segment.sourceOf segments = source.toList) (separated : Segment.Separated segments) :
    (scan source).1 = (Segment.items 1 segments).filterMap Item.token? ++
      [.endOfFile (1 + source.toList.count '\n')] := by
  rw [scan, Scanner.scanTokens_tokens, Scanner.items_ofString text separated, List.filterMap_append]
  rfl

theorem scan_errors_of_segments {source : String} {segments : List Segment}
    (text : Segment.sourceOf segments = source.toList) (separated : Segment.Separated segments) :
    (scan source).2.toList = (Segment.items 1 segments).filterMap Item.error? := by
  rw [scan, Scanner.scanTokens_errors, Scanner.items_ofString text separated, List.filterMap_append]
  exact List.append_nil _

namespace Token.IsFound

variable {token other : Token}

theorem cases (found : token.IsFound) :
    (∃ lexeme : Lexeme,
      token = ⟨lexeme.kind, String.ofList lexeme.text, lexeme.literal, token.line⟩) ∨
    token = .endOfFile token.line := by
  obtain ⟨source, member⟩ := found
  obtain ⟨segments, text, separated⟩ := Segment.exists_segments source.toList
  rw [scan_tokens_of_segments text separated] at member
  rcases List.mem_append.mp member with inSegments | ending
  · obtain ⟨item, inItems, isToken⟩ := List.mem_filterMap.mp inSegments
    obtain ⟨segment, -, line, yields⟩ := Segment.exists_of_mem_items inItems
    cases item with
    | error error => cases isToken
    | token _ =>
      cases isToken
      obtain ⟨lexeme, -, rfl⟩ := Segment.exists_lexeme_of_item? yields
      exact Or.inl ⟨lexeme, rfl⟩
  · exact Or.inr (by rw [List.mem_singleton.mp ending]; rfl)

/-- The text of a token scanned by itself. Nothing around the token has a part in what it is. -/
theorem scan_lexeme (found : token.IsFound) :
    (scan token.lexeme).1.head?.map Token.content = some token.content := by
  rcases found.cases with ⟨lexeme, form⟩ | form
  · have alone : Segment.sourceOf [.token lexeme] = (String.ofList lexeme.text).toList := by
      rw [String.toList_ofList]
      exact List.append_nil _
    rw [form, scan_tokens_of_segments alone ⟨lexeme.endsBefore_nil, trivial⟩]
    rfl
  · rw [form]
    exact congrArg (·.head?.map Token.content)
      (@scan_tokens_of_segments "" [] rfl trivial)

theorem content_eq_of_lexeme_eq (found : token.IsFound) (otherFound : other.IsFound)
    (same : token.lexeme = other.lexeme) : token.content = other.content := by
  have scanned := found.scan_lexeme
  rw [same, otherFound.scan_lexeme] at scanned
  exact (Option.some.inj scanned).symm

theorem lexeme_eq_empty_iff (found : token.IsFound) : token.lexeme = "" ↔ token.kind = .endOfFile := by
  rcases found.cases with ⟨lexeme, form⟩ | form
  · rw [form]
    refine ⟨fun empty => ?_, fun ending => absurd ending lexeme.kind_ne_endOfFile⟩
    have none := congrArg String.toList empty
    rw [String.toList_ofList] at none
    exact absurd none lexeme.text_ne_nil
  · rw [form]
    exact ⟨fun _ => rfl, fun _ => rfl⟩

end Token.IsFound

theorem LexicalError.IsFound.cases {error : LexicalError} (found : error.IsFound) :
    (∃ line c, Lead.of c = .stray ∧ error = .unexpectedCharacter line c) ∨
      ∃ line, error = .unterminatedString line := by
  obtain ⟨source, member⟩ := found
  obtain ⟨segments, text, separated⟩ := Segment.exists_segments source.toList
  rw [scan_errors_of_segments text separated] at member
  obtain ⟨item, inItems, isError⟩ := List.mem_filterMap.mp member
  obtain ⟨segment, -, line, yields⟩ := Segment.exists_of_mem_items inItems
  cases segment with
  | unexpected c stray =>
    cases yields
    cases isError
    exact Or.inl ⟨line, c, stray, rfl⟩
  | unterminated contents noQuote =>
    cases yields
    cases isError
    exact Or.inr ⟨_, rfl⟩
  | token lexeme =>
    cases yields
    cases isError
  | _ => cases yields

end ScriptLexer
