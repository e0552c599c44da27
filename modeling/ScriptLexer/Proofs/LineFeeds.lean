import ScriptLexer.Proofs.Found
import ScriptLexer.Proofs.Replacement

namespace ScriptLexer

/-- A line feed in the place of every carriage return and line feed, from left to right. -/
def joinLineEnds : List Char → List Char
  | [] => []
  | '\r' :: '\n' :: rest => '\n' :: joinLineEnds rest
  | c :: rest => c :: joinLineEnds rest

/-- The text with a line feed at the end of every line. -/
def withLineFeeds (text : String) : String := String.ofList (joinLineEnds text.toList)

def Literal.withLineFeeds : Literal → Literal
  | number value => .number value
  | string contents => .string (ScriptLexer.withLineFeeds contents)

def Token.withLineFeeds (token : Token) : Token :=
  { token with
    lexeme := ScriptLexer.withLineFeeds token.lexeme
    literal := token.literal.map Literal.withLineFeeds }

def Item.withLineFeeds : Item → Item
  | .token found => .token found.withLineFeeds
  | .error found => .error found

section Texts

variable {text rest : List Char}

theorem joinLineEnds_cons {c : Char} (lone : c = '\r' → rest.head? ≠ some '\n') :
    joinLineEnds (c :: rest) = c :: joinLineEnds rest := by
  rw [joinLineEnds]
  rintro more rfl rfl
  exact lone rfl rfl

/-- Texts are treated apart unless the one ends between the two characters of a pair. -/
theorem joinLineEnds_append (apart : text.getLast? = some '\r' → rest.head? ≠ some '\n') :
    joinLineEnds (text ++ rest) = joinLineEnds text ++ joinLineEnds rest := by
  fun_induction joinLineEnds text with
  | case1 => rfl
  | case2 more ih =>
    have apartMore : more.getLast? = some '\r' → rest.head? ≠ some '\n' := by
      intro last
      refine apart ?_
      rw [List.getLast?_cons_cons, List.getLast?_cons, last]
      rfl
    exact congrArg ('\n' :: ·) (ih apartMore)
  | case3 c more notPair ih =>
    have apartMore : more.getLast? = some '\r' → rest.head? ≠ some '\n' := by
      intro last
      refine apart ?_
      rw [List.getLast?_cons, last]
      rfl
    have lone : c = '\r' → (more ++ rest).head? ≠ some '\n' := by
      rintro rfl
      cases more with
      | nil => exact apart rfl
      | cons d more =>
        intro newline
        obtain rfl : d = '\n' := Option.some.inj newline
        exact notPair more rfl rfl
    rw [List.cons_append, joinLineEnds_cons lone, ih apartMore, List.cons_append]

theorem joinLineEnds_of_not_mem (oneLine : '\n' ∉ text) : joinLineEnds text = text := by
  fun_induction joinLineEnds text with
  | case1 => rfl
  | case2 more ih => simp at oneLine
  | case3 c more notPair ih => rw [ih (fun member => oneLine (List.mem_cons_of_mem c member))]

theorem mem_of_mem_joinLineEnds {c : Char} (member : c ∈ joinLineEnds text) : c ∈ text := by
  fun_induction joinLineEnds text with
  | case1 => exact member
  | case2 more ih =>
    refine List.mem_cons_of_mem _ ?_
    rcases List.mem_cons.mp member with rfl | later
    · exact List.mem_cons_self ..
    · exact List.mem_cons_of_mem _ (ih later)
  | case3 d more notPair ih =>
    rcases List.mem_cons.mp member with rfl | later
    · exact List.mem_cons_self ..
    · exact List.mem_cons_of_mem _ (ih later)

theorem count_newline_joinLineEnds (text : List Char) :
    (joinLineEnds text).count '\n' = text.count '\n' := by
  fun_induction joinLineEnds text with
  | case1 => rfl
  | case2 more ih => simp [ih]
  | case3 c more notPair ih => rw [List.count_cons, List.count_cons, ih]

theorem joinLineEnds_quote (text : List Char) : joinLineEnds ('"' :: text) = '"' :: joinLineEnds text :=
  joinLineEnds_cons fun same => absurd same (by decide)

theorem joinLineEnds_quoted (contents : List Char) :
    joinLineEnds ('"' :: (contents ++ ['"'])) = '"' :: (joinLineEnds contents ++ ['"']) := by
  rw [joinLineEnds_quote, joinLineEnds_append (by simp)]
  rfl

end Texts

/-- What is on one line has no pair in it. -/
theorem Lexeme.withLineFeeds_of_not_mem {lexeme : Lexeme} (line : Nat) (oneLine : '\n' ∉ lexeme.text) :
    Token.withLineFeeds ⟨lexeme.kind, String.ofList lexeme.text, lexeme.literal, line⟩ =
      ⟨lexeme.kind, String.ofList lexeme.text, lexeme.literal, line⟩ := by
  have sameLiteral : lexeme.literal.map Literal.withLineFeeds = lexeme.literal := by
    cases lexeme with
    | string contents noQuote =>
      have inside : '\n' ∉ contents := by
        intro member
        exact oneLine (List.mem_cons_of_mem _ (List.mem_append_left _ member))
      simp only [literal, Option.map_some, Literal.withLineFeeds, withLineFeeds,
        String.toList_ofList, joinLineEnds_of_not_mem inside]
    | _ => rfl
  rw [Token.withLineFeeds, sameLiteral, withLineFeeds, String.toList_ofList,
    joinLineEnds_of_not_mem oneLine]

namespace Segment

/-- The segments of a text are those of the other text with its line ends joined, and they yield the
same, with the line ends joined in it. -/
structure Joins (segments joined : List Segment) : Prop where
  text_eq : sourceOf joined = joinLineEnds (sourceOf segments)
  replaces : Replaces segments joined
  items_eq : ∀ line, items line joined = (items line segments).map Item.withLineFeeds

namespace Joins

variable {segment other : Segment} {segments joined : List Segment}

theorem cons (joins : Joins segments joined)
    (sameText : joinLineEnds (segment.text ++ sourceOf segments) =
      other.text ++ joinLineEnds (sourceOf segments))
    (ends : other.EndsBefore (sourceOf segments))
    (mayReplace : MayReplace (segment.text ++ sourceOf segments) (other.text ++ sourceOf joined))
    (sameLines : other.text.count '\n' = segment.text.count '\n')
    (sameItem : ∀ line, other.item? line = (segment.item? line).map Item.withLineFeeds) :
    Joins (segment :: segments) (other :: joined) where
  text_eq := by rw [sourceOf_cons, sourceOf_cons, joins.text_eq, sameText]
  replaces := ⟨⟨joins.replaces.mayReplace other [] ends, joins.replaces.separated⟩, mayReplace⟩
  items_eq line := by
    rw [items, items, lineAfter, sameLines, ← lineAfter, joins.items_eq, sameItem, List.map_append]
    cases segment.item? line <;> rfl

/-- A segment on one line is left as it is, unless it ends between the two characters of a pair. -/
theorem keep (joins : Joins segments joined) (ends : segment.EndsBefore (sourceOf segments))
    (oneLine : '\n' ∉ segment.text)
    (apart : segment.text.getLast? = some '\r' → (sourceOf segments).head? ≠ some '\n')
    (sameItem : ∀ line, segment.item? line = (segment.item? line).map Item.withLineFeeds) :
    Joins (segment :: segments) (segment :: joined) := by
  refine joins.cons ?_ ends (joins.replaces.mayReplace.append _) rfl sameItem
  rw [joinLineEnds_append apart, joinLineEnds_of_not_mem oneLine]

/-- In front of the line feed of a pair the carriage return is a blank, and it goes. -/
theorem exists_blank {c : Char} (joins : Joins segments joined) (is : isBlank c = true) :
    ∃ more, Joins (blank c is :: segments) more := by
  by_cases pair : c = '\r' ∧ (sourceOf segments).head? = some '\n'
  · obtain ⟨rfl, newline⟩ := pair
    obtain ⟨rest, begins⟩ := List.head?_eq_some_iff.mp newline
    have joinedText : sourceOf joined = joinLineEnds ('\r' :: sourceOf segments) := by
      rw [joins.text_eq, begins]
      rfl
    have lineEnd : EndsRun (· != '\n') (sourceOf joined) := by
      rw [joins.text_eq, begins]
      exact endsRun_bne '\n' _
    have mayReplace := mayReplace_lineEnd (List.cons_ne_nil '\r' (sourceOf segments)) lineEnd
    exact ⟨joined, joinedText, ⟨joins.replaces.separated, mayReplace⟩, joins.items_eq⟩
  · have noNewline : '\n' ∉ [c] := by
      intro member
      obtain rfl := List.mem_singleton.mp member
      cases is
    refine ⟨blank c is :: joined, joins.keep trivial noNewline ?_ fun _ => rfl⟩
    exact fun last newline => pair ⟨Option.some.inj last, newline⟩

/-- Or it is the last character of a comment. -/
theorem exists_comment {body : List Char} (joins : Joins segments joined) (oneLine : '\n' ∉ body)
    (ends : (comment body oneLine).EndsBefore (sourceOf segments)) :
    ∃ more, Joins (comment body oneLine :: segments) more := by
  by_cases pair : body.getLast? = some '\r' ∧ (sourceOf segments).head? = some '\n'
  · obtain ⟨shorter, rfl⟩ := List.getLast?_eq_some_iff.mp pair.1
    obtain ⟨rest, begins⟩ := List.head?_eq_some_iff.mp pair.2
    have shorterOneLine : '\n' ∉ shorter := fun member => oneLine (List.mem_append_left _ member)
    have cut : (comment (shorter ++ ['\r']) oneLine).text ++ sourceOf segments =
        (comment shorter shorterOneLine).text ++ '\r' :: '\n' :: rest := by
      simp [begins, text]
    have kept := joinLineEnds_of_not_mem (newline_not_mem_comment shorterOneLine)
    refine ⟨comment shorter shorterOneLine :: joined,
      joins.cons ?_ ends (mayReplace_of_alike rfl) ?_ fun _ => rfl⟩
    · rw [cut, joinLineEnds_append (by simp), kept, begins]
      rfl
    · rw [List.count_eq_zero_of_not_mem (newline_not_mem_comment oneLine),
        List.count_eq_zero_of_not_mem (newline_not_mem_comment shorterOneLine)]
  · refine ⟨comment body oneLine :: joined,
      joins.keep ends (newline_not_mem_comment oneLine) ?_ fun _ => rfl⟩
    intro last newline
    refine pair ⟨?_, newline⟩
    cases body with
    | nil => cases last
    | cons c body => simpa [text] using last

/-- Pairs between quotes are joined there. No other token holds a pair or ends with half of one. -/
theorem exists_token {lexeme : Lexeme} (joins : Joins segments joined)
    (ends : lexeme.EndsBefore (sourceOf segments)) : ∃ more, Joins (token lexeme :: segments) more := by
  by_cases quoted : lexeme.lead = .quote
  · cases lexeme with
    | string contents noQuote =>
      have last : (token (.string contents noQuote)).text.getLast? = some '"' := by
        rw [text, Lexeme.text, ← List.cons_append, List.getLast?_concat]
      refine ⟨token (.string (joinLineEnds contents) (mt mem_of_mem_joinLineEnds noQuote)) :: joined,
        joins.cons ?_ trivial (mayReplace_quote _ _) ?_ fun line => ?_⟩
      · rw [joinLineEnds_append fun ending => absurd (last.symm.trans ending) (by decide)]
        exact congrArg (· ++ _) (joinLineEnds_quoted contents)
      · simp [text, Lexeme.text, count_newline_joinLineEnds]
      · simp [item?, Lexeme.text, Lexeme.kind, Lexeme.literal, Item.withLineFeeds,
          Token.withLineFeeds, Literal.withLineFeeds, withLineFeeds, joinLineEnds_quoted]
    | _ => cases quoted
  · have oneLine := Lexeme.newline_not_mem_text quoted
    have noReturn : '\r' ∉ lexeme.text := Lexeme.not_mem_text quoted rfl (by decide)
    refine ⟨token lexeme :: joined, joins.keep ends oneLine ?_ fun line => ?_⟩
    · exact fun last => absurd (List.mem_of_getLast? last) noReturn
    · exact congrArg (some ∘ Item.token) (Lexeme.withLineFeeds_of_not_mem line oneLine).symm

theorem keep_unexpected {c : Char} {stray : Lead.of c = .stray} (joins : Joins segments joined) :
    Joins (unexpected c stray :: segments) (unexpected c stray :: joined) := by
  have noNewline : '\n' ∉ [c] := by
    intro member
    obtain rfl := List.mem_singleton.mp member
    cases stray
  refine joins.keep trivial noNewline ?_ fun _ => rfl
  intro last
  obtain rfl : c = '\r' := Option.some.inj last
  cases stray

/-- Pairs behind an open quote are joined there, too. -/
theorem join_unterminated {contents : List Char} (noQuote : '"' ∉ contents) :
    Joins [unterminated contents noQuote]
      [unterminated (joinLineEnds contents) (mt mem_of_mem_joinLineEnds noQuote)] := by
  have nothing : Joins [] [] := ⟨rfl, replaces_nil, fun _ => rfl⟩
  refine nothing.cons ?_ rfl (mayReplace_quote _ _) ?_ fun line => ?_
  · rw [sourceOf_nil, List.append_nil]
    exact (joinLineEnds_quote contents).trans (List.append_nil _).symm
  · simp [text, count_newline_joinLineEnds]
  · simp [item?, Item.withLineFeeds, count_newline_joinLineEnds]

end Joins

theorem exists_joins {segments : List Segment} (separated : Separated segments) :
    ∃ joined, Joins segments joined := by
  induction segments with
  | nil => exact ⟨[], rfl, replaces_nil, fun _ => rfl⟩
  | cons segment segments ih =>
    obtain ⟨ends, separated⟩ := separated
    obtain ⟨joined, joins⟩ := ih separated
    cases segment with
    | blank c is => exact joins.exists_blank is
    | newline =>
      exact ⟨newline :: joined, joins.cons (joinLineEnds_cons nofun) trivial
        (joins.replaces.mayReplace.append _) rfl fun _ => rfl⟩
    | comment body oneLine => exact joins.exists_comment oneLine ends
    | token lexeme => exact joins.exists_token ends
    | unexpected c stray => exact ⟨_, joins.keep_unexpected⟩
    | unterminated contents noQuote =>
      obtain rfl := eq_nil_of_sourceOf_eq_nil ends
      exact ⟨_, Joins.join_unterminated noQuote⟩

end Segment

/-- A token changes only if it is a string over several lines. -/
theorem Token.IsFound.withLineFeeds_eq {token : Token} (found : token.IsFound)
    (notLong : ¬(token.kind = .string ∧ '\n' ∈ token.lexeme.toList)) : token.withLineFeeds = token := by
  rcases found.cases with ⟨lexeme, form⟩ | form
  · have oneLine : '\n' ∉ lexeme.text := by
      intro member
      have quoted : lexeme.lead = .quote :=
        Decidable.byContradiction fun other => Lexeme.newline_not_mem_text other member
      cases lexeme with
      | string contents noQuote =>
        rw [form, String.toList_ofList] at notLong
        exact notLong ⟨rfl, member⟩
      | _ => cases quoted
    rw [form]
    exact Lexeme.withLineFeeds_of_not_mem _ oneLine
  · rw [form]
    rfl

/-- With a line feed at the end of every line, the errors are the same, and so are the tokens if that
is done in the strings among them, too. No other token changes. -/
theorem scan_withLineFeeds (source : String) :
    (scan (withLineFeeds source)).2 = (scan source).2 ∧
      (scan (withLineFeeds source)).1 = (scan source).1.map Token.withLineFeeds ∧
      ∀ token ∈ (scan source).1, ¬(token.kind = .string ∧ '\n' ∈ token.lexeme.toList) →
        token.withLineFeeds = token := by
  obtain ⟨segments, text, separated⟩ := Segment.exists_segments source.toList
  obtain ⟨joined, joins⟩ := Segment.exists_joins separated
  have joinedText : Segment.sourceOf joined = (withLineFeeds source).toList := by
    rw [joins.text_eq, text, withLineFeeds, String.toList_ofList]
  have sameCount : (withLineFeeds source).toList.count '\n' = source.toList.count '\n' := by
    rw [withLineFeeds, String.toList_ofList, count_newline_joinLineEnds]
  refine ⟨Diagnostics.ext_toList ?_, ?_, fun token member => ?_⟩
  · rw [scan_errors_of_segments joinedText joins.replaces.separated,
      scan_errors_of_segments text separated, joins.items_eq, List.filterMap_map]
    refine List.filterMap_congr fun item _ => ?_
    cases item <;> rfl
  · rw [scan_tokens_of_segments joinedText joins.replaces.separated,
      scan_tokens_of_segments text separated, joins.items_eq, sameCount, List.filterMap_map,
      List.map_append, List.map_filterMap]
    refine congrArg (· ++ _) (List.filterMap_congr fun item _ => ?_)
    cases item <;> rfl
  · exact Token.IsFound.withLineFeeds_eq ⟨source, member⟩

/-- One pass leaves a carriage return that a pair was behind of, and one with nothing behind. -/
example : withLineFeeds "a\r\r\n\r" = "a\r\n\r" := by decide +kernel

end ScriptLexer
