import ScriptLexer.Proofs.Found
import ScriptLexer.Proofs.LineByLine

namespace ScriptLexer

/-- The first stop tells where the text before it ends. -/
theorem append_cons_inj {stop : Char} {run other rest more : List Char} (absent : stop ∉ run)
    (otherAbsent : stop ∉ other) (same : run ++ stop :: rest = other ++ stop :: more) :
    run = other ∧ rest = more := by
  have cut := (endsRun_bne stop rest).takeWhile_append (bne_of_not_mem absent)
  rw [same, (endsRun_bne stop more).takeWhile_append (bne_of_not_mem otherAbsent)] at cut
  subst cut
  exact ⟨rfl, (List.cons.inj (List.append_cancel_left same)).2⟩

section Printed

variable {α β : Type} (text : α → String)

/-- The texts of some items, each with a newline behind it. -/
def printed (items : List α) : List Char := items.flatMap fun item => (text item).toList ++ ['\n']

theorem encode_printed (items : List α) :
    (items.flatMap fun item => Utf8.encode (text item ++ "\n")) =
      Utf8.encode (String.ofList (printed text items)) := by
  simp only [printed, Utf8.encode, String.toList_ofList, String.toList_append, List.flatMap_assoc]
  rfl

/-- Wherever the text of such an item stands, it can be told what was printed and where it ends. -/
def ReadsBack (isItem : α → Prop) (key : α → β) : Prop :=
  ∀ item other rest more, isItem item → isItem other →
    (text item).toList ++ '\n' :: rest = (text other).toList ++ '\n' :: more →
    key item = key other ∧ rest = more

variable {text}

theorem ReadsBack.map_eq {isItem : α → Prop} {key : α → β} (readsBack : ReadsBack text isItem key)
    {items others : List α} (areItems : ∀ item ∈ items, isItem item)
    (otherItems : ∀ item ∈ others, isItem item) (same : printed text items = printed text others) :
    items.map key = others.map key := by
  induction items generalizing others with
  | nil =>
    cases others with
    | nil => rfl
    | cons other others => simp [printed] at same
  | cons item items ih =>
    cases others with
    | nil => simp [printed] at same
    | cons other others =>
      obtain ⟨isFirst, areItems⟩ := List.forall_mem_cons.mp areItems
      obtain ⟨otherFirst, otherItems⟩ := List.forall_mem_cons.mp otherItems
      simp only [printed, List.flatMap_cons, List.append_assoc, List.singleton_append] at same
      obtain ⟨sameKey, sameRest⟩ := readsBack item other _ _ isFirst otherFirst same
      rw [List.map_cons, List.map_cons, sameKey, ih areItems otherItems sameRest]

theorem ReadsBack.map_eq_of_bytes_eq {isItem : α → Prop} {key : α → β}
    (readsBack : ReadsBack text isItem key) {items others : List α}
    (areItems : ∀ item ∈ items, isItem item) (otherItems : ∀ item ∈ others, isItem item)
    (same : (items.flatMap fun item => Utf8.encode (text item ++ "\n")) =
      others.flatMap fun item => Utf8.encode (text item ++ "\n")) :
    items.map key = others.map key := by
  rw [encode_printed, encode_printed] at same
  have samePrinted := String.ofList_injective (Utf8.encode_injective same)
  exact readsBack.map_eq areItems otherItems samePrinted

end Printed

theorem Kind.space_not_mem_name (kind : Kind) : ' ' ∉ kind.name.toList := by
  cases kind with
  | keyword word => cases word <;> decide
  | _ => decide

theorem Kind.name_eq_string_iff {kind : Kind} : kind.name = "String" ↔ kind = .string := by
  cases kind with
  | keyword word => cases word <;> decide
  | _ => decide

namespace Token

theorem toList_toText (token : Token) :
    token.toText.toList = token.kind.name.toList ++ ' ' ::
      (token.lexeme.toList ++ ' ' :: ((token.literal.map Literal.toText).getD "").toList) := by
  simp [toText]

theorem toText_eq_of_content_eq {token other : Token} (same : token.content = other.content) :
    token.toText = other.toText := by
  simp only [content, Prod.mk.injEq] at same
  obtain ⟨kinds, lexemes, literals⟩ := same
  rw [toText, toText, kinds, lexemes, literals]

variable {token other : Token}

/-- Only a string may hold a space, and it ends at its second quote. -/
theorem IsFound.quoted_or_spaceless (found : token.IsFound) :
    (token.kind = .string ∧
      ∃ contents, '"' ∉ contents ∧ token.lexeme.toList = '"' :: (contents ++ ['"'])) ∨
    (token.kind ≠ .string ∧ ' ' ∉ token.lexeme.toList) := by
  rcases found.cases with ⟨lexeme, form⟩ | form
  · have isText : token.lexeme.toList = lexeme.text := by rw [form, String.toList_ofList]
    have isKind : token.kind = lexeme.kind := by rw [form]
    rw [isText, isKind]
    by_cases quoted : lexeme.lead = .quote
    · cases lexeme with
      | string contents noQuote => exact Or.inl ⟨rfl, contents, noQuote, rfl⟩
      | _ => cases quoted
    · refine Or.inr ⟨fun isString => quoted ?_, Lexeme.not_mem_text quoted rfl (by decide)⟩
      rw [lexeme.lead_eq_kind_lead, isString]
      rfl
  · rw [form]
    exact Or.inr ⟨nofun, List.not_mem_nil⟩

theorem IsFound.lexeme_eq_of_line_eq (found : token.IsFound) (otherFound : other.IsFound)
    {rest more : List Char}
    (same : token.toText.toList ++ '\n' :: rest = other.toText.toList ++ '\n' :: more) :
    token.lexeme = other.lexeme := by
  simp only [toList_toText, List.append_assoc, List.cons_append] at same
  obtain ⟨names, same⟩ :=
    append_cons_inj token.kind.space_not_mem_name other.kind.space_not_mem_name same
  have bothStrings : token.kind = .string ↔ other.kind = .string := by
    rw [← Kind.name_eq_string_iff, ← Kind.name_eq_string_iff, String.toList_inj.mp names]
  apply String.toList_inj.mp
  -- The name tells what ends the lexeme: its second quote, or else the next space.
  rcases found.quoted_or_spaceless with ⟨isString, contents, noQuote, quoted⟩ | ⟨notString, spaceless⟩
  · rcases otherFound.quoted_or_spaceless with ⟨-, others, otherNoQuote, otherQuoted⟩ | ⟨otherNot, -⟩
    · rw [quoted, otherQuoted] at same ⊢
      simp only [List.cons_append, List.append_assoc, List.nil_append, List.cons.injEq, true_and] at same
      rw [(append_cons_inj noQuote otherNoQuote same).1]
    · exact absurd (bothStrings.mp isString) otherNot
  · rcases otherFound.quoted_or_spaceless with ⟨otherString, -⟩ | ⟨-, otherSpaceless⟩
    · exact absurd (bothStrings.mpr otherString) notString
    · exact (append_cons_inj spaceless otherSpaceless same).1

theorem readsBack : ReadsBack toText IsFound content := by
  intro token other rest more found otherFound same
  have lexemes := found.lexeme_eq_of_line_eq otherFound same
  have contents := found.content_eq_of_lexeme_eq otherFound lexemes
  rw [toText_eq_of_content_eq contents] at same
  exact ⟨contents, (List.cons.inj (List.append_cancel_left same)).2⟩

end Token

theorem toString_injective : Function.Injective fun number : Nat => toString number := by
  intro number other same
  have digits : Nat.toDigits 10 number = Nat.toDigits 10 other := by
    simpa [Nat.toString_eq_repr] using congrArg String.toList same
  simpa using congrArg (Nat.ofDigitChars 10 · 0) digits

theorem not_mem_toString {c : Char} (noDigit : c.isDigit = false) (number : Nat) :
    c ∉ (toString number).toList := by
  intro member
  rw [Nat.toString_eq_repr, Nat.toList_repr] at member
  have digit : c.isDigit = true := Nat.isDigit_of_mem_toDigits (by omega) (by omega) member
  rw [noDigit] at digit
  cases digit

namespace LexicalError

theorem toList_toText (error : LexicalError) :
    error.toText.toList = "[line ".toList ++ ((toString error.line).toList ++ ']' ::
      (" Error: ".toList ++ error.message.toList)) := by
  simp [toText]

theorem toList_message_unexpectedCharacter (line : Nat) (c : Char) :
    (unexpectedCharacter line c).message.toList =
      "Unexpected character '".toList ++ c :: "'.".toList := by
  show ("Unexpected character '" ++ c.toString ++ "'.").toList = _
  rw [String.toList_append, String.toList_append, List.append_assoc, Char.toString_eq_singleton,
    String.toList_singleton]
  rfl

/-- The two messages differ in their third character, which no stray character comes near. -/
theorem unexpectedCharacter_message_ne (line otherLine : Nat) (c : Char) (rest more : List Char) :
    (unexpectedCharacter line c).message.toList ++ rest ≠
      (unterminatedString otherLine).message.toList ++ more := by
  have otherText : (unterminatedString otherLine).message.toList = "Unterminated string.".toList := rfl
  intro same
  rw [toList_message_unexpectedCharacter, List.append_assoc, otherText] at same
  have third : some 'e' = some 't' := congrArg (·[2]?) same
  cases third

/-- A stray character stands at a fixed place of its message, so it is not mistaken for what follows
it there. -/
theorem eq_of_message_eq {error other : LexicalError} {rest more : List Char}
    (found : error.IsFound) (otherFound : other.IsFound) (sameLine : error.line = other.line)
    (same : error.message.toList ++ '\n' :: rest = other.message.toList ++ '\n' :: more) :
    error = other := by
  rcases found.cases with ⟨line, c, -, rfl⟩ | ⟨line, rfl⟩ <;>
    rcases otherFound.cases with ⟨otherLine, d, -, rfl⟩ | ⟨otherLine, rfl⟩ <;>
    obtain rfl : line = otherLine := sameLine
  · simp only [toList_message_unexpectedCharacter, List.append_assoc, List.cons_append] at same
    rw [(List.cons.inj (List.append_cancel_left same)).1]
  · exact absurd same (unexpectedCharacter_message_ne line line c _ _)
  · exact absurd same.symm (unexpectedCharacter_message_ne line line d _ _)
  · rfl

theorem readsBack : ReadsBack toText IsFound id := by
  intro error other rest more found otherFound same
  have cut := same
  simp only [toList_toText, List.append_assoc, List.cons_append, List.append_cancel_left_eq] at cut
  obtain ⟨lines, cut⟩ :=
    append_cons_inj (not_mem_toString rfl error.line) (not_mem_toString rfl other.line) cut
  have sameLine : error.line = other.line := toString_injective (String.toList_inj.mp lines)
  obtain rfl := eq_of_message_eq found otherFound sameLine (List.append_cancel_left cut)
  exact ⟨rfl, (List.cons.inj (List.append_cancel_left same)).2⟩

theorem IsFound.newline_not_mem_toText {error : LexicalError} (found : error.IsFound) :
    '\n' ∉ error.toText.toList := by
  rw [toList_toText]
  simp only [List.mem_append, List.mem_cons, not_or]
  refine ⟨by decide, not_mem_toString rfl error.line, by decide, by decide, ?_⟩
  rcases found.cases with ⟨line, c, stray, rfl⟩ | ⟨line, rfl⟩
  · rw [toList_message_unexpectedCharacter]
    simp only [List.mem_append, List.mem_cons, not_or]
    refine ⟨by decide, ?_, by decide⟩
    rintro rfl
    cases stray
  · show '\n' ∉ "Unterminated string.".toList
    decide

end LexicalError

theorem tokenLines_eq_iff (source other : String) :
    tokenLines (scan source).1 = tokenLines (scan other).1 ↔
      (scan source).1.map Token.content = (scan other).1.map Token.content := by
  constructor
  · exact Token.readsBack.map_eq_of_bytes_eq (fun _ member => ⟨source, member⟩)
      fun _ member => ⟨other, member⟩
  · intro same
    have unplaced (tokens : List Token) :
        tokenLines tokens = (tokens.map Token.content).flatMap fun (kind, lexeme, literal) =>
          Utf8.encode ((Token.mk kind lexeme literal 0).toText ++ "\n") := by
      rw [List.flatMap_map]
      rfl
    rw [unplaced, same, ← unplaced]

theorem errorLines_eq_iff (source other : String) :
    errorLines (scan source).2.toList = errorLines (scan other).2.toList ↔
      (scan source).2.toList = (scan other).2.toList := by
  constructor
  · intro same
    have readBack := LexicalError.readsBack.map_eq_of_bytes_eq
      (fun _ member => ⟨source, member⟩) (fun _ member => ⟨other, member⟩) same
    rwa [List.map_id, List.map_id] at readBack
  · exact congrArg errorLines

/-- An error takes one line, whatever character it is about. -/
theorem count_lineFeed_errorLines {errors : List LexicalError}
    (found : ∀ error ∈ errors, error.IsFound) : (errorLines errors).count lineFeed = errors.length := by
  induction errors with
  | nil => rfl
  | cons error errors ih =>
    obtain ⟨first, others⟩ := List.forall_mem_cons.mp found
    have noFeed := Utf8.lineFeed_not_mem_encode first.newline_not_mem_toText
    rw [String.ofList_toList] at noFeed
    have line : Utf8.encode (error.toText ++ "\n") = Utf8.encode error.toText ++ [lineFeed] := by
      simp only [Utf8.encode, String.toList_append, List.flatMap_append]
      rfl
    have cut : errorLines (error :: errors) =
        Utf8.encode (error.toText ++ "\n") ++ errorLines errors := rfl
    rw [cut, List.count_append, ih others, line, List.count_append, List.count_eq_zero_of_not_mem noFeed,
      List.count_singleton_self, List.length_cons]
    omega

namespace Session

/-- What two runs print tells whether they have found the same. Only the lines of tokens are lost, for
they are not printed. -/
theorem run_tells_scan {s t : Session} (fresh : s.Fresh) (otherFresh : t.Fresh)
    (source other : String) :
    ∃ out err otherOut otherErr : Bytes,
      run source s = .ok () ⟨(ScriptLexer.scan source).2,
        ⟨s.out.written ++ out, none⟩, ⟨s.err.written ++ err, none⟩⟩ ∧
      run other t = .ok () ⟨(ScriptLexer.scan other).2,
        ⟨t.out.written ++ otherOut, none⟩, ⟨t.err.written ++ otherErr, none⟩⟩ ∧
      (out = otherOut ↔ (ScriptLexer.scan source).1.map Token.content =
        (ScriptLexer.scan other).1.map Token.content) ∧
      (err = otherErr ↔ (ScriptLexer.scan source).2.toList = (ScriptLexer.scan other).2.toList) ∧
      err.count lineFeed = (ScriptLexer.scan source).2.toList.length := by
  have runs := fresh.run source
  have otherRuns := otherFresh.run other
  rw [Sink.push_of_unlimited fresh.outFree, Sink.push_of_unlimited fresh.errFree] at runs
  rw [Sink.push_of_unlimited otherFresh.outFree, Sink.push_of_unlimited otherFresh.errFree] at otherRuns
  exact ⟨_, _, _, _, runs, otherRuns, tokenLines_eq_iff source other, errorLines_eq_iff source other,
    count_lineFeed_errorLines fun _ member => ⟨source, member⟩⟩

/-- A string may hold what looks like the last line of a transcript. -/
theorem run_tells_scan_point :
    Fresh {} ∧ ∃ (out err otherOut otherErr : Bytes) (ran otherRan : Session),
      run "\"\nEndOfFile  \" @" {} = .ok () ran ∧ run "\"\nEndOfFile  \n\" @" {} = .ok () otherRan ∧
      ran.out.written.toList = out ∧ otherRan.out.written.toList = otherOut ∧ out ≠ otherOut ∧
      ran.err.written.toList = err ∧ otherRan.err.written.toList = otherErr ∧ err ≠ otherErr ∧
      err.count lineFeed = 1 := by
  have fresh : Fresh {} := ⟨rfl, rfl, rfl⟩
  obtain ⟨out, err, otherOut, otherErr, runs, otherRuns, tokens, errors, feeds⟩ :=
    run_tells_scan fresh fresh "\"\nEndOfFile  \" @" "\"\nEndOfFile  \n\" @"
  have found : (ScriptLexer.scan "\"\nEndOfFile  \" @").2.toList = [.unexpectedCharacter 2 '@'] := by
    decide +kernel
  refine ⟨fresh, out, err, otherOut, otherErr, _, _, runs, otherRuns, by simp, by simp, ?_, by simp,
    by simp, ?_, ?_⟩
  · rw [Ne, tokens]
    decide +kernel
  · rw [Ne, errors]
    decide +kernel
  · rw [feeds, found]
    rfl

end Session

end ScriptLexer
