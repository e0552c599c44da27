import ScriptLexer.Proofs.Grammar
import ScriptLexer.Proofs.SegmentItems

namespace ScriptLexer

/-- Looking a word up gives the keyword that the grammar has for it. -/
theorem Keyword.ofSpelling?_eq_some_iff {word : String} {keyword : Keyword} :
    ofSpelling? word = some keyword ↔ (word, keyword) ∈ Grammar.keywords := by
  have known : ∀ entry ∈ spellings, entry ∈ Grammar.keywords := by decide
  have found : ∀ entry ∈ Grammar.keywords, ofSpelling? entry.1 = some entry.2 := by decide
  constructor
  · intro looked
    obtain ⟨before, after, cut, -⟩ := List.lookup_eq_some_iff.mp looked
    have member : (word, keyword) ∈ spellings := by
      rw [cut]
      exact List.mem_append_right before (List.mem_cons_self ..)
    exact known _ member
  · intro member
    exact found _ member

theorem Kind.ofWord_of_mem {word : String} {reserved : Keyword}
    (member : (word, reserved) ∈ Grammar.keywords) : ofWord word = keyword reserved := by
  simp only [ofWord, Keyword.ofSpelling?_eq_some_iff.mpr member]

theorem Kind.ofWord_of_not_mem {word : String}
    (notReserved : ∀ reserved, (word, reserved) ∉ Grammar.keywords) : ofWord word = identifier := by
  cases found : Keyword.ofSpelling? word with
  | none => simp only [ofWord, found]
  | some reserved => exact absurd (Keyword.ofSpelling?_eq_some_iff.mp found) (notReserved reserved)

theorem isWordPart_iff {c : Char} : isWordPart c = true ↔ c.isAlphanum = true ∨ c = '_' := by
  simp only [isWordPart, Bool.or_eq_true, isWordStart_iff, Char.isAlphanum]
  constructor
  · rintro ((alpha | underscore) | digit)
    · exact Or.inl (Or.inl alpha)
    · exact Or.inr underscore
    · exact Or.inl (Or.inr digit)
  · rintro ((alpha | digit) | underscore)
    · exact Or.inl (Or.inl alpha)
    · exact Or.inr digit
    · exact Or.inl (Or.inr underscore)

namespace Segment

/-- The segments that the grammar does not know. -/
def IsError : Segment → Prop
  | unexpected _ _ => True
  | unterminated _ _ => True
  | _ => False

end Segment

namespace Grammar

open Segment

/-- The kind of a symbol by the two tables of the reader. -/
def symbolKind? : List Char → Option Kind
  | [c] => if c = '/' then some .slash else ((Kind.extensible? c).map (·.short)).or (Kind.single? c)
  | [c, second] =>
    (Kind.extensible? c).bind fun rule => if second = rule.second then some rule.long else none
  | _ => none

theorem symbolKind?_of_mem {text : List Char} {kind : Kind} (member : (text, kind) ∈ symbols) :
    symbolKind? text = some kind := by
  have table : ∀ entry ∈ symbols, symbolKind? entry.1 = some entry.2 := by decide
  exact table _ member

/-- A symbol is the text of an operator or a delimiter. -/
theorem exists_lexeme_of_mem_symbols {text : List Char} {kind : Kind} (member : (text, kind) ∈ symbols) :
    ∃ lexeme : Lexeme, lexeme.text = text ∧ lexeme.kind = kind ∧ lexeme.literal = none := by
  have found := symbolKind?_of_mem member
  match text with
  | [] => cases found
  | [c] =>
    by_cases slash : c = '/'
    · subst slash
      cases found
      exact ⟨.slash, rfl, rfl, rfl⟩
    · simp only [symbolKind?, slash, if_false] at found
      cases extensible : Kind.extensible? c with
      | some rule =>
        rw [extensible] at found
        cases found
        exact ⟨.short c rule extensible, rfl, rfl, rfl⟩
      | none =>
        rw [extensible] at found
        exact ⟨.delimiter c kind found, rfl, rfl, rfl⟩
  | [c, second] =>
    obtain ⟨rule, extensible, long⟩ := Option.bind_eq_some_iff.mp found
    split at long
    · next same =>
      subst same
      cases long
      exact ⟨.long c rule extensible, rfl, rfl, rfl⟩
    · cases long
  | _ :: _ :: _ :: _ => cases found

theorem mem_symbols_of_single? {c : Char} {kind : Kind} (single : Kind.single? c = some kind) :
    ([c], kind) ∈ symbols := by
  unfold Kind.single? at single
  split at single <;> cases single <;> decide

theorem mem_symbols_of_extensible? {c : Char} {rule : Kind.Extensible}
    (extensible : Kind.extensible? c = some rule) :
    ([c], rule.short) ∈ symbols ∧ ([c, rule.second], rule.long) ∈ symbols := by
  unfold Kind.extensible? at extensible
  split at extensible <;> cases extensible <;> decide

/-- What the grammar matches is a segment, and the grammar reads it as the scanner does. -/
theorem Matches.exists_segment {text : List Char} {reading : Reading} (matched : Matches text reading) :
    ∃ segment : Segment, ¬segment.IsError ∧ segment.text = text ∧
      ∀ line, segment.reading line = reading := by
  cases matched with
  | symbol member =>
    obtain ⟨lexeme, same, kind, literal⟩ := exists_lexeme_of_mem_symbols member
    exact ⟨.token lexeme, id, same, fun line => by simp only [Segment.reading, kind, literal]⟩
  | string noQuote => exact ⟨.token (.string _ noQuote), id, rfl, fun _ => rfl⟩
  | @whole _ value nonempty inside parsed =>
    let whole : Digits := ⟨text, nonempty, inside⟩
    have same := (Lexeme.ofChars?_numberText whole none).symm.trans parsed
    refine ⟨.token (.number whole none), id, rfl, fun line => ?_⟩
    simp only [Segment.reading, Lexeme.kind, Lexeme.literal, Option.some.inj same]
  | @fraction digits places value nonempty inside placesNonempty placesInside parsed =>
    let whole : Digits := ⟨digits, nonempty, inside⟩
    let fraction : Digits := ⟨places, placesNonempty, placesInside⟩
    have same := (Lexeme.ofChars?_numberText whole (some fraction)).symm.trans parsed
    refine ⟨.token (.number whole (some fraction)), id, rfl, fun line => ?_⟩
    simp only [Segment.reading, Lexeme.kind, Lexeme.literal, Option.some.inj same]
  | @reserved first others keyword start parts member =>
    have startIs := isWordStart_iff.mpr start
    have partsAre : ∀ c ∈ others, isWordPart c = true := fun c inOthers =>
      isWordPart_iff.mpr (parts c inOthers)
    refine ⟨.token (.word first others startIs partsAre), id, rfl, fun line => ?_⟩
    simp only [Segment.reading, Lexeme.kind, Lexeme.literal, Kind.ofWord_of_mem member]
  | @identifier first others start parts notReserved =>
    have startIs := isWordStart_iff.mpr start
    have partsAre : ∀ c ∈ others, isWordPart c = true := fun c inOthers =>
      isWordPart_iff.mpr (parts c inOthers)
    refine ⟨.token (.word first others startIs partsAre), id, rfl, fun line => ?_⟩
    simp only [Segment.reading, Lexeme.kind, Lexeme.literal, Kind.ofWord_of_not_mem notReserved]
  | @space c member =>
    by_cases newline : c = '\n'
    · subst newline
      exact ⟨.newline, id, rfl, fun _ => rfl⟩
    · have blank : isBlank c = true := by
        simpa [isBlank, newline, or_assoc] using member
      exact ⟨.blank c blank, id, rfl, fun _ => rfl⟩
  | comment oneLine => exact ⟨.comment _ oneLine, id, rfl, fun _ => rfl⟩

/-- Every segment that is no error is matched by a pattern. -/
theorem matches_segment {segment : Segment} (line : Nat) (noError : ¬segment.IsError) :
    Matches segment.text (segment.reading line) := by
  cases segment with
  | blank c is =>
    have member : c ∈ [' ', '\r', '\t', '\n'] := by
      simp only [isBlank, Bool.or_eq_true, beq_iff_eq] at is
      rcases is with (rfl | rfl) | rfl <;> simp
    exact .space member
  | newline => exact .space (by simp)
  | comment body oneLine => exact .comment oneLine
  | unexpected c stray => exact absurd trivial noError
  | unterminated contents noQuote => exact absurd trivial noError
  | token lexeme =>
    cases lexeme with
    | delimiter c kind single => exact .symbol (mem_symbols_of_single? single)
    | slash => exact .symbol (by decide)
    | short c rule extensible => exact .symbol (mem_symbols_of_extensible? extensible).1
    | long c rule extensible => exact .symbol (mem_symbols_of_extensible? extensible).2
    | string contents noQuote => exact .string noQuote
    | number whole fraction =>
      have parsed := Lexeme.ofChars?_numberText whole fraction
      cases fraction with
      | none => exact .whole whole.chars_ne_nil whole.isDigit_of_mem parsed
      | some fraction =>
        exact .fraction whole.chars_ne_nil whole.isDigit_of_mem fraction.chars_ne_nil
          fraction.isDigit_of_mem parsed
    | word first others start parts =>
      have startIs := isWordStart_iff.mp start
      have partsAre : ∀ c ∈ others, c.isAlphanum = true ∨ c = '_' := fun c inOthers =>
        isWordPart_iff.mp (parts c inOthers)
      by_cases reserved : ∃ keyword, (String.ofList (first :: others), keyword) ∈ keywords
      · obtain ⟨keyword, member⟩ := reserved
        simp only [Segment.text, Lexeme.text, Segment.reading, Lexeme.kind, Lexeme.literal,
          Kind.ofWord_of_mem member]
        exact .reserved startIs partsAre member
      · have notReserved := not_exists.mp reserved
        simp only [Segment.text, Lexeme.text, Segment.reading, Lexeme.kind, Lexeme.literal,
          Kind.ofWord_of_not_mem notReserved]
        exact .identifier startIs partsAre notReserved

end Grammar

end ScriptLexer
