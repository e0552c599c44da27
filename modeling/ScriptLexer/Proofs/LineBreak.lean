import ScriptLexer.Proofs.Spacing

namespace ScriptLexer

def LexicalError.addLines (count : Nat) : LexicalError → LexicalError
  | unexpectedCharacter line character => .unexpectedCharacter (line + count) character
  | unterminatedString line => .unterminatedString (line + count)
  | other line message => .other (line + count) message

/-- The same item a number of lines further down. -/
def Item.addLines (count : Nat) : Item → Item
  | .token found => .token { found with line := found.line + count }
  | .error found => .error (found.addLines count)

namespace Segment

theorem item?_addLines (line count : Nat) (segment : Segment) :
    segment.item? (line + count) = (segment.item? line).map (Item.addLines count) := by
  cases segment with
  | unterminated contents noQuote =>
    simp only [item?, Option.map_some, Item.addLines, LexicalError.addLines, Nat.add_right_comm]
  | _ => rfl

/-- Segments further down yield the same items further down. -/
theorem items_addLines (line count : Nat) (segments : List Segment) :
    items (line + count) segments = (items line segments).map (Item.addLines count) := by
  induction segments generalizing line with
  | nil => rfl
  | cons segment segments ih =>
    have sameLine : segment.lineAfter (line + count) = segment.lineAfter line + count :=
      Nat.add_right_comm _ _ _
    rw [items, items, item?_addLines, sameLine, ih, List.map_append]
    cases segment.item? line <;> rfl

/-- The segments of two texts are those of the text with a newline between, if the first text leaves
no string open. -/
theorem separated_append_newline {segments more : List Segment} (separated : Separated segments)
    (closed : ∀ contents noQuote, unterminated contents noQuote ∉ segments)
    (separatedMore : Separated more) : Separated (segments ++ newline :: more) := by
  refine separated_append separated ⟨trivial, separatedMore⟩ ?_
  rintro before segment behind rfl ends
  have segmentClosed : ∀ contents noQuote, segment ≠ unterminated contents noQuote := by
    rintro contents noQuote rfl
    exact closed contents noQuote (List.mem_append_right _ (List.mem_cons_self ..))
  exact ends.append_newline segmentClosed _

/-- A scan that reports no open string has no segment for one. -/
theorem closed_of_items {line : Nat} {segments : List Segment}
    (noError : ∀ itsLine, Item.error (.unterminatedString itsLine) ∉ items line segments) :
    ∀ contents noQuote, unterminated contents noQuote ∉ segments := by
  intro contents noQuote member
  obtain ⟨itsLine, yields⟩ := exists_line_of_mem line member
  exact noError _ (yields _ rfl)

end Segment

open Segment in
/-- The items of two texts with a newline between them are those of the first without its end of
file, and then those of the second, moved down by the lines of the first. -/
theorem items_newline_append (first second : String)
    (noError : ∀ line, Item.error (.unterminatedString line) ∉ (Scanner.ofString first).items) :
    ∃ found,
      (Scanner.ofString first).items =
        found ++ [.token (.endOfFile (1 + first.toList.count '\n'))] ∧
      (Scanner.ofString (first ++ "\n" ++ second)).items =
        found ++ (Scanner.ofString second).items.map (Item.addLines (1 + first.toList.count '\n')) := by
  obtain ⟨segments, firstText, separated⟩ := exists_segments first.toList
  obtain ⟨more, secondText, separatedMore⟩ := exists_segments second.toList
  have firstItems := Scanner.items_ofString firstText separated
  have secondItems := Scanner.items_ofString secondText separatedMore
  have closed : ∀ contents noQuote, unterminated contents noQuote ∉ segments := by
    refine @closed_of_items 1 segments fun line member => noError line ?_
    rw [firstItems]
    exact List.mem_append_left _ member
  have wholeText : sourceOf (segments ++ newline :: more) = (first ++ "\n" ++ second).toList := by
    simp [firstText, secondText, text]
  have wholeItems :=
    Scanner.items_ofString wholeText (separated_append_newline separated closed separatedMore)
  have secondLine : newline.lineAfter (1 + first.toList.count '\n') =
      1 + (1 + first.toList.count '\n') := Nat.add_comm _ 1
  have total : (first ++ "\n" ++ second).toList.count '\n' =
      second.toList.count '\n' + (1 + first.toList.count '\n') := by
    rw [← wholeText, sourceOf_append, sourceOf_cons, firstText, secondText, List.count_append,
      List.count_append]
    simp only [text, List.count_singleton_self]
    omega
  have ending : Item.addLines (1 + first.toList.count '\n')
      (.token (.endOfFile (1 + second.toList.count '\n'))) =
        .token (.endOfFile (1 + (first ++ "\n" ++ second).toList.count '\n')) := by
    rw [total, ← Nat.add_assoc]
    rfl
  refine ⟨Segment.items 1 segments, firstItems, ?_⟩
  rw [wholeItems, secondItems, List.map_append, List.map_singleton, ending, items_append, firstText,
    Segment.items, secondLine, items_addLines, List.append_assoc]
  rfl

/-- A point at the end of a line gets no digit from the next one, and a string that the second text
leaves open is reported two lines further down. -/
theorem items_newline_append_point :
    (∀ line, Item.error (.unterminatedString line) ∉ (Scanner.ofString "@ \"\n\" 12.").items) ∧
    ∃ found,
      (Scanner.ofString "@ \"\n\" 12.").items = found ++ [.token (.endOfFile 2)] ∧
      (Scanner.ofString ("@ \"\n\" 12." ++ "\n" ++ "5 \"//")).items =
        found ++ (Scanner.ofString "5 \"//").items.map (Item.addLines 2) := by
  have noError : ∀ line,
      Item.error (.unterminatedString line) ∉ (Scanner.ofString "@ \"\n\" 12.").items := by
    have yields : (Scanner.ofString "@ \"\n\" 12.").items =
        [.error (.unexpectedCharacter 1 '@'), .token ⟨.string, "\"\n\"", some (.string "\n"), 1⟩,
          .token ⟨.number, "12", some (.number (.ofDecimal ⟨12, 0⟩)), 2⟩,
          .token ⟨.dot, ".", none, 2⟩, .token (.endOfFile 2)] := by decide +kernel
    intro line
    rw [yields]
    simp
  exact ⟨noError, items_newline_append "@ \"\n\" 12." "5 \"//" noError⟩

end ScriptLexer
