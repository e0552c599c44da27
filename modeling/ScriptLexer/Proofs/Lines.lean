import ScriptLexer.Proofs.Decoding
import ScriptLexer.Proofs.Lexeme
import ScriptLexer.Session.Dialogue

namespace ScriptLexer

namespace Bytes

/-- A line has one line feed, at its end, or it is the last one and has none, but other bytes. -/
def AreLines : List Bytes → Prop
  | [] => True
  | line :: lines => (∃ body : Bytes, lineFeed ∉ body ∧
      (line = body ++ [lineFeed] ∨ line = body ∧ body ≠ [] ∧ lines = [])) ∧ AreLines lines

theorem AreLines.consToLines {cut : List Bytes} (lines : AreLines cut) (byte : UInt8) :
    AreLines (consToLines byte cut) := by
  unfold Bytes.consToLines
  by_cases feed : byte = lineFeed
  · subst feed
    exact ⟨⟨[], List.not_mem_nil, Or.inl rfl⟩, lines⟩
  rw [if_neg feed]
  have absent {body : Bytes} (noFeed : lineFeed ∉ body) : lineFeed ∉ byte :: body :=
    fun member => (List.mem_cons.mp member).elim (fun same => feed same.symm) noFeed
  cases cut with
  | nil => exact ⟨⟨[byte], absent List.not_mem_nil, Or.inr ⟨rfl, List.cons_ne_nil _ _, rfl⟩⟩, lines⟩
  | cons line rest =>
    obtain ⟨⟨body, noFeed, form⟩, later⟩ := lines
    refine ⟨⟨byte :: body, absent noFeed, ?_⟩, later⟩
    rcases form with rfl | ⟨rfl, -, last⟩
    · exact Or.inl rfl
    · exact Or.inr ⟨rfl, List.cons_ne_nil _ _, last⟩

theorem lines_cons (byte : UInt8) (bytes : Bytes) :
    lines (byte :: bytes) = Bytes.consToLines byte (lines bytes) := rfl

theorem areLines_lines (bytes : Bytes) : AreLines bytes.lines := by
  induction bytes with
  | nil => trivial
  | cons byte bytes ih => exact ih.consToLines byte

theorem lines_append_lineFeed {body : Bytes} (noFeed : lineFeed ∉ body) (rest : Bytes) :
    lines (body ++ lineFeed :: rest) = (body ++ [lineFeed]) :: lines rest := by
  induction body with
  | nil =>
    rw [List.nil_append, lines_cons]
    exact if_pos rfl
  | cons byte body ih =>
    obtain ⟨first, others⟩ := not_or.mp (mt List.mem_cons.mpr noFeed)
    rw [List.cons_append, lines_cons, ih others]
    exact if_neg (Ne.symm first)

theorem lines_of_not_mem {body : Bytes} (noFeed : lineFeed ∉ body) (nonempty : body ≠ []) :
    lines body = [body] := by
  induction body with
  | nil => exact absurd rfl nonempty
  | cons byte body ih =>
    obtain ⟨first, others⟩ := not_or.mp (mt List.mem_cons.mpr noFeed)
    cases body with
    | nil => exact if_neg (Ne.symm first)
    | cons next body =>
      rw [lines_cons, ih others (List.cons_ne_nil _ _)]
      exact if_neg (Ne.symm first)

/-- There is no other way to cut bytes into lines. -/
theorem AreLines.lines_flatten {cut : List Bytes} (areLines : AreLines cut) :
    lines cut.flatten = cut := by
  induction cut with
  | nil => rfl
  | cons line rest ih =>
    obtain ⟨⟨body, noFeed, form⟩, later⟩ := areLines
    rcases form with rfl | ⟨rfl, nonempty, rfl⟩
    · rw [List.flatten_cons, List.append_assoc, List.singleton_append,
        lines_append_lineFeed noFeed, ih later]
    · rw [List.flatten_cons, List.flatten_nil, List.append_nil]
      exact lines_of_not_mem noFeed nonempty

end Bytes

def isLineEnd (c : Char) : Bool := c == '\n' || c == '\r'

/-- The line is the source and a line end, and the source does not itself end with one. -/
def Holds (line : Bytes) (source : String) : Prop :=
  ∃ ending : List Char, Utf8.encode (source ++ String.ofList ending) = line ∧
    (∀ c ∈ ending, isLineEnd c = true) ∧ ∀ c ∈ source.toList.getLast?, isLineEnd c = false

namespace Session

theorem endsRun_reverse_iff {inRun : Char → Bool} {text : List Char} :
    EndsRun inRun text.reverse ↔ ∀ c ∈ text.getLast?, inRun c = false := by
  rw [EndsRun, List.head?_reverse]

/-- Taking the line end off leaves a text that ends with no part of one. -/
theorem withoutLineEnd_eq_iff {text source : String} :
    withoutLineEnd text = source ↔ ∃ ending : List Char, text = source ++ String.ofList ending ∧
      (∀ c ∈ ending, isLineEnd c = true) ∧ ∀ c ∈ source.toList.getLast?, isLineEnd c = false := by
  constructor
  · rintro rfl
    refine ⟨(text.toList.reverse.takeWhile isLineEnd).reverse, ?_, ?_, ?_⟩
    · apply String.toList_injective
      rw [withoutLineEnd, String.toList_append, String.toList_ofList, String.toList_ofList,
        ← List.reverse_append]
      exact (List.reverse_reverse _).symm.trans
        (congrArg List.reverse List.takeWhile_append_dropWhile.symm)
    · intro c member
      exact List.all_eq_true.mp List.all_takeWhile c (List.mem_reverse.mp member)
    · rw [← endsRun_reverse_iff, withoutLineEnd, String.toList_ofList, List.reverse_reverse]
      exact endsRun_dropWhile isLineEnd _
  · rintro ⟨ending, rfl, all, last⟩
    have ends := endsRun_reverse_iff.mpr last
    have inside : ∀ c ∈ ending.reverse, isLineEnd c = true :=
      fun c member => all c (List.mem_reverse.mp member)
    have dropped : (source.toList ++ ending).reverse.dropWhile isLineEnd = source.toList.reverse := by
      rw [List.reverse_append, ends.dropWhile_append inside]
    show String.ofList ((source ++ String.ofList ending).toList.reverse.dropWhile isLineEnd).reverse = _
    rw [String.toList_append, String.toList_ofList, dropped, List.reverse_reverse, String.ofList_toList]

/-- The source in a line, if the line is a text. -/
def sourceOf? (line : Bytes) : Option String := (Utf8.decode? line).map withoutLineEnd

theorem sourceOf?_eq_some_iff {line : Bytes} {source : String} :
    sourceOf? line = some source ↔ Holds line source := by
  rw [sourceOf?, Option.map_eq_some_iff]
  constructor
  · rintro ⟨text, decoded, rest⟩
    obtain ⟨ending, rfl, all, last⟩ := withoutLineEnd_eq_iff.mp rest
    exact ⟨ending, Utf8.decode?_eq_some_iff.mp decoded, all, last⟩
  · rintro ⟨ending, encoded, all, last⟩
    exact ⟨_, Utf8.decode?_eq_some_iff.mpr encoded, withoutLineEnd_eq_iff.mpr ⟨ending, rfl, all, last⟩⟩

/-- A line holds a source exactly when it is an encoding. -/
theorem exists_holds_iff {line : Bytes} :
    (∃ source, Holds line source) ↔ ∃ text, Utf8.encode text = line := by
  constructor
  · rintro ⟨source, ending, encoded, -, -⟩
    exact ⟨_, encoded⟩
  · rintro ⟨text, encoded⟩
    refine ⟨withoutLineEnd text, sourceOf?_eq_some_iff.mp ?_⟩
    rw [sourceOf?, Utf8.decode?_eq_some_iff.mpr encoded, Option.map_some]

end Session

end ScriptLexer
