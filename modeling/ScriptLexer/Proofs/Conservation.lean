import ScriptLexer.Proofs.Pull

namespace ScriptLexer

/-- The longest beginning of a text without a character that stops it. -/
structure IsLongestRun (stops : Char → Bool) (text run : List Char) : Prop where
  begins : run <+: text
  free : ∀ c ∈ run, stops c = false
  longest : ∀ other, other <+: text → (∀ c ∈ other, stops c = false) → other <+: run

theorem isLongestRun_takeWhile (stops : Char → Bool) (text : List Char) :
    IsLongestRun stops text (text.takeWhile (!stops ·)) where
  begins := List.takeWhile_prefix _
  free c member := by simpa using List.all_eq_true.mp List.all_takeWhile c member
  longest other begins free := by
    obtain ⟨more, rfl⟩ := begins
    rw [List.takeWhile_append_of_pos fun c member => by simp [free c member]]
    exact List.prefix_append other _

theorem Kind.second_ne_newline {first : Char} {operator : Kind.Extensible}
    (extensible : Kind.extensible? first = some operator) : operator.second ≠ '\n' := by
  unfold Kind.extensible? at extensible
  split at extensible <;> cases extensible <;> decide

namespace Cursor

variable {c middle later : Cursor} {moved more : List Char}

theorem advance?_of_rest_eq {next : Char} {rest : List Char} (cut : c.rest = next :: rest) :
    ∃ after, c.advance? = some (next, after) := by
  simp [advance?, cut]

theorem accept_eq_true_iff (c : Cursor) (expected : Char) :
    (c.accept expected).1 = true ↔ c.rest.head? = some expected := by
  unfold accept advance?
  cases c.rest with
  | nil => simp
  | cons next rest =>
    dsimp only
    split <;> simp [*]

section Loop

variable {σ : Type} {stops : Char → Bool} {act : σ → Char → σ}

/-- Looks at the next character, ends if there is none or it is one to stop at, and otherwise takes it,
acts on what was looked at and begins again. The characters acted on are told in their order. -/
inductive Loops (stops : Char → Bool) (act : σ → Char → σ) :
    σ → Cursor → List Char → σ → Cursor → Prop where
  | ended {state : σ} {c : Cursor} (looked : c.rest.head? = none) :
      Loops stops act state c [] state c
  | stopped {state : σ} {c : Cursor} {next : Char} (looked : c.rest.head? = some next)
      (stop : stops next = true) : Loops stops act state c [] state c
  | goesOn {state final : σ} {c after later : Cursor} {next gone : Char} {acted : List Char}
      (looked : c.rest.head? = some next) (free : stops next = false)
      (step : c.advance? = some (gone, after))
      (others : Loops stops act (act state next) after acted final later) :
      Loops stops act state c (next :: acted) final later

theorem takeUntil_of_ended (looked : c.rest.head? = none) : c.takeUntil stops = ([], c) := by
  obtain ⟨taken, rest, line⟩ := c
  obtain rfl : rest = [] := List.head?_eq_none_iff.mp looked
  simp [takeUntil]

theorem takeUntil_of_stopped {next : Char} (looked : c.rest.head? = some next)
    (stop : stops next = true) : c.takeUntil stops = ([], c) := by
  obtain ⟨taken, rest, line⟩ := c
  obtain ⟨others, rfl⟩ := List.head?_eq_some_iff.mp looked
  simp [takeUntil, stop]

theorem takeUntil_of_advance? {next : Char} (free : stops next = false)
    (step : c.advance? = some (next, later)) :
    c.takeUntil stops = (next :: (later.takeUntil stops).1, (later.takeUntil stops).2) := by
  obtain ⟨taken, rest, line⟩ := c
  obtain ⟨takes, sameLine⟩ := takes_of_advance? step
  obtain ⟨takenLater, restLater, lineLater⟩ := later
  obtain rfl : takenLater = taken ++ [next] := takes.taken_eq
  obtain rfl : rest = next :: restLater := takes.rest_eq
  obtain rfl : lineLater = line := sameLine
  simp [takeUntil, free]

/-- The loop comes to an end in one way, however it acts: with the run taken at once. -/
theorem loops_iff {state final : σ} {acted : List Char} :
    Loops stops act state c acted final later ↔
      acted = (c.takeUntil stops).1 ∧ final = acted.foldl act state ∧
        later = (c.takeUntil stops).2 := by
  constructor
  · intro loops
    induction loops with
    | ended looked => simp [takeUntil_of_ended looked]
    | stopped looked stop => simp [takeUntil_of_stopped looked stop]
    | goesOn looked free step others ih =>
      obtain ⟨rest, cut⟩ := List.head?_eq_some_iff.mp looked
      have same := (takes_of_advance? step).1.rest_eq.symm.trans cut
      obtain ⟨rfl, -⟩ := List.cons.inj same
      obtain ⟨sameActed, sameFinal, sameLater⟩ := ih
      rw [takeUntil_of_advance? free step]
      exact ⟨congrArg _ sameActed, sameFinal, sameLater⟩
  · -- The loop is built along the rest, which every round makes shorter by one.
    rintro ⟨rfl, rfl, rfl⟩
    generalize chars : c.rest = rest
    induction rest generalizing c state with
    | nil =>
      have looked : c.rest.head? = none := by rw [chars]; rfl
      rw [takeUntil_of_ended looked]
      exact .ended looked
    | cons next rest ih =>
      have looked : c.rest.head? = some next := by rw [chars]; rfl
      cases stop : stops next with
      | true =>
        rw [takeUntil_of_stopped looked stop]
        exact .stopped looked stop
      | false =>
        obtain ⟨after, step⟩ := advance?_of_rest_eq chars
        have fewer := (takes_of_advance? step).1.rest_eq.symm.trans chars
        rw [takeUntil_of_advance? stop step]
        exact .goesOn looked stop step (ih (List.cons.inj fewer).2)

def countNewline (count : Nat) (next : Char) : Nat := if next = '\n' then count + 1 else count

theorem foldl_countNewline (run : List Char) (count : Nat) :
    run.foldl countNewline count = count + run.count '\n' := by
  induction run generalizing count with
  | nil => rfl
  | cons next run ih =>
    rw [List.foldl_cons, ih, countNewline]
    by_cases newline : next = '\n'
    · rw [if_pos newline, newline, List.count_cons_self]
      omega
    · rw [if_neg newline, List.count_cons_of_ne newline]

/-- A string moves the line by the newlines that its loop has counted. -/
theorem readString_line_of_loops {count : Nat} {acted : List Char}
    (loops : Loops (· == '"') countNewline 0 c acted count later) :
    c.readString.2.line = c.line + count := by
  obtain ⟨rfl, rfl, -⟩ := loops_iff.mp loops
  rw [foldl_countNewline, Nat.zero_add]
  simp only [readString]
  split
  · rfl
  · next step => exact (takes_of_advance? step).2

end Loop

/-- `later` is `c` after the characters `moved`, none of them a newline, were taken. -/
structure TakesOnLine (c : Cursor) (moved : List Char) (later : Cursor) : Prop
    extends c.Takes moved later where
  oneLine : '\n' ∉ moved
  line_eq : later.line = c.line

theorem TakesOnLine.nothing (c : Cursor) : c.TakesOnLine [] c := ⟨.nothing c, List.not_mem_nil, rfl⟩

theorem TakesOnLine.append (first : c.TakesOnLine moved middle) (second : middle.TakesOnLine more later) :
    c.TakesOnLine (moved ++ more) later where
  toTakes := first.toTakes.append second.toTakes
  oneLine := by simp [first.oneLine, second.oneLine]
  line_eq := second.line_eq.trans first.line_eq

theorem takesOnLine_accept (c : Cursor) (expected : Char) (oneLine : expected ≠ '\n') :
    c.TakesOnLine (if (c.accept expected).1 then [expected] else []) (c.accept expected).2 where
  toTakes := (takes_accept c expected).1
  oneLine := by
    split
    · simpa using oneLine.symm
    · exact List.not_mem_nil
  line_eq := (takes_accept c expected).2

theorem takesOnLine_takeUntil (c : Cursor) {stops : Char → Bool} (oneLine : stops '\n' = true) :
    c.TakesOnLine (c.takeUntil stops).1 (c.takeUntil stops).2 where
  toTakes := takes_takeUntil c stops
  oneLine member := by
    have free := (isLongestRun_takeWhile stops c.rest).free '\n' member
    rw [oneLine] at free
    cases free
  line_eq := takeUntil_line c stops

theorem takesOnLine_takeDigits (c : Cursor) : ∃ moved, c.TakesOnLine moved c.takeDigits :=
  ⟨_, takesOnLine_takeUntil c (by decide)⟩

theorem takesOnLine_takeFraction (c : Cursor) : ∃ moved, c.TakesOnLine moved c.takeFraction := by
  unfold takeFraction
  split
  · split
    · obtain ⟨moved, digits⟩ := takesOnLine_takeDigits (c.accept '.').2
      exact ⟨_, (takesOnLine_accept c '.' (by decide)).append digits⟩
    · exact ⟨[], .nothing c⟩
  · exact ⟨[], .nothing c⟩

theorem takesOnLine_readSlash (c : Cursor) : ∃ moved, c.TakesOnLine moved c.readSlash.2 := by
  have accepted := takesOnLine_accept c '/' (by decide)
  unfold readSlash
  split <;> simp only [*] at accepted
  · exact ⟨_, accepted.append (takesOnLine_takeUntil _ (by decide))⟩
  · exact ⟨_, accepted⟩

theorem takesOnLine_readExtensible (c : Cursor) {operator : Kind.Extensible}
    (oneLine : operator.second ≠ '\n') : ∃ moved, c.TakesOnLine moved (c.readExtensible operator).2 := by
  have accepted := takesOnLine_accept c operator.second oneLine
  unfold readExtensible
  split <;> simp only [*] at accepted <;> exact ⟨_, accepted⟩

theorem takesOnLine_readNumber (c : Cursor) : ∃ moved, c.TakesOnLine moved c.readNumber.2 := by
  obtain ⟨whole, first⟩ := takesOnLine_takeDigits c
  obtain ⟨fraction, second⟩ := takesOnLine_takeFraction c.takeDigits
  simp only [readNumber]
  split <;> exact ⟨_, first.append second⟩

theorem takesOnLine_readWord (c : Cursor) : ∃ moved, c.TakesOnLine moved c.readWord.2 :=
  ⟨_, takesOnLine_takeUntil c (by decide)⟩

/-- The quote that ends a string is no newline, so all newlines are counted before it is taken. -/
theorem takes_readString_line (c : Cursor) :
    ∃ moved, c.Takes moved c.readString.2 ∧ c.readString.2.line = c.line + moved.count '\n' := by
  have inside := (takes_takeUntil c (· == '"')).addLines ((c.takeUntil (· == '"')).1.count '\n')
  simp only [readString]
  split
  · exact ⟨_, inside, rfl⟩
  · next gone after step =>
    obtain ⟨takes, sameLine⟩ := takes_of_advance? step
    -- The run ended here, so what is taken is the quote.
    have ends : EndsRun (!· == '"') (c.takeUntil (· == '"')).2.rest := endsRun_dropWhile _ c.rest
    have quote : gone = '"' := by
      have cut : (c.takeUntil (· == '"')).2.rest = gone :: after.rest := takes.rest_eq
      rw [cut, endsRun_cons] at ends
      simpa using ends
    refine ⟨_, inside.append takes, ?_⟩
    rw [sameLine, quote, List.count_append]
    rfl

theorem takesOnLine_read (c : Cursor) {first : Char} (noNewline : first ≠ '\n')
    (noQuote : first ≠ '"') : ∃ moved, c.TakesOnLine moved (c.read first).2 := by
  have describes := describes_lead first
  rw [read_eq_readAfter]
  cases lead : Lead.of first with
  | operator rule =>
    rw [lead] at describes
    exact takesOnLine_readExtensible c (Kind.second_ne_newline describes)
  | delimiter kind => exact ⟨[], .nothing c⟩
  | slash => exact takesOnLine_readSlash c
  | blank => exact ⟨[], .nothing c⟩
  | newline =>
    rw [lead] at describes
    exact absurd describes noNewline
  | quote =>
    rw [lead] at describes
    exact absurd describes noQuote
  | digit => exact takesOnLine_readNumber c
  | letter => exact takesOnLine_readWord c
  | stray => exact ⟨[], .nothing c⟩

/-- A newline stands alone, a string has its own newlines, and there is none in anything else. -/
theorem takes_read_line (c : Cursor) (first : Char) :
    ∃ moved, c.Takes moved (c.read first).2 ∧
      (c.read first).2.line = c.line + (first :: moved).count '\n' ∧
      (first = '\n' → moved = []) ∧ (first ≠ '\n' → first ≠ '"' → '\n' ∉ moved) := by
  by_cases newline : first = '\n'
  · subst newline
    exact ⟨[], (Takes.nothing c).addLines 1, rfl, fun _ => rfl, fun other => absurd rfl other⟩
  · have counted (moved : List Char) : (first :: moved).count '\n' = moved.count '\n' :=
      List.count_cons_of_ne newline
    by_cases quote : first = '"'
    · subst quote
      obtain ⟨moved, takes, line⟩ := takes_readString_line c
      exact ⟨moved, takes, line, fun same => absurd same newline, fun _ other => absurd rfl other⟩
    · obtain ⟨moved, takes⟩ := takesOnLine_read c newline quote
      have none : (first :: moved).count '\n' = 0 := by
        rw [counted, List.count_eq_zero_of_not_mem takes.oneLine]
      exact ⟨moved, takes.toTakes, by rw [none]; exact takes.line_eq, fun same => absurd same newline,
        fun _ _ => takes.oneLine⟩

end Cursor

namespace Scanner

/-- The scan with its cursor moved. -/
def withCursor (s : Scanner) (c : Cursor) : Scanner := { s with cursor := c }

/-- `later` is `s` after the characters `moved` went from the front of the rest to the end of the lexeme
and the line went on by `lines`. -/
structure Shifts (s : Scanner) (moved : List Char) (lines : Nat) (later : Scanner) : Prop where
  text_eq : later.cursor.taken ++ later.cursor.rest = s.cursor.taken ++ s.cursor.rest
  finished_eq : later.finished = s.finished
  taken_eq : later.cursor.taken = s.cursor.taken ++ moved
  line_eq : later.cursor.line = s.cursor.line + lines

theorem shifts_of_takes {s : Scanner} {c : Cursor} {moved : List Char} {lines : Nat}
    (takes : s.cursor.Takes moved c) (line_eq : c.line = s.cursor.line + lines) :
    s.Shifts moved lines (s.withCursor c) :=
  ⟨takes.conserves, rfl, takes.taken_eq, line_eq⟩

/-- What is pulled from a scan once a lexeme is read: the item that the lexeme is, or the next one if it
is none. -/
def nextAfter (s : Scanner) : Reading × Cursor → Option Item × Scanner
  | (.skipped, after) => (s.withCursor after).next
  | (.token kind literal, after) =>
    (some (.token ⟨kind, String.ofList after.taken, literal, s.cursor.line⟩), s.withCursor after)
  | (.error error, after) => (some (.error error), s.withCursor after)

theorem withCursor_of_active {s : Scanner} (active : s.finished = false) (c : Cursor) :
    s.withCursor c = ⟨c, false⟩ := by
  rw [withCursor, active]

/-- The first character unread is dispatched to with nothing else in the lexeme, and the scan goes on at
the cursor that reading leaves. -/
theorem next_eq_nextAfter {s : Scanner} {first : Char} {begun : Cursor} (active : s.finished = false)
    (started : s.cursor.restart.advance? = some (first, begun)) :
    begun.taken = [first] ∧ s.next = s.nextAfter (begun.read first) := by
  have lexeme : s.cursor.readLexeme? = some (begun.read first) := by
    rw [Cursor.readLexeme?, started]
  refine ⟨(Cursor.takes_of_advance? started).1.taken_eq, ?_⟩
  rcases result : begun.read first with ⟨reading, after⟩
  rw [result] at lexeme
  have left := withCursor_of_active active after
  cases reading with
  | skipped =>
    have same := Cursor.nextItem_of_skipped lexeme
    simp [nextAfter, left, next, active, same]
  | token kind literal =>
    rw [nextAfter, left]
    exact next_of_item active (Cursor.nextItem_of_token lexeme)
  | error error =>
    rw [nextAfter, left]
    exact next_of_item active (Cursor.nextItem_of_error lexeme)

/-- Every move of a scan keeps its text, never shortens the lexeme and does not finish the scan. Taking a
character, or an expected one, moves that character if it is there. Taking up to a stop moves the longest
run, and the loop that does so, whatever it does to its own state, acts on each character of the run once,
in order. Reading on after a first character, which is the lexeme at that time, moves the line by the
newlines of the whole lexeme: a newline is read alone, and only a string has others. -/
theorem moves_conserve (s : Scanner) :
    (∀ next rest, s.cursor.rest = next :: rest → ∃ after,
      s.cursor.advance? = some (next, after) ∧ s.Shifts [next] 0 (s.withCursor after)) ∧
    (s.cursor.advance? = none ↔ s.cursor.rest = []) ∧
    (∀ expected, ((s.cursor.accept expected).1 = true ↔ s.cursor.rest.head? = some expected) ∧
      s.Shifts (if (s.cursor.accept expected).1 then [expected] else []) 0
        (s.withCursor (s.cursor.accept expected).2)) ∧
    (∀ stops, IsLongestRun stops s.cursor.rest (s.cursor.takeUntil stops).1 ∧
      s.Shifts (s.cursor.takeUntil stops).1 0 (s.withCursor (s.cursor.takeUntil stops).2) ∧
      ∀ (σ : Type) (act : σ → Char → σ) (state final : σ) (acted : List Char) (later : Cursor),
        Cursor.Loops stops act state s.cursor acted final later ↔
          acted = (s.cursor.takeUntil stops).1 ∧ final = acted.foldl act state ∧
            later = (s.cursor.takeUntil stops).2) ∧
    (∃ moved, s.Shifts moved (moved.count '\n') (s.withCursor s.cursor.readString.2)) ∧
    (∀ acted count later, Cursor.Loops (· == '"') Cursor.countNewline 0 s.cursor acted count later →
      s.cursor.readString.2.line = s.cursor.line + count) ∧
    (∃ moved, '\n' ∉ moved ∧ s.Shifts moved 0 (s.withCursor s.cursor.readNumber.2)) ∧
    (∃ moved, '\n' ∉ moved ∧ s.Shifts moved 0 (s.withCursor s.cursor.readWord.2)) ∧
    (∀ first, ∃ moved,
      s.Shifts moved ((first :: moved).count '\n') (s.withCursor (s.cursor.read first).2) ∧
      (first = '\n' → moved = []) ∧ (first ≠ '\n' → first ≠ '"' → '\n' ∉ moved)) ∧
    ∀ first begun, s.finished = false → s.cursor.restart.advance? = some (first, begun) →
      begun.taken = [first] ∧ s.next = s.nextAfter (begun.read first) := by
  refine ⟨fun next rest cut => ?_, Cursor.advance?_eq_none_iff, fun expected => ?_, fun stops => ?_, ?_,
    fun acted count later loops => Cursor.readString_line_of_loops loops, ?_, ?_, fun first => ?_,
    fun first begun active started => next_eq_nextAfter active started⟩
  · obtain ⟨after, step⟩ := Cursor.advance?_of_rest_eq cut
    obtain ⟨takes, line⟩ := Cursor.takes_of_advance? step
    exact ⟨after, step, shifts_of_takes takes line⟩
  · obtain ⟨takes, line⟩ := s.cursor.takes_accept expected
    exact ⟨s.cursor.accept_eq_true_iff expected, shifts_of_takes takes line⟩
  · exact ⟨isLongestRun_takeWhile stops s.cursor.rest,
      shifts_of_takes (s.cursor.takes_takeUntil stops) (s.cursor.takeUntil_line stops),
      fun σ act state final acted later => Cursor.loops_iff⟩
  · obtain ⟨moved, takes, line⟩ := s.cursor.takes_readString_line
    exact ⟨moved, shifts_of_takes takes line⟩
  · obtain ⟨moved, takes⟩ := s.cursor.takesOnLine_readNumber
    exact ⟨moved, takes.oneLine, shifts_of_takes takes.toTakes takes.line_eq⟩
  · obtain ⟨moved, takes⟩ := s.cursor.takesOnLine_readWord
    exact ⟨moved, takes.oneLine, shifts_of_takes takes.toTakes takes.line_eq⟩
  · obtain ⟨moved, takes, line, alone, oneLine⟩ := s.cursor.takes_read_line first
    exact ⟨moved, shifts_of_takes takes line, alone, oneLine⟩

/-- A string over two lines, of which the quote is dispatched to. -/
theorem moves_conserve_point :
    let s : Scanner := .ofString "\"a\n\" b"
    let inside : Scanner := s.withCursor ⟨['"'], ['a', '\n', '"', ' ', 'b'], 1⟩
    s.next = s.nextAfter (inside.cursor.read '"') ∧
      (∃ after, inside.cursor.advance? = some ('a', after) ∧
        inside.Shifts ['a'] 0 (inside.withCursor after)) ∧
      inside.cursor.readString.2.line = 1 + 1 ∧
      (∃ moved, inside.Shifts moved (('\n' :: moved).count '\n')
        (inside.withCursor (inside.cursor.read '\n').2) ∧ moved = []) ∧
      ∃ moved, inside.Shifts moved (('a' :: moved).count '\n')
        (inside.withCursor (inside.cursor.read 'a').2) ∧ '\n' ∉ moved := by
  intro s inside
  obtain ⟨advances, -, -, takes, -, counts, -, -, reads, -⟩ := moves_conserve inside
  obtain ⟨-, -, -, -, -, -, -, -, -, dispatches⟩ := moves_conserve s
  obtain ⟨-, -, loops⟩ := takes (· == '"')
  obtain ⟨moved, shifts, alone, -⟩ := reads '\n'
  obtain ⟨others, shiftsOthers, -, oneLine⟩ := reads 'a'
  refine ⟨(dispatches '"' inside.cursor (by decide) (by decide)).2, advances 'a' _ rfl, ?_,
    ⟨moved, shifts, alone rfl⟩, ⟨others, shiftsOthers, oneLine (by decide) (by decide)⟩⟩
  have counted := (loops Nat Cursor.countNewline 0 1 ['a', '\n'] _).mpr ⟨by decide, by decide, rfl⟩
  exact counts _ _ _ counted

end Scanner

end ScriptLexer
