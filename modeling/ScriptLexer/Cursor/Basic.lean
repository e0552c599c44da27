namespace ScriptLexer

/-- A place in a source text: the characters taken for the lexeme being read, those still to come, and the
line that is reached. -/
structure Cursor where
  taken : List Char := []
  rest : List Char
  line : Nat := 1
deriving DecidableEq, Repr

namespace Cursor

def ofString (source : String) : Cursor := { rest := source.toList }

/-- Forgets the last lexeme, before the next one is begun. -/
def restart (c : Cursor) : Cursor := { c with taken := [] }

def addLines (c : Cursor) (count : Nat) : Cursor := { c with line := c.line + count }

/-- Takes the next character. -/
def advance? (c : Cursor) : Option (Char × Cursor) :=
  match c.rest with
  | [] => none
  | next :: rest => some (next, { c with taken := c.taken ++ [next], rest := rest })

/-- Takes the next character only if it is the expected one, and says whether it was. -/
def accept (c : Cursor) (expected : Char) : Bool × Cursor :=
  match c.advance? with
  | some (next, after) => if next = expected then (true, after) else (false, c)
  | none => (false, c)

/-- Takes the characters before the first that stops the run, and gives them. -/
def takeUntil (c : Cursor) (stops : Char → Bool) : List Char × Cursor :=
  let run := c.rest.takeWhile (!stops ·)
  (run, { c with taken := c.taken ++ run, rest := c.rest.dropWhile (!stops ·) })

/-- `later` is `c` after the characters `moved` were taken, whatever became of the line. -/
structure Takes (c : Cursor) (moved : List Char) (later : Cursor) : Prop where
  taken_eq : later.taken = c.taken ++ moved
  rest_eq : c.rest = moved ++ later.rest

theorem Takes.nothing (c : Cursor) : c.Takes [] c := ⟨by simp, rfl⟩

theorem Takes.append {c middle later : Cursor} {moved more : List Char}
    (first : c.Takes moved middle) (second : middle.Takes more later) :
    c.Takes (moved ++ more) later :=
  ⟨by rw [second.taken_eq, first.taken_eq, List.append_assoc],
    by rw [first.rest_eq, second.rest_eq, List.append_assoc]⟩

theorem Takes.addLines {c later : Cursor} {moved : List Char} (takes : c.Takes moved later)
    (count : Nat) : c.Takes moved (later.addLines count) :=
  ⟨takes.taken_eq, takes.rest_eq⟩

/-- Taking characters neither loses nor adds any. -/
theorem Takes.conserves {c later : Cursor} {moved : List Char} (takes : c.Takes moved later) :
    later.taken ++ later.rest = c.taken ++ c.rest := by
  rw [takes.taken_eq, takes.rest_eq, List.append_assoc]

theorem advance?_eq_none_iff {c : Cursor} : c.advance? = none ↔ c.rest = [] := by
  unfold advance?
  split <;> simp_all

theorem takes_of_advance? {c after : Cursor} {next : Char} (step : c.advance? = some (next, after)) :
    c.Takes [next] after ∧ after.line = c.line := by
  unfold advance? at step
  split at step
  · simp at step
  · next rest equal =>
    simp only [Option.some.injEq, Prod.mk.injEq] at step
    obtain ⟨rfl, rfl⟩ := step
    exact ⟨⟨rfl, equal⟩, rfl⟩

theorem takes_accept (c : Cursor) (expected : Char) :
    c.Takes (if (c.accept expected).1 then [expected] else []) (c.accept expected).2 ∧
      (c.accept expected).2.line = c.line := by
  unfold accept
  split
  · next step =>
    obtain ⟨takes, line⟩ := takes_of_advance? step
    split
    · next equal => subst equal; exact ⟨takes, line⟩
    · exact ⟨.nothing c, rfl⟩
  · exact ⟨.nothing c, rfl⟩

theorem takes_takeUntil (c : Cursor) (stops : Char → Bool) :
    c.Takes (c.takeUntil stops).1 (c.takeUntil stops).2 :=
  ⟨rfl, List.takeWhile_append_dropWhile.symm⟩

theorem takeUntil_line (c : Cursor) (stops : Char → Bool) :
    (c.takeUntil stops).2.line = c.line := rfl

end Cursor

end ScriptLexer
