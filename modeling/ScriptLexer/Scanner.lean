import ScriptLexer.Cursor.Reading
import ScriptLexer.Diagnostics

namespace ScriptLexer

/-- What a scan yields: a token, or an error in the place of a text that is no token. -/
inductive Item where
  | token (token : Token)
  | error (error : LexicalError)
deriving DecidableEq, BEq, Repr

namespace Item

def token? : Item → Option Token
  | .token found => some found
  | .error _ => none

def error? : Item → Option LexicalError
  | .token _ => none
  | .error found => some found

end Item

/-- Skips blanks, comments and line ends and reads the next lexeme; nothing if the source ends
before one. A token bears the line on which it begins. -/
def Cursor.nextItem (c : Cursor) : Option Item × Cursor :=
  match _lexeme : c.readLexeme? with
  | none => (none, c.restart)
  | some (.skipped, after) => after.nextItem
  | some (.token kind literal, after) =>
    (some (.token ⟨kind, String.ofList after.taken, literal, c.line⟩), after)
  | some (.error error, after) => (some (.error error), after)
termination_by c.rest.length
decreasing_by exact readLexeme?_rest_length_lt _lexeme

theorem Cursor.nextItem_of_end {c : Cursor} (ended : c.readLexeme? = none) :
    c.nextItem = (none, c.restart) := by
  rw [nextItem]
  split <;> simp_all

theorem Cursor.nextItem_of_skipped {c after : Cursor}
    (lexeme : c.readLexeme? = some (.skipped, after)) : c.nextItem = after.nextItem := by
  rw [nextItem]
  split <;> simp_all

theorem Cursor.nextItem_of_token {c after : Cursor} {kind : Kind} {literal : Option Literal}
    (lexeme : c.readLexeme? = some (.token kind literal, after)) :
    c.nextItem =
      (some (.token ⟨kind, String.ofList after.taken, literal, c.line⟩), after) := by
  rw [nextItem]
  split <;> simp_all

theorem Cursor.nextItem_of_error {c after : Cursor} {error : LexicalError}
    (lexeme : c.readLexeme? = some (.error error, after)) :
    c.nextItem = (some (.error error), after) := by
  rw [nextItem]
  split <;> simp_all

/-- An item uses up at least one character. -/
theorem Cursor.nextItem_rest_length_lt {c after : Cursor} {item : Item}
    (yields : c.nextItem = (some item, after)) : after.rest.length < c.rest.length := by
  match lexeme : c.readLexeme? with
  | none => simp [nextItem_of_end lexeme] at yields
  | some (.skipped, later) =>
    rw [nextItem_of_skipped lexeme] at yields
    exact Nat.lt_trans (nextItem_rest_length_lt yields) (readLexeme?_rest_length_lt lexeme)
  | some (.token kind literal, later) =>
    rw [nextItem_of_token lexeme] at yields
    exact (Prod.mk.inj yields).2 ▸ readLexeme?_rest_length_lt lexeme
  | some (.error error, later) =>
    rw [nextItem_of_error lexeme] at yields
    exact (Prod.mk.inj yields).2 ▸ readLexeme?_rest_length_lt lexeme
termination_by c.rest.length
decreasing_by exact readLexeme?_rest_length_lt lexeme

/-- A scan under way. The cursor keeps the text of the lexeme read last. -/
structure Scanner where
  cursor : Cursor
  finished : Bool := false
deriving DecidableEq, Repr

namespace Scanner

def ofString (source : String) : Scanner := { cursor := .ofString source }

/-- The next item. At the end of the source this is the end-of-file token, and from then on the
scanner yields nothing and stays as it is. -/
def next (s : Scanner) : Option Item × Scanner :=
  if s.finished then (none, s)
  else
    match s.cursor.nextItem with
    | (some item, after) => (some item, { s with cursor := after })
    | (none, after) =>
      (some (.token (.endOfFile after.line)), { cursor := after, finished := true })

/-- A bound on the items still to come: the end-of-file token, and one for each character. -/
def remaining (s : Scanner) : Nat := if s.finished then 0 else s.cursor.rest.length + 1

theorem remaining_next_lt {s after : Scanner} {item : Item} (yields : s.next = (some item, after)) :
    after.remaining < s.remaining := by
  unfold next at yields
  split at yields
  · simp at yields
  · next active =>
    split at yields
    · next read =>
      obtain ⟨-, rfl⟩ := Prod.mk.inj yields
      have shorter := Cursor.nextItem_rest_length_lt read
      simp only [remaining, active, Bool.false_eq_true, if_false]
      omega
    · obtain ⟨-, rfl⟩ := Prod.mk.inj yields
      simp [remaining, active]

/-- Runs through all items still to come. -/
def foldItems {β : Type} (f : β → Item → β) (start : β) (s : Scanner) : β :=
  match _step : s.next with
  | (none, _) => start
  | (some item, after) => after.foldItems f (f start item)
termination_by s.remaining
decreasing_by exact remaining_next_lt _step

/-- All items still to come. -/
def items (s : Scanner) : List Item := (s.foldItems Array.push #[]).toList

/-- Adds an item to the tokens or to the errors collected. -/
def sortItem (collected : Array Token × Diagnostics) : Item → Array Token × Diagnostics
  | .token token => (collected.1.push token, collected.2)
  | .error error => (collected.1, collected.2.report error)

/-- Reads to the end: the tokens, and the diagnostics with the errors reported to them. -/
def scanTokens (s : Scanner) (held : Diagnostics) : List Token × Diagnostics :=
  let (tokens, reported) := s.foldItems sortItem (#[], held)
  (tokens.toList, reported)

theorem foldItems_of_end {β : Type} {f : β → Item → β} {start : β} {s after : Scanner}
    (ended : s.next = (none, after)) : s.foldItems f start = start := by
  rw [foldItems]
  split <;> simp_all

theorem foldItems_of_item {β : Type} {f : β → Item → β} {start : β} {s after : Scanner}
    {item : Item} (yields : s.next = (some item, after)) :
    s.foldItems f start = after.foldItems f (f start item) := by
  rw [foldItems]
  split <;> simp_all

theorem foldItems_push (s : Scanner) (seen : Array Item) :
    s.foldItems Array.push seen = seen ++ s.foldItems Array.push #[] := by
  match step : s.next with
  | (none, _) => simp [foldItems_of_end step]
  | (some item, after) =>
    rw [foldItems_of_item step, foldItems_of_item step, after.foldItems_push (seen.push item),
      after.foldItems_push (#[].push item)]
    simp [← Array.append_assoc]
termination_by s.remaining
decreasing_by all_goals exact remaining_next_lt step

theorem items_of_end {s after : Scanner} (ended : s.next = (none, after)) : s.items = [] := by
  simp [items, foldItems_of_end ended]

theorem items_of_item {s after : Scanner} {item : Item} (yields : s.next = (some item, after)) :
    s.items = item :: after.items := by
  rw [items, items, foldItems_of_item yields, foldItems_push]
  simp

/-- Running through the items is folding over their list. -/
theorem foldItems_eq_foldl {β : Type} (f : β → Item → β) (start : β) (s : Scanner) :
    s.foldItems f start = s.items.foldl f start := by
  match step : s.next with
  | (none, _) => simp [foldItems_of_end step, items_of_end step]
  | (some item, after) =>
    rw [foldItems_of_item step, items_of_item step, after.foldItems_eq_foldl]
    rfl
termination_by s.remaining
decreasing_by exact remaining_next_lt step

theorem foldl_sortItem (items : List Item) (collected : Array Token × Diagnostics) :
    (items.foldl sortItem collected).1.toList = collected.1.toList ++ items.filterMap Item.token? ∧
      (items.foldl sortItem collected).2.toList =
        collected.2.toList ++ items.filterMap Item.error? := by
  induction items generalizing collected with
  | nil => simp
  | cons item rest ih =>
    cases item <;>
      simp [ih, sortItem, List.filterMap_cons, Item.token?, Item.error?, Diagnostics.toList_report]

/-- Reading to the end gives the tokens among the items, whatever was held before. -/
theorem scanTokens_tokens (s : Scanner) (held : Diagnostics) :
    (s.scanTokens held).1 = s.items.filterMap Item.token? := by
  simp only [scanTokens, foldItems_eq_foldl]
  simpa using (foldl_sortItem s.items (#[], held)).1

/-- Reading to the end reports the errors among the items behind those already held. -/
theorem scanTokens_errors (s : Scanner) (held : Diagnostics) :
    (s.scanTokens held).2.toList = held.toList ++ s.items.filterMap Item.error? := by
  simp only [scanTokens, foldItems_eq_foldl]
  exact (foldl_sortItem s.items (#[], held)).2

end Scanner

/-- Scans a whole source with no errors held before. -/
def scan (source : String) : List Token × Diagnostics := (Scanner.ofString source).scanTokens {}

end ScriptLexer
