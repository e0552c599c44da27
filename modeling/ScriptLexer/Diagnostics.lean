import ScriptLexer.LexicalError

namespace ScriptLexer

structure Diagnostics where
  errors : Array LexicalError := #[]
deriving DecidableEq, Repr

namespace Diagnostics

def toList (held : Diagnostics) : List LexicalError := held.errors.toList

def report (held : Diagnostics) (error : LexicalError) : Diagnostics := ⟨held.errors.push error⟩

/-- Reports a fault given by its line and wording alone. -/
def reportOther (held : Diagnostics) (line : Nat) (message : String) : Diagnostics :=
  held.report (.other line message)

def reset (_held : Diagnostics) : Diagnostics := {}

def size (held : Diagnostics) : Nat := held.errors.size

def isEmpty (held : Diagnostics) : Bool := held.errors.isEmpty

def hasFailed (held : Diagnostics) : Bool := !held.isEmpty

def lines (held : Diagnostics) : List Nat := held.toList.map LexicalError.line

theorem toList_report (held : Diagnostics) (error : LexicalError) :
    (held.report error).toList = held.toList ++ [error] := by
  simp [report, toList]

theorem hasFailed_iff (held : Diagnostics) : held.hasFailed = true ↔ held.toList ≠ [] := by
  simp [hasFailed, isEmpty, toList]

theorem ext_toList {held other : Diagnostics} (same : held.toList = other.toList) : held = other := by
  cases held; cases other
  exact congrArg Diagnostics.mk (Array.toList_inj.mp same)

end Diagnostics

end ScriptLexer
