import ScriptLexer.Bytes

namespace ScriptLexer

structure Sink where
  written : Array UInt8 := #[]
  /-- How many more bytes fit, if there is a limit. -/
  room : Option Nat := none
deriving DecidableEq, Repr

namespace Sink

def unlimited : Sink := {}

def limited (room : Nat) : Sink := { room := some room }

def fits (sink : Sink) (bytes : Bytes) : Bool :=
  match sink.room with
  | none => true
  | some room => bytes.length ≤ room

/-- The sink with as many of the bytes as fit. -/
def push : Sink → Bytes → Sink
  | ⟨written, none⟩, bytes => ⟨written ++ bytes, none⟩
  | ⟨written, some room⟩, bytes => ⟨written ++ bytes.take room, some (room - bytes.length)⟩

theorem toList_push_of_fits {sink : Sink} {bytes : Bytes} (fits : sink.fits bytes = true) :
    (sink.push bytes).written.toList = sink.written.toList ++ bytes := by
  obtain ⟨written, room⟩ := sink
  cases room with
  | none => simp [push]
  | some room =>
    simp only [Sink.fits, decide_eq_true_eq] at fits
    simp [push, List.take_of_length_le fits]

/-- A write that does not fit leaves the sink exactly full. -/
theorem room_push_of_not_fits {sink : Sink} {bytes : Bytes} (full : sink.fits bytes = false) :
    (sink.push bytes).room = some 0 := by
  obtain ⟨written, room⟩ := sink
  cases room with
  | none => simp [Sink.fits] at full
  | some room =>
    simp only [Sink.fits, decide_eq_false_iff_not] at full
    simp only [push, Option.some.injEq]
    omega

end Sink

end ScriptLexer
