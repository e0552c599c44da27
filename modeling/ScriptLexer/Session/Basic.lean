import ScriptLexer.Scanner
import ScriptLexer.Session.Fault
import ScriptLexer.Session.Sink
import ScriptLexer.Utf8

namespace ScriptLexer

structure Session where
  diagnostics : Diagnostics := {}
  out : Sink := {}
  err : Sink := {}
deriving DecidableEq, Repr

/-- An action that fails leaves the session as it was when the fault occurred. -/
abbrev SessionM := EStateM Fault Session

namespace Session

/-- Prints on the main stream. -/
def print (text : String) : SessionM Unit := fun ⟨diagnostics, out, err⟩ =>
  let bytes := Utf8.encode text
  if out.fits bytes then .ok () ⟨diagnostics, out.push bytes, err⟩
  else .error .streamFull ⟨diagnostics, out.push bytes, err⟩

/-- Prints on the stream for errors. -/
def printError (text : String) : SessionM Unit := fun ⟨diagnostics, out, err⟩ =>
  let bytes := Utf8.encode text
  if err.fits bytes then .ok () ⟨diagnostics, out, err.push bytes⟩
  else .error .streamFull ⟨diagnostics, out, err.push bytes⟩

/-- Scans a source into the diagnostics held. -/
def scan (source : String) : SessionM (List Token) := fun ⟨diagnostics, out, err⟩ =>
  let (tokens, reported) := (Scanner.ofString source).scanTokens diagnostics
  .ok tokens ⟨reported, out, err⟩

def forget : SessionM Unit := fun s => .ok () { s with diagnostics := s.diagnostics.reset }

/-- Scans a source, then prints every error held, also those from before, and then the tokens. -/
def run (source : String) : SessionM Unit := do
  let tokens ← scan source
  let held := (← get).diagnostics.toList
  held.forM fun error => printError (error.toText ++ "\n")
  tokens.forM fun token => print (token.toText ++ "\n")

end Session

end ScriptLexer
