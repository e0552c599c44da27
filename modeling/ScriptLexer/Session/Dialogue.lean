import ScriptLexer.Session.Basic

namespace ScriptLexer

namespace Session

def prompt : String := "KS> "

def exitCommand : String := "exit"

/-- The text without the carriage returns and line feeds at its end. -/
def withoutLineEnd (text : String) : String :=
  String.ofList (text.toList.reverse.dropWhile fun c => c == '\n' || c == '\r').reverse

/-- Answers a line and says whether another one is wanted. The errors of a line are forgotten once
it is printed. -/
def answer (line : Bytes) : SessionM Bool :=
  match Utf8.decode? line with
  | none => throw .notUtf8
  | some text => do
    let source := withoutLineEnd text
    if source = exitCommand then
      return false
    else
      run source
      forget
      return true

/-- How a dialogue ended, and the lines that it did not come to. -/
structure Ending where
  result : Except Fault Unit
  unread : List Bytes
  session : Session

/-- Holds a dialogue over lines that are all there beforehand. A line that was read is not unread,
even if it could not be answered. -/
def converse (s : Session) : List Bytes → Ending
  | [] =>
    match (print prompt).run s with
    | .ok _ after => ⟨.ok (), [], after⟩
    | .error fault after => ⟨.error fault, [], after⟩
  | line :: lines =>
    match (print prompt).run s with
    | .error fault after => ⟨.error fault, line :: lines, after⟩
    | .ok _ after =>
      match (answer line).run after with
      | .error fault answered => ⟨.error fault, lines, answered⟩
      | .ok false answered => ⟨.ok (), lines, answered⟩
      | .ok true answered => converse answered lines

/-- A dialogue over the lines of the input. -/
def repl (s : Session) (input : Bytes) : Ending := s.converse input.lines

end Session

end ScriptLexer
