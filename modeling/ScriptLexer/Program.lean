import ScriptLexer.Session.Dialogue
import ScriptLexer.Session.ScriptFile

namespace ScriptLexer

namespace Program

structure Exit where
  status : ExitStatus
  stdout : Bytes
  stderr : Bytes
deriving DecidableEq, Repr

def usage : String := "Usage: krystalscript [source.ks]"

/-- Ends with a status, or with the message of a fault behind what was printed for errors. -/
def conclude (result : Except Fault ExitStatus) (s : Session) : Exit :=
  match result with
  | .ok status => ⟨status, s.out.written.toList, s.err.written.toList⟩
  | .error fault =>
    ⟨.ioError, s.out.written.toList, s.err.written.toList ++ Utf8.encode (fault.message ++ "\n")⟩

def run (args : List String) (stdin : Bytes) (read : String → Except Fault Bytes) : Exit :=
  match args with
  | [] =>
    let ending := Session.repl {} stdin
    conclude (ending.result.map fun _ => .success) ending.session
  | [path] =>
    match (Session.runFile read path).run {} with
    | .ok status after => conclude (.ok status) after
    | .error fault after => conclude (.error fault) after
  | _ => ⟨.usage, Utf8.encode (usage ++ "\n"), []⟩

end Program

end ScriptLexer
