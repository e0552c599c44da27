import ScriptLexer.Program

namespace ScriptLexer

def writeBytes (stream : IO.FS.Stream) (bytes : Bytes) : IO Unit := do
  stream.write ⟨bytes.toArray⟩
  stream.flush

/-- The next line with its line feed, or what is left at the end of the input. -/
partial def readLine (stream : IO.FS.Stream) (line : Array UInt8) : IO Bytes := do
  let byte ← stream.read 1
  let line := line ++ byte.data
  if byte.isEmpty || line.back? == some lineFeed then return line.toList
  readLine stream line

/-- The number of an error and what is said of it. -/
def numberOf? : IO.Error → Option (UInt32 × String)
  | .alreadyExists _ code text | .inappropriateType _ code text | .interrupted _ code text
  | .invalidArgument _ code text | .noFileOrDirectory _ code text | .noSuchThing _ code text
  | .permissionDenied _ code text | .resourceExhausted _ code text | .hardwareFault code text
  | .illegalOperation code text | .otherError code text | .protocolError code text
  | .resourceBusy code text | .resourceVanished code text | .timeExpired code text
  | .unsatisfiedConstraints code text | .unsupportedOperation code text => some (code, text)
  | .unexpectedEof | .userError _ => none

/-- The fault behind an error. Some calls give the number of the error with its sign turned. -/
def faultOf (error : IO.Error) : Fault :=
  match numberOf? error with
  | some (code, text) => .ofNumber (min code (0 - code)).toNat text
  | none => .system (toString error)

def readFile (path : String) : IO (Except Fault Bytes) := do
  if path.toList.contains '\x00' then return .error .nulInPath
  try
    return .ok (← IO.FS.readBinFile path).data.toList
  catch error =>
    return .error (faultOf error)

def writeExit (exit : Program.Exit) : IO ExitStatus := do
  writeBytes (← IO.getStdout) exit.stdout
  writeBytes (← IO.getStderr) exit.stderr
  return exit.status

partial def holdDialogue (input : IO.FS.Stream) : IO ExitStatus := do
  writeBytes (← IO.getStdout) (Utf8.encode Session.prompt)
  let line ← readLine input #[]
  if line.isEmpty then return .success
  match (Session.answer line).run {} with
  | .ok wantsMore after =>
    let status ← writeExit (Program.conclude (.ok .success) after)
    if wantsMore then holdDialogue input else return status
  | .error fault after => writeExit (Program.conclude (.error fault) after)

def runProgram (args : List String) : IO ExitStatus := do
  match args with
  | [] => holdDialogue (← IO.getStdin)
  | [path] =>
    let contents ← if hasScriptExtension path then readFile path else pure (.error .notFound)
    writeExit (Program.run args [] fun _ => contents)
  | _ => writeExit (Program.run args [] fun _ => .error .notFound)

end ScriptLexer

def main (args : List String) : IO UInt32 := do
  try
    return (← ScriptLexer.runProgram args).code.toUInt32
  catch error =>
    (← IO.getStderr).putStrLn (ScriptLexer.faultOf error).message
    return ScriptLexer.ExitStatus.ioError.code.toUInt32
