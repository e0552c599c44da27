import ScriptLexer.Session.Basic

namespace ScriptLexer

def asciiLower (byte : UInt8) : UInt8 := if 0x41 ≤ byte ∧ byte ≤ 0x5A then byte + 0x20 else byte

/-- Whether the last three bytes of the path are `.ks`, in any case. -/
def hasScriptExtension (path : String) : Bool :=
  let bytes := Utf8.encode path
  (bytes.drop (bytes.length - 3)).map asciiLower == Utf8.encode ".ks"

/-- How a program ends. -/
inductive ExitStatus where
  | success
  | usage
  | dataError
  | ioError
deriving DecidableEq, Repr

def ExitStatus.code : ExitStatus → Nat
  | success => 0
  | usage => 64
  | dataError => 65
  | ioError => 74

namespace Session

/-- Printed for a path that names no script. -/
def notAScript : String :=
  "Please pass in a KrystalScript code file (file must have a .ks extension)."

/-- Runs the script at a path, its bytes given by `read`. A file that is no script is turned away,
which is no failure; errors held at the end are one, also errors from before. -/
def runFile (read : String → Except Fault Bytes) (path : String) : SessionM ExitStatus := do
  if hasScriptExtension path then
    match read path with
    | .error fault => throw fault
    | .ok bytes =>
      run (Utf8.lossy bytes)
      return if (← get).diagnostics.hasFailed then .dataError else .success
  else
    print (notAScript ++ "\n")
    return .success

end Session

end ScriptLexer
