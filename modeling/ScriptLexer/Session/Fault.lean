import ScriptLexer.LexicalError

namespace ScriptLexer

/-- What can go wrong around a scan. Errors in a source are held as diagnostics instead, and only a caller
that has nothing but faults to answer with passes one on. -/
inductive Fault where
  | notFound
  | notADirectory
  | isADirectory
  | nulInPath
  | notUtf8
  | streamFull
  | lexical (error : LexicalError)
  /-- Any other fault, with the text that the system has for it. -/
  | system (text : String)
deriving DecidableEq, Repr

def Fault.message : Fault → String
  | notFound => "No such file or directory (os error 2)"
  | notADirectory => "Not a directory (os error 20)"
  | isADirectory => "Is a directory (os error 21)"
  | nulInPath => "file name contained an unexpected NUL byte"
  | notUtf8 => "stream did not contain valid UTF-8"
  | streamFull => "failed to write whole buffer"
  | lexical error => error.toText
  | system text => text

/-- What the system says of its numbered errors. -/
def systemTexts : List (Nat × String) :=
  [(1, "Operation not permitted"), (5, "Input/output error"), (6, "No such device or address"),
   (9, "Bad file descriptor"), (11, "Resource temporarily unavailable"), (12, "Cannot allocate memory"),
   (13, "Permission denied"), (16, "Device or resource busy"), (19, "No such device"),
   (22, "Invalid argument"), (23, "Too many open files in system"), (24, "Too many open files"),
   (26, "Text file busy"), (27, "File too large"), (28, "No space left on device"), (32, "Broken pipe"),
   (36, "File name too long"), (40, "Too many levels of symbolic links"),
   (75, "Value too large for defined data type")]

/-- The fault of a numbered error, told in other words where those of the system are not known. -/
def Fault.ofNumber (number : Nat) (otherWords : String) : Fault :=
  if number = 2 then notFound
  else if number = 20 then notADirectory
  else if number = 21 then isADirectory
  else system ((systemTexts.lookup number).getD otherWords ++ " (os error " ++ toString number ++ ")")

end ScriptLexer
