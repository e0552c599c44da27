namespace ScriptLexer

abbrev Bytes := List UInt8

def lineFeed : UInt8 := 10

/-- Puts one more byte in front of lines already cut. -/
def Bytes.consToLines (byte : UInt8) (cut : List Bytes) : List Bytes :=
  if byte = lineFeed then [byte] :: cut
  else
    match cut with
    | [] => [[byte]]
    | line :: rest => (byte :: line) :: rest

/-- The lines of the bytes, each with its line feed if it has one. -/
def Bytes.lines (bytes : Bytes) : List Bytes := bytes.foldr Bytes.consToLines []

theorem Bytes.flatten_consToLines (byte : UInt8) (cut : List Bytes) :
    (Bytes.consToLines byte cut).flatten = byte :: cut.flatten := by
  unfold Bytes.consToLines
  split
  · rfl
  · cases cut <;> rfl

theorem Bytes.flatten_lines (bytes : Bytes) : bytes.lines.flatten = bytes := by
  induction bytes with
  | nil => rfl
  | cons byte rest ih =>
    simp only [Bytes.lines, List.foldr_cons, Bytes.flatten_consToLines] at ih ⊢
    rw [ih]

end ScriptLexer
