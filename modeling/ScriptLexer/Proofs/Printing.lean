import ScriptLexer.Session.Basic

namespace ScriptLexer

namespace Sink

theorem push_nil (sink : Sink) : sink.push [] = sink := by
  obtain ⟨written, room⟩ := sink
  cases room <;> simp [push]

theorem push_append (sink : Sink) (bytes more : Bytes) :
    sink.push (bytes ++ more) = (sink.push bytes).push more := by
  obtain ⟨written, room⟩ := sink
  cases room with
  | none => simp [push, ← Array.toList_inj]
  | some room =>
    simp only [push, List.take_append, List.length_append, Nat.sub_add_eq]
    simp [← Array.toList_inj]

theorem fits_nil (sink : Sink) : sink.fits [] = true := by
  obtain ⟨written, room⟩ := sink
  cases room <;> simp [fits]

theorem fits_append (sink : Sink) (bytes more : Bytes) :
    sink.fits (bytes ++ more) = (sink.fits bytes && (sink.push bytes).fits more) := by
  obtain ⟨written, room⟩ := sink
  cases room with
  | none => rfl
  | some room =>
    rw [Bool.eq_iff_iff, Bool.and_eq_true]
    simp only [fits, push, decide_eq_true_eq, List.length_append]
    omega

/-- A full sink takes nothing more. -/
theorem push_append_of_not_fits {sink : Sink} {bytes : Bytes} (full : sink.fits bytes = false)
    (more : Bytes) : sink.push (bytes ++ more) = sink.push bytes := by
  have room := room_push_of_not_fits full
  rw [push_append]
  generalize sink.push bytes = filled at room
  obtain ⟨written, _⟩ := filled
  subst room
  simp [push]

theorem fits_of_unlimited {sink : Sink} (unlimited : sink.room = none) (bytes : Bytes) :
    sink.fits bytes = true := by
  simp [fits, unlimited]

theorem push_of_unlimited {sink : Sink} (unlimited : sink.room = none) (bytes : Bytes) :
    sink.push bytes = ⟨sink.written ++ bytes, none⟩ := by
  obtain ⟨written, room⟩ := sink
  subst unlimited
  rfl

end Sink

/-- What is printed for tokens. -/
def tokenLines (tokens : List Token) : Bytes :=
  tokens.flatMap fun token => Utf8.encode (token.toText ++ "\n")

/-- What is printed for errors. -/
def errorLines (errors : List LexicalError) : Bytes :=
  errors.flatMap fun error => Utf8.encode (error.toText ++ "\n")

namespace Session

/-- Writes bytes on the main stream. -/
def write (bytes : Bytes) : SessionM Unit := fun ⟨diagnostics, out, err⟩ =>
  if out.fits bytes then .ok () ⟨diagnostics, out.push bytes, err⟩
  else .error .streamFull ⟨diagnostics, out.push bytes, err⟩

/-- Writes bytes on the stream for errors. -/
def writeError (bytes : Bytes) : SessionM Unit := fun ⟨diagnostics, out, err⟩ =>
  if err.fits bytes then .ok () ⟨diagnostics, out, err.push bytes⟩
  else .error .streamFull ⟨diagnostics, out, err.push bytes⟩

theorem print_eq_write (text : String) : print text = write (Utf8.encode text) := rfl

theorem printError_eq_writeError (text : String) : printError text = writeError (Utf8.encode text) := rfl

theorem write_nil : write [] = pure () := by
  funext s
  simp only [write, Sink.fits_nil, Sink.push_nil]
  rfl

theorem writeError_nil : writeError [] = pure () := by
  funext s
  simp only [writeError, Sink.fits_nil, Sink.push_nil]
  rfl

theorem write_append (bytes more : Bytes) :
    write (bytes ++ more) = (do write bytes; write more) := by
  funext ⟨diagnostics, out, err⟩
  show _ = EStateM.bind (write bytes) (fun _ => write more) _
  cases fits : out.fits bytes with
  | true => simp [write, EStateM.bind, Sink.fits_append, Sink.push_append, fits]
  | false => simp [write, EStateM.bind, Sink.fits_append, Sink.push_append_of_not_fits fits, fits]

theorem writeError_append (bytes more : Bytes) :
    writeError (bytes ++ more) = (do writeError bytes; writeError more) := by
  funext ⟨diagnostics, out, err⟩
  show _ = EStateM.bind (writeError bytes) (fun _ => writeError more) _
  cases fits : err.fits bytes with
  | true => simp [writeError, EStateM.bind, Sink.fits_append, Sink.push_append, fits]
  | false => simp [writeError, EStateM.bind, Sink.fits_append, Sink.push_append_of_not_fits fits, fits]

/-- An action on bytes that may be split can be taken at once for a list. -/
theorem forM_eq_flatMap {α : Type} {action : Bytes → SessionM Unit} (nil : action [] = pure ())
    (append : ∀ bytes more, action (bytes ++ more) = (do action bytes; action more))
    (text : α → Bytes) (items : List α) :
    (items.forM fun item => action (text item)) = action (items.flatMap text) := by
  induction items with
  | nil => exact nil.symm
  | cons item items ih =>
    rw [List.flatMap_cons, append, ← ih]
    rfl

/-- The session once a source is scanned. Nothing is printed yet. -/
def scanned (s : Session) (source : String) : Session :=
  { s with diagnostics := ⟨s.diagnostics.errors ++ (ScriptLexer.scan source).2.errors⟩ }

theorem toList_scanned (s : Session) (source : String) :
    (s.scanned source).diagnostics.toList =
      s.diagnostics.toList ++ (ScriptLexer.scan source).2.toList := by
  simp [scanned, Diagnostics.toList]

theorem scan_eq (source : String) (s : Session) :
    scan source s = .ok (ScriptLexer.scan source).1 (s.scanned source) := by
  have tokens : ((Scanner.ofString source).scanTokens s.diagnostics).1 =
      (ScriptLexer.scan source).1 := by
    rw [ScriptLexer.scan, Scanner.scanTokens_tokens, Scanner.scanTokens_tokens]
  have reported : ((Scanner.ofString source).scanTokens s.diagnostics).2 =
      (s.scanned source).diagnostics := by
    apply Diagnostics.ext_toList
    rw [toList_scanned, ScriptLexer.scan, Scanner.scanTokens_errors, Scanner.scanTokens_errors]
    rfl
  show EStateM.Result.ok ((Scanner.ofString source).scanTokens s.diagnostics).1
    { s with diagnostics := ((Scanner.ofString source).scanTokens s.diagnostics).2 } = _
  rw [tokens, reported]
  rfl

/-- A run prints all errors held at once and then all tokens at once. -/
theorem run_eq_write (source : String) (s : Session) :
    run source s =
      (do writeError (errorLines (s.scanned source).diagnostics.toList)
          write (tokenLines (ScriptLexer.scan source).1) : SessionM Unit) (s.scanned source) := by
  have errors := forM_eq_flatMap writeError_nil writeError_append
    (fun error : LexicalError => Utf8.encode (error.toText ++ "\n"))
  have tokens := forM_eq_flatMap write_nil write_append
    (fun token : Token => Utf8.encode (token.toText ++ "\n"))
  rw [errorLines, tokenLines, ← errors, ← tokens]
  unfold run
  simp only [bind, EStateM.bind, scan_eq, print_eq_write, printError_eq_writeError]
  rfl

theorem print_cases (text : String) (s : Session) :
    (s.out.fits (Utf8.encode text) = true ∧
      print text s = .ok () { s with out := s.out.push (Utf8.encode text) }) ∨
    (s.out.fits (Utf8.encode text) = false ∧
      print text s = .error .streamFull { s with out := s.out.push (Utf8.encode text) }) := by
  obtain ⟨diagnostics, out, err⟩ := s
  cases fits : out.fits (Utf8.encode text) with
  | true => exact Or.inl ⟨rfl, by simp [print, fits]⟩
  | false => exact Or.inr ⟨rfl, by simp [print, fits]⟩

/-- All that a run can do: print everything, or stop with a full stream for errors or a full main
stream. What it scanned is held in any case, and no token is printed unless all errors are. -/
theorem run_cases (source : String) (s : Session) {held : Diagnostics} {errors tokens : Bytes}
    (isHeld : (s.scanned source).diagnostics = held) (isErrors : errorLines held.toList = errors)
    (isTokens : tokenLines (ScriptLexer.scan source).1 = tokens) :
    (s.err.fits errors = true ∧ s.out.fits tokens = true ∧
      run source s = .ok () ⟨held, s.out.push tokens, s.err.push errors⟩) ∨
    (s.err.fits errors = true ∧ s.out.fits tokens = false ∧
      run source s = .error .streamFull ⟨held, s.out.push tokens, s.err.push errors⟩) ∨
    (s.err.fits errors = false ∧
      run source s = .error .streamFull ⟨held, s.out, s.err.push errors⟩) := by
  obtain ⟨diagnostics, out, err⟩ := s
  subst isHeld isErrors isTokens
  rw [run_eq_write]
  generalize errorLines _ = errors
  generalize tokenLines _ = tokens
  cases errorsFit : err.fits errors with
  | true =>
    cases tokensFit : out.fits tokens with
    | true =>
      exact Or.inl ⟨rfl, rfl, by simp [scanned, write, writeError, bind, EStateM.bind, errorsFit, tokensFit]⟩
    | false =>
      refine Or.inr (Or.inl ⟨rfl, rfl, ?_⟩)
      simp [scanned, write, writeError, bind, EStateM.bind, errorsFit, tokensFit]
  | false =>
    refine Or.inr (Or.inr ⟨rfl, ?_⟩)
    simp [scanned, writeError, bind, EStateM.bind, errorsFit]

end Session

end ScriptLexer
