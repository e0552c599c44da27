import ScriptLexer.Proofs.History

namespace ScriptLexer

namespace Sink

variable {sink later : Sink} {bytes more : Bytes}

/-- The stream without its limit. -/
def freed (sink : Sink) : Sink := { sink with room := none }

theorem freed_push (fits : sink.fits bytes = true) : (sink.push bytes).freed = sink.freed.push bytes := by
  obtain ⟨written, room⟩ := sink
  cases room with
  | none => rfl
  | some room =>
    simp only [Sink.fits, decide_eq_true_eq] at fits
    simp only [push, freed, List.take_of_length_le fits]

/-- What `later` has more than the stream is a beginning of the bytes for which there was room. -/
def Keeps (sink : Sink) (bytes : Bytes) (later : Sink) : Prop :=
  ∃ kept, kept <+: bytes ∧ sink.fits kept = true ∧ later = sink.push kept

theorem keeps_push (sink : Sink) (bytes : Bytes) : sink.Keeps bytes (sink.push bytes) := by
  obtain ⟨written, room⟩ := sink
  cases room with
  | none => exact ⟨bytes, List.prefix_rfl, rfl, rfl⟩
  | some room =>
    refine ⟨bytes.take room, List.take_prefix _ _, ?_, ?_⟩
    · simp only [fits, List.length_take, decide_eq_true_eq]
      omega
    · simp only [push, List.take_take, Nat.min_self, List.length_take, mk.injEq, Option.some.injEq,
        true_and]
      omega

theorem Keeps.append (keeps : sink.Keeps bytes later) (more : Bytes) :
    sink.Keeps (bytes ++ more) later := by
  obtain ⟨kept, isPrefix, fits, same⟩ := keeps
  exact ⟨kept, isPrefix.trans (List.prefix_append _ _), fits, same⟩

theorem Keeps.behind (fits : sink.fits bytes = true) (keeps : (sink.push bytes).Keeps more later) :
    sink.Keeps (bytes ++ more) later := by
  obtain ⟨kept, isPrefix, keptFits, same⟩ := keeps
  refine ⟨bytes ++ kept, (List.prefix_append_right_inj bytes).mpr isPrefix, ?_, ?_⟩
  · rw [fits_append, fits, keptFits, Bool.and_self]
  · rw [push_append, same]

end Sink

namespace Session

/-- The session with streams that take everything. -/
def freed (s : Session) : Session := { s with out := s.out.freed, err := s.err.freed }

/-- What comes of a step: its status or fault, the lines it leaves unread, and the session. -/
structure Outcome where
  result : Except Fault (Option ExitStatus)
  unread : List Bytes
  session : Session

/-- Two outcomes of what was begun with these streams, `wide` with their limits taken away. Both are
the same, or else what was to be written to the streams is cut off where one of them is full. -/
inductive Truncation (out err : Sink) (wide narrow : Outcome) : Prop
  | whole {added addedErr : Bytes}
      (outAdded : wide.session.out = out.freed.push added)
      (errAdded : wide.session.err = err.freed.push addedErr)
      (outFits : out.fits added = true) (errFits : err.fits addedErr = true)
      (same : narrow =
        { wide with session := ⟨wide.session.diagnostics, out.push added, err.push addedErr⟩ })
  | cut {added addedErr : Bytes}
      (outAdded : wide.session.out = out.freed.push added)
      (errAdded : wide.session.err = err.freed.push addedErr)
      (full : (out.fits added && err.fits addedErr) = false)
      (fails : narrow.result = .error .streamFull)
      (outKept : out.Keeps added narrow.session.out) (errKept : err.Keeps addedErr narrow.session.err)
      (filled : narrow.session.out.room = some 0 ∨ narrow.session.err.room = some 0)

variable {out err : Sink} {wide narrow : Outcome} {bytes bytesErr : Bytes}

theorem Truncation.exists_added (truncation : Truncation out err wide narrow) :
    ∃ added addedErr, wide.session.out = out.freed.push added ∧
      wide.session.err = err.freed.push addedErr := by
  cases truncation with
  | whole outAdded errAdded => exact ⟨_, _, outAdded, errAdded⟩
  | cut outAdded errAdded => exact ⟨_, _, outAdded, errAdded⟩

/-- What ends at once writes nothing. -/
theorem truncation_of_end (result : Except Fault (Option ExitStatus)) (unread : List Bytes) (s : Session) :
    Truncation s.out s.err ⟨result, unread, s.freed⟩ ⟨result, unread, s⟩ := by
  refine .whole s.out.freed.push_nil.symm s.err.freed.push_nil.symm s.out.fits_nil s.err.fits_nil ?_
  rw [s.out.push_nil, s.err.push_nil]
  rfl

/-- If there is room for the first bytes, the streams behind them decide. -/
theorem Truncation.behind (outFits : out.fits bytes = true) (errFits : err.fits bytesErr = true)
    (later : Truncation (out.push bytes) (err.push bytesErr) wide narrow) :
    Truncation out err wide narrow := by
  have outAll (more : Bytes) : (out.push bytes).freed.push more = out.freed.push (bytes ++ more) := by
    rw [Sink.freed_push outFits, Sink.push_append]
  have errAll (more : Bytes) :
      (err.push bytesErr).freed.push more = err.freed.push (bytesErr ++ more) := by
    rw [Sink.freed_push errFits, Sink.push_append]
  cases later with
  | whole outAdded errAdded outMore errMore same =>
    refine .whole (outAdded.trans (outAll _)) (errAdded.trans (errAll _)) ?_ ?_ ?_
    · rw [Sink.fits_append, outFits, outMore, Bool.and_self]
    · rw [Sink.fits_append, errFits, errMore, Bool.and_self]
    · rw [same, Sink.push_append, Sink.push_append]
  | cut outAdded errAdded full fails outKept errKept filled =>
    refine .cut (outAdded.trans (outAll _)) (errAdded.trans (errAll _)) ?_ fails
      (.behind outFits outKept) (.behind errFits errKept) filled
    rw [Sink.fits_append, Sink.fits_append, outFits, errFits, Bool.true_and, Bool.true_and, full]

/-- If there is not, all that was to come behind them is cut off. -/
theorem Truncation.stop {other : Outcome} (full : (out.fits bytes && err.fits bytesErr) = false)
    (goesOn : Truncation (out.freed.push bytes) (err.freed.push bytesErr) wide other)
    (held : Diagnostics) (unread : List Bytes) :
    Truncation out err wide ⟨.error .streamFull, unread, ⟨held, out.push bytes, err.push bytesErr⟩⟩ := by
  obtain ⟨more, moreErr, outAdded, errAdded⟩ := goesOn.exists_added
  have outAll : wide.session.out = out.freed.push (bytes ++ more) := by
    rw [outAdded, Sink.push_append]
    rfl
  have errAll : wide.session.err = err.freed.push (bytesErr ++ moreErr) := by
    rw [errAdded, Sink.push_append]
    rfl
  refine .cut outAll errAll ?_ rfl ((out.keeps_push bytes).append more)
    ((err.keeps_push bytesErr).append moreErr) ?_
  · rw [Sink.fits_append, Sink.fits_append]
    cases outFits : out.fits bytes with
    | false => rfl
    | true =>
      rw [outFits, Bool.true_and] at full
      rw [full, Bool.false_and, Bool.and_false]
  · rcases Bool.and_eq_false_iff.mp full with outFull | errFull
    · exact Or.inl (Sink.room_push_of_not_fits outFull)
    · exact Or.inr (Sink.room_push_of_not_fits errFull)

/-- Full streams cut off what this does and do nothing else to it. -/
def Truncates (run : Session → Outcome) : Prop :=
  ∀ s, Truncation s.out s.err (run s.freed) (run s)

variable {α β : Type}

/-- Goes on where an action ends. One that fails leaves these lines unread. -/
def andThen (action : SessionM α) (unread : List Bytes) (next : α → Session → Outcome) (s : Session) :
    Outcome :=
  match action s with
  | .ok value t => next value t
  | .error fault t => ⟨.error fault, unread, t⟩

theorem andThen_bind (action : SessionM α) (later : α → SessionM β) (unread : List Bytes)
    (next : β → Session → Outcome) :
    andThen (action >>= later) unread next =
      andThen action unread fun value => andThen (later value) unread next := by
  funext s
  simp only [andThen, bind, EStateM.bind]
  cases action s <;> rfl

/-- Whatever follows the action, it stays truncated. -/
def KeepsTruncated (action : SessionM α) : Prop :=
  ∀ (unread : List Bytes) (next : α → Session → Outcome),
    (∀ value, Truncates (next value)) → Truncates (andThen action unread next)

/-- An action that does not write, and looks at nothing but the errors held. -/
theorem keepsTruncated_of_silent {action : SessionM α} (value : Diagnostics → α)
    (held : Diagnostics → Diagnostics)
    (silent : ∀ s, action s = .ok (value s.diagnostics) { s with diagnostics := held s.diagnostics }) :
    KeepsTruncated action := by
  intro unread next later s
  simp only [andThen, silent]
  exact later (value s.diagnostics) { s with diagnostics := held s.diagnostics }

theorem keepsTruncated_pure (value : α) : KeepsTruncated (pure value) :=
  keepsTruncated_of_silent (fun _ => value) id fun _ => rfl

theorem keepsTruncated_throw (fault : Fault) : KeepsTruncated (throw fault : SessionM α) :=
  fun unread _ _ s => truncation_of_end (.error fault) unread s

theorem KeepsTruncated.bind {action : SessionM α} {later : α → SessionM β}
    (first : KeepsTruncated action) (second : ∀ value, KeepsTruncated (later value)) :
    KeepsTruncated (action >>= later) := by
  intro unread next truncates
  rw [andThen_bind]
  exact first unread _ fun value => second value unread next truncates

theorem keepsTruncated_forM {action : α → SessionM Unit} (each : ∀ item, KeepsTruncated (action item))
    (items : List α) : KeepsTruncated (items.forM action) := by
  induction items with
  | nil => exact keepsTruncated_pure ()
  | cons item items ih => exact (each item).bind fun _ => ih

/-- A write that stops where its bytes do not fit. -/
theorem keepsTruncated_of_push {action : SessionM Unit} (bytes bytesErr : Bytes)
    (done : ∀ s, (s.out.fits bytes && s.err.fits bytesErr) = true →
      action s = .ok () ⟨s.diagnostics, s.out.push bytes, s.err.push bytesErr⟩)
    (stuck : ∀ s, (s.out.fits bytes && s.err.fits bytesErr) = false →
      action s = .error .streamFull ⟨s.diagnostics, s.out.push bytes, s.err.push bytesErr⟩) :
    KeepsTruncated action := by
  intro unread next later s
  have goesOn : andThen action unread next s.freed =
      next () ⟨s.diagnostics, s.out.freed.push bytes, s.err.freed.push bytesErr⟩ := by
    simp only [andThen, done s.freed rfl]
    rfl
  rw [goesOn]
  cases fits : s.out.fits bytes && s.err.fits bytesErr with
  | true =>
    obtain ⟨outFits, errFits⟩ := Bool.and_eq_true_iff.mp fits
    have behind := later () ⟨s.diagnostics, s.out.push bytes, s.err.push bytesErr⟩
    simp only [freed, Sink.freed_push outFits, Sink.freed_push errFits] at behind
    simp only [andThen, done s fits]
    exact behind.behind outFits errFits
  | false =>
    have unlimited := later () ⟨s.diagnostics, s.out.freed.push bytes, s.err.freed.push bytesErr⟩
    simp only [andThen, stuck s fits]
    exact Truncation.stop fits unlimited s.diagnostics unread

theorem keepsTruncated_print (text : String) : KeepsTruncated (print text) := by
  refine keepsTruncated_of_push (Utf8.encode text) [] ?_ ?_ <;>
    intro ⟨diagnostics, out, err⟩ fits <;>
    simp only [Sink.fits_nil, Bool.and_true] at fits <;>
    simp [print, fits, Sink.push_nil]

theorem keepsTruncated_printError (text : String) : KeepsTruncated (printError text) := by
  refine keepsTruncated_of_push [] (Utf8.encode text) ?_ ?_ <;>
    intro ⟨diagnostics, out, err⟩ fits <;>
    simp only [Sink.fits_nil, Bool.true_and] at fits <;>
    simp [printError, fits, Sink.push_nil]

/-- The errors held, as an action. -/
def held : SessionM Diagnostics := fun s => .ok s.diagnostics s

theorem keepsTruncated_held : KeepsTruncated held :=
  keepsTruncated_of_silent id id fun _ => rfl

theorem keepsTruncated_scan (source : String) : KeepsTruncated (scan source) :=
  keepsTruncated_of_silent (fun _ => (ScriptLexer.scan source).1)
    (fun held => ⟨held.errors ++ (ScriptLexer.scan source).2.errors⟩) (scan_eq source)

theorem keepsTruncated_run (source : String) : KeepsTruncated (run source) := by
  have inActions : run source = (do
      let tokens ← scan source
      let errors ← held
      errors.toList.forM fun error => printError (error.toText ++ "\n")
      tokens.forM fun token => print (token.toText ++ "\n")) := rfl
  rw [inActions]
  refine (keepsTruncated_scan source).bind fun tokens => keepsTruncated_held.bind fun errors => ?_
  exact (keepsTruncated_forM (fun _ => keepsTruncated_printError _) _).bind fun _ =>
    keepsTruncated_forM (fun _ => keepsTruncated_print _) _

theorem keepsTruncated_runFile (read : String → Except Fault Bytes) (path : String) :
    KeepsTruncated (runFile read path) := by
  cases script : hasScriptExtension path with
  | false =>
    rw [runFile_of_other script]
    exact (keepsTruncated_print _).bind fun _ => keepsTruncated_pure _
  | true =>
    cases contents : read path with
    | error fault =>
      rw [runFile_of_unreadable script contents]
      exact keepsTruncated_throw fault
    | ok bytes =>
      have inActions : runFile read path = (do
          run (Utf8.lossy bytes)
          let errors ← held
          return if errors.hasFailed then .dataError else .success) :=
        runFile_of_script script contents
      rw [inActions]
      exact (keepsTruncated_run _).bind fun _ => keepsTruncated_held.bind fun _ => keepsTruncated_pure _

theorem keepsTruncated_answer (line : Bytes) : KeepsTruncated (answer line) := by
  cases holds : sourceOf? line with
  | none =>
    rw [answer_of_none holds]
    exact keepsTruncated_throw .notUtf8
  | some source =>
    rw [answer_of_some holds]
    split
    · exact keepsTruncated_pure false
    · refine (keepsTruncated_run source).bind fun _ => KeepsTruncated.bind ?_ fun _ => keepsTruncated_pure true
      exact keepsTruncated_of_silent (fun _ => ()) Diagnostics.reset fun _ => rfl

def Outcome.ofResult (status : α → Option ExitStatus) : EStateM.Result Fault Session α → Outcome
  | .ok value s => ⟨.ok (status value), [], s⟩
  | .error fault s => ⟨.error fault, [], s⟩

def Outcome.ofEnding (ending : Ending) : Outcome :=
  ⟨ending.result.map fun _ => none, ending.unread, ending.session⟩

/-- What comes of a step from a session. Only a script has a status, and only a dialogue leaves lines
unread. -/
def Step.outcome (step : Step) (s : Session) : Outcome :=
  match step with
  | run source => .ofResult (fun _ => none) (Session.run source s)
  | runFile read path => .ofResult some (Session.runFile read path s)
  | repl input => .ofEnding (s.repl input)

theorem ofResult_eq_andThen (action : SessionM α) (status : α → Option ExitStatus) (s : Session) :
    .ofResult status (action s) = andThen action [] (fun value t => ⟨.ok (status value), [], t⟩) s := by
  simp only [andThen]
  cases action s <;> rfl

theorem KeepsTruncated.ofResult {action : SessionM α} (keeps : KeepsTruncated action)
    (status : α → Option ExitStatus) : Truncates fun s => .ofResult status (action s) := by
  simp only [ofResult_eq_andThen]
  exact keeps [] _ fun value t => truncation_of_end (.ok (status value)) [] t

theorem ofEnding_converse_nil :
    (fun s => .ofEnding (converse s [])) = andThen (print prompt) [] fun _ t => ⟨.ok none, [], t⟩ := by
  funext s
  simp only [converse, andThen, EStateM.run]
  cases print prompt s <;> rfl

/-- A dialogue is one action after the other, each of which can fail. -/
theorem ofEnding_converse_cons (line : Bytes) (lines : List Bytes) :
    (fun s => .ofEnding (converse s (line :: lines))) =
      andThen (print prompt) (line :: lines) fun _ => andThen (answer line) lines fun wantsMore t =>
        if wantsMore then .ofEnding (t.converse lines) else ⟨.ok none, lines, t⟩ := by
  funext s
  simp only [converse, andThen, EStateM.run]
  cases print prompt s with
  | error fault t => rfl
  | ok _ prompted =>
    dsimp only
    cases answer line prompted with
    | error fault t => rfl
    | ok wantsMore t => cases wantsMore <;> rfl

theorem truncates_converse (lines : List Bytes) : Truncates fun s => .ofEnding (s.converse lines) := by
  induction lines with
  | nil =>
    rw [ofEnding_converse_nil]
    exact keepsTruncated_print prompt _ _ fun _ t => truncation_of_end (.ok none) [] t
  | cons line lines ih =>
    rw [ofEnding_converse_cons]
    refine keepsTruncated_print prompt _ _ fun _ => keepsTruncated_answer line _ _ fun wantsMore => ?_
    cases wantsMore with
    | true => exact ih
    | false => exact truncation_of_end (.ok none) lines

theorem truncates_outcome (step : Step) : Truncates step.outcome := by
  cases step with
  | run source => exact (keepsTruncated_run source).ofResult _
  | runFile read path => exact (keepsTruncated_runFile read path).ofResult _
  | repl input => exact truncates_converse input.lines

/-- The session with room for so many bytes more on each stream. -/
def limited (s : Session) (room roomErr : Nat) : Session :=
  ⟨s.diagnostics, ⟨s.out.written, some room⟩, ⟨s.err.written, some roomErr⟩⟩

/-- No token of a run is shown unless all errors are, wherever the streams are full. -/
theorem Pass.exists_shown (pass : Pass) :
    ∃ tokens errors, tokens <+: tokenLines (ScriptLexer.scan pass.source).1 ∧
      errors <+: errorLines pass.after.diagnostics.toList ∧
      pass.after.out.written.toList = pass.before.out.written.toList ++ tokens ∧
      pass.after.err.written.toList = pass.before.err.written.toList ++ errors ∧
      (tokens = [] ∨ errors = errorLines pass.after.diagnostics.toList) := by
  have toList_push (sink : Sink) (bytes : Bytes) :
      ∃ kept, kept <+: bytes ∧ (sink.push bytes).written.toList = sink.written.toList ++ kept := by
    obtain ⟨kept, isPrefix, fits, same⟩ := sink.keeps_push bytes
    exact ⟨kept, isPrefix, same ▸ Sink.toList_push_of_fits fits⟩
  unfold Pass.after
  rcases run_cases pass.source pass.before rfl rfl rfl with
    ⟨errFits, outFits, runs⟩ | ⟨errFits, outFull, runs⟩ | ⟨errFull, runs⟩ <;> rw [runs]
  · exact ⟨_, _, List.prefix_rfl, List.prefix_rfl, Sink.toList_push_of_fits outFits,
      Sink.toList_push_of_fits errFits, Or.inr rfl⟩
  · obtain ⟨tokens, isPrefix, shown⟩ := toList_push pass.before.out _
    exact ⟨tokens, _, isPrefix, List.prefix_rfl, shown, Sink.toList_push_of_fits errFits, Or.inr rfl⟩
  · obtain ⟨errors, isPrefix, shown⟩ := toList_push pass.before.err _
    exact ⟨[], errors, List.nil_prefix, isPrefix, (List.append_nil _).symm, shown, Or.inl rfl⟩

/-- A step on streams with limits. If there is room for all that the same step writes to streams without
limits, nothing is different. Otherwise it fails, each stream has a beginning of that, and one of them
is full. In either case the tokens of a run are shown only behind all its errors. -/
theorem outcome_limited (s : Session) (step : Step) (room roomErr : Nat) :
    ∃ added addedErr : Bytes,
      (step.outcome s.freed).session.out.written.toList = s.out.written.toList ++ added ∧
      (step.outcome s.freed).session.err.written.toList = s.err.written.toList ++ addedErr ∧
      (added.length ≤ room ∧ addedErr.length ≤ roomErr →
        (step.outcome (s.limited room roomErr)).result = (step.outcome s.freed).result ∧
        (step.outcome (s.limited room roomErr)).unread = (step.outcome s.freed).unread ∧
        (step.outcome (s.limited room roomErr)).session.diagnostics =
          (step.outcome s.freed).session.diagnostics ∧
        (step.outcome (s.limited room roomErr)).session.out.written =
          (step.outcome s.freed).session.out.written ∧
        (step.outcome (s.limited room roomErr)).session.err.written =
          (step.outcome s.freed).session.err.written) ∧
      (¬(added.length ≤ room ∧ addedErr.length ≤ roomErr) →
        (step.outcome (s.limited room roomErr)).result = .error .streamFull ∧
        ∃ kept keptErr, kept <+: added ∧ keptErr <+: addedErr ∧
          (step.outcome (s.limited room roomErr)).session.out.written.toList =
            s.out.written.toList ++ kept ∧
          (step.outcome (s.limited room roomErr)).session.err.written.toList =
            s.err.written.toList ++ keptErr ∧
          (kept.length = room ∨ keptErr.length = roomErr)) ∧
      ∀ pass ∈ step.passes (s.limited room roomErr),
        ∃ tokens errors, tokens <+: tokenLines (ScriptLexer.scan pass.source).1 ∧
          errors <+: errorLines pass.after.diagnostics.toList ∧
          pass.after.out.written.toList = pass.before.out.written.toList ++ tokens ∧
          pass.after.err.written.toList = pass.before.err.written.toList ++ errors ∧
          (tokens = [] ∨ errors = errorLines pass.after.diagnostics.toList) := by
  have truncation : Truncation ⟨s.out.written, some room⟩ ⟨s.err.written, some roomErr⟩
      (step.outcome s.freed) (step.outcome (s.limited room roomErr)) :=
    truncates_outcome step (s.limited room roomErr)
  generalize step.outcome s.freed = wide at truncation ⊢
  generalize step.outcome (s.limited room roomErr) = narrow at truncation ⊢
  have hasRoom (written : Array UInt8) (room : Nat) (bytes : Bytes) :
      Sink.fits ⟨written, some room⟩ bytes = true ↔ bytes.length ≤ room := decide_eq_true_iff
  have shown {sink : Sink} (bytes : Bytes) :
      (sink.freed.push bytes).written.toList = sink.written.toList ++ bytes :=
    Sink.toList_push_of_fits (Sink.fits_of_unlimited rfl bytes)
  cases truncation with
  | @whole added addedErr outAdded errAdded outFits errFits same =>
    refine ⟨added, addedErr, outAdded ▸ shown added, errAdded ▸ shown addedErr, fun _ => ?_, ?_,
      fun pass _ => pass.exists_shown⟩
    · rw [same, outAdded, errAdded, ← Sink.freed_push outFits, ← Sink.freed_push errFits]
      exact ⟨rfl, rfl, rfl, rfl, rfl⟩
    · intro noRoom
      exact absurd ⟨(hasRoom _ _ _).mp outFits, (hasRoom _ _ _).mp errFits⟩ noRoom
  | @cut added addedErr outAdded errAdded full fails outKept errKept filled =>
    refine ⟨added, addedErr, outAdded ▸ shown added, errAdded ▸ shown addedErr, ?_, fun _ => ?_,
      fun pass _ => pass.exists_shown⟩
    · rintro ⟨outFits, errFits⟩
      rw [(hasRoom _ _ _).mpr outFits, (hasRoom _ _ _).mpr errFits] at full
      cases full
    · obtain ⟨kept, isPrefix, fits, same⟩ := outKept
      obtain ⟨keptErr, isPrefixErr, fitsErr, sameErr⟩ := errKept
      refine ⟨fails, kept, keptErr, isPrefix, isPrefixErr, same ▸ Sink.toList_push_of_fits fits,
        sameErr ▸ Sink.toList_push_of_fits fitsErr, ?_⟩
      have bound := (hasRoom _ _ _).mp fits
      have boundErr := (hasRoom _ _ _).mp fitsErr
      simp only [same, sameErr, Sink.push, Option.some.injEq] at filled
      omega

/-- The main stream is full in the middle of the second line of the dialogue. -/
theorem outcome_limited_point :
    ((Step.repl (Utf8.encode "@\n1\n")).outcome (limited {} 22 100)).result = .error .streamFull ∧
    ∃ kept, kept <+: Utf8.encode "KS> EndOfFile  \nKS> Number 1 1\nEndOfFile  \nKS> " ∧
      ((Step.repl (Utf8.encode "@\n1\n")).outcome (limited {} 22 100)).session.out.written.toList = kept ∧
      kept.length = 22 := by
  obtain ⟨added, addedErr, out, err, -, cut, -⟩ :=
    outcome_limited {} (Step.repl (Utf8.encode "@\n1\n")) 22 100
  have whole : ((Step.repl (Utf8.encode "@\n1\n")).outcome (freed {})).session.out.written.toList =
      Utf8.encode "KS> EndOfFile  \nKS> Number 1 1\nEndOfFile  \nKS> " := by decide +kernel
  have wholeErr : ((Step.repl (Utf8.encode "@\n1\n")).outcome (freed {})).session.err.written.toList =
      errorLines [.unexpectedCharacter 1 '@'] := by decide +kernel
  obtain rfl := out.symm.trans whole
  obtain rfl := err.symm.trans wholeErr
  obtain ⟨fails, kept, keptErr, isPrefix, isPrefixErr, outKept, -, full⟩ := cut (by decide)
  have short : keptErr.length < 100 := Nat.lt_of_le_of_lt isPrefixErr.length_le (by decide)
  exact ⟨fails, kept, isPrefix, outKept, full.resolve_right (Nat.ne_of_lt short)⟩

end Session

end ScriptLexer
