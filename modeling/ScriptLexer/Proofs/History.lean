import Mathlib.Data.List.DropRight
import ScriptLexer.Proofs.Course
import ScriptLexer.Session.ScriptFile

namespace ScriptLexer

namespace Session

/-- The session that an action leaves, also when it fails. -/
def left {α : Type} : EStateM.Result Fault Session α → Session
  | .ok _ s => s
  | .error _ s => s

variable {s ended : Session} {source path : String} {fault : Fault}
  {read : String → Except Fault Bytes}

theorem left_print (text : String) (s : Session) :
    left (print text s) = { s with out := s.out.push (Utf8.encode text) } := by
  rcases print_cases text s with ⟨-, prints⟩ | ⟨-, prints⟩ <;> rw [prints] <;> rfl

/-- A run adds the errors of its source to those held, whether it can print them or not. -/
theorem toList_left_run (source : String) (s : Session) :
    (left (run source s)).diagnostics.toList =
      s.diagnostics.toList ++ (ScriptLexer.scan source).2.toList := by
  rw [← toList_scanned]
  rcases run_cases source s rfl rfl rfl with ⟨-, -, runs⟩ | ⟨-, -, runs⟩ | ⟨-, runs⟩ <;>
    rw [runs] <;> rfl

/-- A run that gets to its end has shown all errors that it leaves. -/
theorem err_of_run (runs : run source s = .ok () ended) :
    ended.err.written.toList = s.err.written.toList ++ errorLines ended.diagnostics.toList := by
  rcases run_cases source s rfl rfl rfl with ⟨fits, -, prints⟩ | ⟨-, -, fails⟩ | ⟨-, fails⟩
  · cases runs.symm.trans prints
    exact Sink.toList_push_of_fits fits
  · cases runs.symm.trans fails
  · cases runs.symm.trans fails

/-- What only looks at the session leaves what was there before. -/
theorem left_bind {α β : Type} (action : SessionM α) {next : α → SessionM β}
    (looks : ∀ value t, left (next value t) = t) (s : Session) :
    left ((action >>= next) s) = left (action s) := by
  simp only [bind, EStateM.bind]
  cases action s with
  | ok value t => exact looks value t
  | error fault t => rfl

theorem runFile_of_other (other : hasScriptExtension path = false) :
    runFile read path = do print (notAScript ++ "\n"); return .success := by
  simp [runFile, other]

theorem runFile_of_unreadable (script : hasScriptExtension path = true)
    (unreadable : read path = .error fault) : runFile read path = throw fault := by
  simp [runFile, script, unreadable]

theorem runFile_of_script {bytes : Bytes} (script : hasScriptExtension path = true)
    (contents : read path = .ok bytes) :
    runFile read path = do
      run (Utf8.lossy bytes)
      return if (← get).diagnostics.hasFailed then .dataError else .success := by
  simp [runFile, script, contents]

/-- The source in a file, if the path names a script and the file can be read. -/
def sourceAt? (read : String → Except Fault Bytes) (path : String) : Option String :=
  if hasScriptExtension path then
    match read path with
    | .ok bytes => some (Utf8.lossy bytes)
    | .error _ => none
  else none

theorem left_runFile_of_some (found : sourceAt? read path = some source) (s : Session) :
    left (runFile read path s) = left (run source s) := by
  unfold sourceAt? at found
  split at found
  · next script =>
    split at found
    · next bytes contents =>
      cases found
      rw [runFile_of_script script contents]
      exact left_bind _ (fun _ _ => rfl) s
    · cases found
  · cases found

theorem diagnostics_runFile_of_none (absent : sourceAt? read path = none) (s : Session) :
    (left (runFile read path s)).diagnostics = s.diagnostics := by
  unfold sourceAt? at absent
  split at absent
  · next script =>
    split at absent
    · cases absent
    · next fault unreadable => rw [runFile_of_unreadable script unreadable]; rfl
  · next other =>
    rw [runFile_of_other (eq_false_of_ne_true other), left_bind _ (fun _ _ => rfl) s,
      left_print]

/-- The code of a script that was run. -/
theorem code_of_held (held : Diagnostics) :
    (if held.hasFailed then ExitStatus.dataError else .success).code =
      if held.toList = [] then 0 else 65 := by
  have failed := held.hasFailed_iff
  by_cases none : held.toList = []
  · rw [if_neg fun hasFailed => failed.mp hasFailed none, if_pos none]
    rfl
  · rw [if_pos (failed.mpr none), if_neg none]
    rfl

/-- The status of a script that was run tells whether any errors are held. -/
theorem code_of_runFile {status : ExitStatus} (script : hasScriptExtension path = true)
    (runs : runFile read path s = .ok status ended) :
    status.code = if ended.diagnostics.toList = [] then 0 else 65 := by
  cases contents : read path with
  | error fault =>
    rw [runFile_of_unreadable script contents] at runs
    cases runs
  | ok bytes =>
    rw [runFile_of_script script contents] at runs
    simp only [bind, EStateM.bind] at runs
    split at runs
    · cases runs
      exact code_of_held ended.diagnostics
    · cases runs

/-- A run as it was made: its source, the session before it, and whether a dialogue asked for it. -/
structure Pass where
  source : String
  before : Session
  inDialogue : Bool

namespace Pass

def after (pass : Pass) : Session := left (run pass.source pass.before)

/-- Whether everything found was printed. -/
def finished (pass : Pass) : Bool :=
  match run pass.source pass.before with
  | .ok _ _ => true
  | .error _ _ => false

def errors (pass : Pass) : List LexicalError := (ScriptLexer.scan pass.source).2.toList

/-- A line of a dialogue is answered if its run gets to the end. -/
def answersLine (pass : Pass) : Bool := pass.inDialogue && pass.finished

theorem finished_of_ok {pass : Pass} (runs : run pass.source pass.before = .ok () ended) :
    pass.finished = true := by
  rw [finished, runs]

theorem finished_of_error {pass : Pass} (fails : run pass.source pass.before = .error fault ended) :
    pass.finished = false := by
  rw [finished, fails]

theorem run_of_finished {pass : Pass} (finished : pass.finished = true) :
    run pass.source pass.before = .ok () pass.after := by
  rw [Pass.finished] at finished
  rw [after]
  split at finished
  · next runs => rw [runs, left]
  · cases finished

end Pass

/-- The runs behind the last one that answered a line. -/
def standing (passes : List Pass) : List Pass := passes.rtakeWhile fun pass => !pass.answersLine

/-- A dialogue with a record of the runs that it makes. -/
def recorded (s : Session) : List Bytes → Ending × List Pass
  | [] =>
    match (print prompt).run s with
    | .ok _ prompted => (⟨.ok (), [], prompted⟩, [])
    | .error fault prompted => (⟨.error fault, [], prompted⟩, [])
  | line :: lines =>
    match (print prompt).run s with
    | .error fault prompted => (⟨.error fault, line :: lines, prompted⟩, [])
    | .ok _ prompted =>
      match sourceOf? line with
      | none => (⟨.error .notUtf8, lines, prompted⟩, [])
      | some source =>
        if source = "exit" then (⟨.ok (), lines, prompted⟩, [])
        else
          match (run source).run prompted with
          | .error fault failed => (⟨.error fault, lines, failed⟩, [⟨source, prompted, true⟩])
          | .ok _ printed =>
            let (ending, passes) := recorded { printed with diagnostics := {} } lines
            (ending, ⟨source, prompted, true⟩ :: passes)

/-- Without the record this is the dialogue. -/
theorem recorded_ending (s : Session) (lines : List Bytes) :
    (s.recorded lines).1 = s.converse lines := by
  fun_induction recorded s lines with
  | case1 s _ prompted prompts => exact (converse_nil prompts).symm
  | case2 s fault prompted full => exact (converse_of_unprompted [] full).symm
  | case3 s line lines fault prompted full => exact (converse_of_unprompted _ full).symm
  | case4 s line lines _ prompted prompts noText => exact (converse_of_none lines prompts noText).symm
  | case5 s line lines _ prompted prompts asks => exact (converse_of_exit lines prompts asks).symm
  | case6 s line lines _ prompted prompts source holds goesOn fault failed fails =>
    exact (converse_of_failed lines prompts holds goesOn fails).symm
  | case7 s line lines _ prompted prompts source holds goesOn _ printed runs ending passes rest ih =>
    rw [converse_of_answered lines prompts holds goesOn runs, ← ih, rest]

/-- What is held behind a run: nothing if it answered a line, and else its errors behind the others. -/
def hold (held : List LexicalError) (pass : Pass) : List LexicalError :=
  if pass.answersLine then [] else held ++ pass.errors

/-- The record accounts for the errors held from its first run to its last one. -/
inductive Accounts : List LexicalError → List Pass → List LexicalError → Prop
  | nil {held : List LexicalError} : Accounts held [] held
  | cons {pass : Pass} {passes : List Pass} {last : List LexicalError} :
      Accounts (hold pass.before.diagnostics.toList pass) passes last →
      Accounts pass.before.diagnostics.toList (pass :: passes) last

theorem Accounts.append {held middle last : List LexicalError} {passes more : List Pass}
    (first : Accounts held passes middle) (second : Accounts middle more last) :
    Accounts held (passes ++ more) last := by
  induction first with
  | nil => exact second
  | cons _ ih => exact .cons (ih second)

theorem Accounts.split {held last : List LexicalError} {passes more : List Pass}
    (accounts : Accounts held (passes ++ more) last) :
    ∃ middle, Accounts held passes middle ∧ Accounts middle more last := by
  induction passes generalizing held with
  | nil => exact ⟨held, .nil, accounts⟩
  | cons pass passes ih =>
    cases accounts with
    | cons later =>
      obtain ⟨middle, first, second⟩ := ih later
      exact ⟨middle, .cons first, second⟩

theorem Accounts.eq_foldl {held last : List LexicalError} {passes : List Pass}
    (accounts : Accounts held passes last) : last = passes.foldl hold held := by
  induction accounts with
  | nil => rfl
  | cons _ ih => exact ih

/-- From a session without errors on, those held are the ones of the runs that stand. -/
theorem foldl_hold (passes : List Pass) :
    passes.foldl hold [] = (standing passes).flatMap Pass.errors := by
  induction passes using List.reverseRecOn with
  | nil => rfl
  | append_singleton passes pass ih =>
    rw [List.foldl_concat, ih, standing, standing, List.rtakeWhile_concat, hold]
    cases pass.answersLine <;> simp

theorem Accounts.eq_standing {last : List LexicalError} {passes : List Pass}
    (accounts : Accounts [] passes last) : last = (standing passes).flatMap Pass.errors :=
  accounts.eq_foldl.trans (foldl_hold passes)

/-- What can be asked of a session. The files are as they are at that time. -/
inductive Step where
  | run (source : String)
  | runFile (read : String → Except Fault Bytes) (path : String)
  | repl (input : Bytes)

namespace Step

def after (s : Session) : Step → Session
  | run source => left (Session.run source s)
  | runFile read path => left (Session.runFile read path s)
  | repl input => (s.repl input).session

/-- The runs in a step. -/
def passes (s : Session) : Step → List Pass
  | run source => [⟨source, s, false⟩]
  | runFile read path => (sourceAt? read path).toList.map fun source => ⟨source, s, false⟩
  | repl input => (s.recorded input.lines).2

end Step

/-- A run that does not answer a line adds its errors. -/
theorem accounts_single {pass : Pass} (unanswered : pass.answersLine = false) :
    Accounts pass.before.diagnostics.toList [pass] pass.after.diagnostics.toList := by
  have held : hold pass.before.diagnostics.toList pass = pass.after.diagnostics.toList := by
    rw [hold, unanswered, Pass.after, toList_left_run]
    rfl
  exact .cons (held ▸ .nil)

theorem diagnostics_of_print {text : String} (prints : left (print text s) = ended) :
    ended.diagnostics = s.diagnostics := by
  rw [← prints, left_print]

theorem accounts_of_print {text : String} (prints : left (print text s) = ended) :
    Accounts s.diagnostics.toList [] ended.diagnostics.toList :=
  diagnostics_of_print prints ▸ .nil

/-- A dialogue accounts for its errors line by line. -/
theorem accounts_recorded (s : Session) (lines : List Bytes) :
    Accounts s.diagnostics.toList (s.recorded lines).2
      (s.recorded lines).1.session.diagnostics.toList := by
  fun_induction recorded s lines with
  | case1 s _ prompted prompts => exact accounts_of_print (congrArg left prompts)
  | case2 s fault prompted full => exact accounts_of_print (congrArg left full)
  | case3 s line lines fault prompted full => exact accounts_of_print (congrArg left full)
  | case4 s line lines _ prompted prompts noText => exact accounts_of_print (congrArg left prompts)
  | case5 s line lines _ prompted prompts asks => exact accounts_of_print (congrArg left prompts)
  | case6 s line lines _ prompted prompts source holds goesOn fault failed fails =>
    -- The errors of the line remain, for the dialogue ends before it clears them.
    have unanswered : Pass.answersLine ⟨source, prompted, true⟩ = false :=
      Pass.finished_of_error fails
    have accounts := accounts_single unanswered
    have behind : Pass.after ⟨source, prompted, true⟩ = failed := congrArg left fails
    rw [behind] at accounts
    exact diagnostics_of_print (congrArg left prompts) ▸ accounts
  | case7 s line lines _ prompted prompts source holds goesOn _ printed runs ending passes rest ih =>
    have answers : Pass.answersLine ⟨source, prompted, true⟩ = true := Pass.finished_of_ok runs
    have cleared : hold prompted.diagnostics.toList ⟨source, prompted, true⟩ = [] := if_pos answers
    rw [rest] at ih
    have accounts : Accounts prompted.diagnostics.toList (⟨source, prompted, true⟩ :: passes)
        ending.session.diagnostics.toList :=
      @Accounts.cons ⟨source, prompted, true⟩ _ _ (cleared ▸ ih)
    exact diagnostics_of_print (congrArg left prompts) ▸ accounts

/-- Each step accounts for its errors, whatever it is. -/
theorem accounts_step (s : Session) (step : Step) :
    Accounts s.diagnostics.toList (step.passes s) (step.after s).diagnostics.toList := by
  cases step with
  | run source => exact @accounts_single ⟨source, s, false⟩ rfl
  | runFile read path =>
    rw [Step.passes, Step.after]
    cases found : sourceAt? read path with
    | none => exact diagnostics_runFile_of_none found s ▸ .nil
    | some source =>
      rw [left_runFile_of_some found]
      exact @accounts_single ⟨source, s, false⟩ rfl
  | repl input =>
    rw [Step.passes, Step.after, repl, ← recorded_ending]
    exact accounts_recorded s input.lines

def afterSteps (s : Session) (steps : List Step) : Session := steps.foldl Step.after s

/-- The runs in a history, each with the session that it found. -/
def passesOf (s : Session) : List Step → List Pass
  | [] => []
  | step :: steps => step.passes s ++ passesOf (step.after s) steps

theorem accounts_steps (s : Session) (steps : List Step) :
    Accounts s.diagnostics.toList (passesOf s steps) (afterSteps s steps).diagnostics.toList := by
  induction steps generalizing s with
  | nil => exact .nil
  | cons step steps ih => exact (accounts_step s step).append (ih (step.after s))

/-- All that goes on in a session without a scan. -/
inductive Unscanned (s : Session) : Session → Prop
  | turnedAway (read : String → Except Fault Bytes) {path : String}
      (other : hasScriptExtension path = false) : Unscanned s (left (runFile read path s))
  | unreadable {read : String → Except Fault Bytes} {path : String} {fault : Fault}
      (script : hasScriptExtension path = true) (unreadable : read path = .error fault) :
      Unscanned s (left (runFile read path s))
  | unprompted {fault : Fault} {stuck : Session} (full : print prompt s = .error fault stuck)
      (lines : List Bytes) : Unscanned s (s.converse lines).session
  | endOfInput : Unscanned s (s.converse []).session
  | noText {line : Bytes} (noText : ¬∃ text, Utf8.encode text = line) (lines : List Bytes) :
      Unscanned s (s.converse (line :: lines)).session
  | exit {line : Bytes} (asks : Holds line "exit") (lines : List Bytes) :
      Unscanned s (s.converse (line :: lines)).session

theorem Unscanned.diagnostics {t : Session} (unscanned : Unscanned s t) :
    t.diagnostics = s.diagnostics := by
  -- Without a run the record is empty, and then it accounts for no errors but those held before.
  have unchanged {lines : List Bytes} (none : (s.recorded lines).2 = []) :
      (s.converse lines).session.diagnostics = s.diagnostics := by
    have accounts := accounts_recorded s lines
    rw [none, recorded_ending] at accounts
    exact Diagnostics.ext_toList accounts.eq_foldl
  cases unscanned with
  | turnedAway read other =>
    refine diagnostics_runFile_of_none ?_ s
    simp only [sourceAt?, other, Bool.false_eq_true, if_false]
  | unreadable script unreadable =>
    refine diagnostics_runFile_of_none ?_ s
    simp only [sourceAt?, script, if_true, unreadable]
  | unprompted full lines =>
    rw [converse_of_unprompted lines full]
    exact diagnostics_of_print (congrArg left full)
  | endOfInput =>
    refine unchanged ?_
    rw [recorded]
    split <;> rfl
  | @noText line noText lines =>
    have noSource : sourceOf? line = none := by
      refine Option.eq_none_iff_forall_ne_some.mpr fun source holds => noText ?_
      exact exists_holds_iff.mp ⟨source, sourceOf?_eq_some_iff.mp holds⟩
    refine unchanged ?_
    simp only [recorded, noSource]
    split <;> rfl
  | exit asks lines =>
    refine unchanged ?_
    simp only [recorded, sourceOf?_eq_some_iff.mpr asks, if_true]
    split <;> rfl

/-- A session in all its history. The errors held are those of the runs behind the last line that a
dialogue printed to its end, at the end and before each run. A run adds its own and, if nothing fails,
shows them all. -/
theorem held_over_history (s : Session) (nothingHeld : s.diagnostics = {}) (steps : List Step) :
    (afterSteps s steps).diagnostics.toList = (standing (passesOf s steps)).flatMap Pass.errors ∧
    (∀ (earlier : List Pass) (pass : Pass) (later : List Pass),
      passesOf s steps = earlier ++ pass :: later →
        pass.before.diagnostics.toList = (standing earlier).flatMap Pass.errors ∧
        pass.after.diagnostics.toList = pass.before.diagnostics.toList ++ pass.errors ∧
        (pass.finished = true → pass.after.err.written.toList =
          pass.before.err.written.toList ++ errorLines pass.after.diagnostics.toList)) ∧
    (∀ (t : Session) (lines : List Bytes), (t.recorded lines).1 = t.converse lines) ∧
    (∀ t u : Session, Unscanned t u → u.diagnostics = t.diagnostics) ∧
    (∀ (t u : Session) (read : String → Except Fault Bytes) (path : String) (status : ExitStatus),
      hasScriptExtension path = true → runFile read path t = .ok status u →
        status.code = if u.diagnostics.toList = [] then 0 else 65) := by
  have accounts := accounts_steps s steps
  have empty : s.diagnostics.toList = [] := by rw [nothingHeld]; rfl
  rw [empty] at accounts
  refine ⟨accounts.eq_standing, ?_, recorded_ending, fun t u unscanned => unscanned.diagnostics,
    fun t u read path status script runs => code_of_runFile script runs⟩
  intro earlier pass later cut
  rw [cut] at accounts
  obtain ⟨middle, first, second⟩ := accounts.split
  refine ⟨?_, toList_left_run pass.source pass.before, fun finished =>
    err_of_run (Pass.run_of_finished finished)⟩
  rw [← first.eq_standing]
  cases second
  rfl

/-- The line with `#` is answered and clears what was held. There is no room to print what is in the
line with `$`, so its error remains and the script adds its own. -/
theorem held_over_history_point :
    ({ out := .limited 40 } : Session).diagnostics = {} ∧
    (afterSteps { out := .limited 40 } [.run "@", .repl (Utf8.encode "#\n$ 1\n"),
        .runFile (fun _ => .ok (Utf8.encode "%")) "a.ks"]).diagnostics.toList =
      [.unexpectedCharacter 1 '$', .unexpectedCharacter 1 '%'] ∧
    ∃ pass ∈ passesOf { out := .limited 40 } [.run "@", .repl (Utf8.encode "#\n$ 1\n"),
        .runFile (fun _ => .ok (Utf8.encode "%")) "a.ks"],
      pass.source = "#" ∧ pass.after.err.written.toList = pass.before.err.written.toList ++
        errorLines [.unexpectedCharacter 1 '@', .unexpectedCharacter 1 '#'] := by
  have nothingHeld : ({ out := .limited 40 } : Session).diagnostics = {} := rfl
  obtain ⟨held, eachRun, -⟩ := held_over_history { out := .limited 40 } nothingHeld
    [.run "@", .repl (Utf8.encode "#\n$ 1\n"), .runFile (fun _ => .ok (Utf8.encode "%")) "a.ks"]
  have answered : ∃ pass ∈ passesOf { out := .limited 40 } [.run "@", .repl (Utf8.encode "#\n$ 1\n"),
        .runFile (fun _ => .ok (Utf8.encode "%")) "a.ks"],
      pass.source = "#" ∧ pass.finished = true ∧ pass.after.diagnostics.toList =
        [.unexpectedCharacter 1 '@', .unexpectedCharacter 1 '#'] := by decide +kernel
  refine ⟨nothingHeld, ?_, ?_⟩
  · rw [held]
    decide +kernel
  · obtain ⟨pass, member, source, finished, behind⟩ := answered
    obtain ⟨earlier, later, cut⟩ := List.append_of_mem member
    obtain ⟨-, -, shown⟩ := eachRun earlier pass later cut
    exact ⟨pass, member, source, behind ▸ shown finished⟩

end Session

end ScriptLexer
