import ScriptLexer.Program
import ScriptLexer.Proofs.History

namespace ScriptLexer

namespace Session

theorem holds_unique {line : Bytes} {source other : String} (first : Holds line source)
    (second : Holds line other) : source = other :=
  Option.some.inj ((sourceOf?_eq_some_iff.mpr first).symm.trans (sourceOf?_eq_some_iff.mpr second))

/-- The first line that is answered, and the course of the others. -/
theorem Course.exists_cons {line : Bytes} {lines answered behind : List Bytes} {sources : List String}
    (course : Course lines (line :: answered) sources behind) :
    ∃ source rest, sources = source :: rest ∧ lines = line :: (answered ++ behind) ∧
      Holds line source ∧ source ≠ "exit" ∧ Course (answered ++ behind) answered rest behind := by
  obtain ⟨cut, holds, goesOn, stops⟩ := course
  cases holds with
  | cons first others =>
    exact ⟨_, _, rfl, cut, first, Ne.symm (List.ne_of_not_mem_cons goesOn), rfl, others,
      List.not_mem_of_not_mem_cons goesOn, stops⟩

/-- A line that is answered does not stop the dialogue. -/
theorem Course.not_stopped {line : Bytes} {lines answered behind others : List Bytes}
    {sources rest : List String} (course : Course lines (line :: answered) sources behind)
    (stopped : Course lines [] rest others) : False := by
  obtain ⟨source, _, -, cut, holds, goesOn, -⟩ := course.exists_cons
  have first : line ∈ others.head? := by
    rw [← List.nil_append others, ← stopped.cut, cut]
    rfl
  exact goesOn (stopped.stops line first source holds)

theorem Course.unique {lines answered answered' behind behind' : List Bytes} {sources sources' : List String}
    (course : Course lines answered sources behind) (course' : Course lines answered' sources' behind') :
    sources = sources' ∧ behind = behind' := by
  induction answered generalizing lines answered' sources sources' with
  | nil =>
    cases answered' with
    | cons line answered' => exact (course'.not_stopped course).elim
    | nil =>
      refine ⟨?_, course.cut.symm.trans course'.cut⟩
      rw [List.forall₂_nil_left_iff.mp course.holds, List.forall₂_nil_left_iff.mp course'.holds]
  | cons line answered ih =>
    cases answered' with
    | nil => exact (course.not_stopped course').elim
    | cons line' answered' =>
      obtain ⟨source, rest, rfl, rfl, holds, -, later⟩ := course.exists_cons
      obtain ⟨source', rest', rfl, cut, holds', -, later'⟩ := course'.exists_cons
      obtain ⟨rfl, sameLines⟩ := List.cons.inj cut
      rw [← sameLines] at later'
      obtain ⟨rfl, sameBehind⟩ := ih later later'
      exact ⟨by rw [holds_unique holds holds'], sameBehind⟩

/-- What stops a dialogue is no text exactly if a line that is none comes before every one that asks
for the end. -/
theorem Course.noText_iff {lines answered behind : List Bytes} {sources : List String}
    (course : Course lines answered sources behind) :
    (∃ line ∈ behind.head?, ¬∃ text, Utf8.encode text = line) ↔
      ∃ before line rest, lines = before ++ line :: rest ∧ (¬∃ text, Utf8.encode text = line) ∧
        ∀ earlier ∈ before, ¬Holds earlier "exit" := by
  induction answered generalizing lines sources with
  | nil =>
    obtain rfl : lines = behind := course.cut
    constructor
    · rintro ⟨line, first, noText⟩
      obtain ⟨rest, rfl⟩ := List.head?_eq_some_iff.mp first
      exact ⟨[], line, rest, rfl, noText, nofun⟩
    · rintro ⟨before, line, rest, rfl, noText, goesOn⟩
      cases before with
      | nil => exact ⟨line, rfl, noText⟩
      | cons earlier before =>
        refine ⟨earlier, rfl, fun text => ?_⟩
        obtain ⟨source, holds⟩ := exists_holds_iff.mpr text
        exact goesOn earlier (List.mem_cons_self ..) (course.stops earlier rfl source holds ▸ holds)
  | cons first answered ih =>
    obtain ⟨source, _, -, rfl, holds, goesOn, later⟩ := course.exists_cons
    rw [ih later]
    constructor
    · rintro ⟨before, line, rest, cut, noText, others⟩
      refine ⟨first :: before, line, rest, by rw [cut, List.cons_append], noText, ?_⟩
      exact List.forall_mem_cons.mpr ⟨fun asks => goesOn (holds_unique holds asks), others⟩
    · rintro ⟨before, line, rest, cut, noText, others⟩
      cases before with
      | nil =>
        obtain ⟨rfl, -⟩ := List.cons.inj cut
        exact absurd (exists_holds_iff.mp ⟨source, holds⟩) noText
      | cons earlier before =>
        exact ⟨before, line, rest, (List.cons.inj cut).2, noText, (List.forall_mem_cons.mp others).2⟩

end Session

/-- The text that a fault is told with. -/
inductive Fault.Tells : Fault → String → Prop
  | notFound : Tells .notFound "No such file or directory (os error 2)"
  | notADirectory : Tells .notADirectory "Not a directory (os error 20)"
  | isADirectory : Tells .isADirectory "Is a directory (os error 21)"
  | nulInPath : Tells .nulInPath "file name contained an unexpected NUL byte"
  | notUtf8 : Tells .notUtf8 "stream did not contain valid UTF-8"
  | streamFull : Tells .streamFull "failed to write whole buffer"
  | lexical (error : LexicalError) : Tells (.lexical error) error.toText
  | system (text : String) : Tells (.system text) text

theorem Fault.tells_iff {fault : Fault} {text : String} : fault.Tells text ↔ fault.message = text := by
  constructor
  · intro tells
    cases tells <;> rfl
  · rintro rfl
    cases fault <;> constructor

namespace Program

open Session

/-- Statuses and what is written to both streams, as the arguments, the input and the files have it. -/
inductive Exits (stdin : Bytes) (read : String → Except Fault Bytes) :
    List String → Nat → Bytes → Bytes → Prop
  | usage (first second : String) (others : List String) :
      Exits stdin read (first :: second :: others) 64 (Utf8.encode "Usage: krystalscript [source.ks]\n") []
  | turnedAway {path : String} (other : hasScriptExtension path = false) :
      Exits stdin read [path] 0 (Utf8.encode
        "Please pass in a KrystalScript code file (file must have a .ks extension).\n") []
  | unreadable {path text : String} {fault : Fault} (script : hasScriptExtension path = true)
      (unreadable : read path = .error fault) (tells : fault.Tells text) :
      Exits stdin read [path] 74 [] (Utf8.encode (text ++ "\n"))
  /-- All tokens are shown, also those behind the errors. -/
  | script {path : String} {bytes : Bytes} (script : hasScriptExtension path = true)
      (contents : read path = .ok bytes) :
      Exits stdin read [path] (if (scan (Utf8.lossy bytes)).2.toList = [] then 0 else 65)
        (tokenLines (scan (Utf8.lossy bytes)).1) (errorLines (scan (Utf8.lossy bytes)).2.toList)
  /-- The lines end, or one of them asks for the end. Errors in them do not count. -/
  | ended {lines answered behind : List Bytes} {sources : List String} (areLines : Bytes.AreLines lines)
      (whole : lines.flatten = stdin) (course : Course lines answered sources behind)
      (texts : ∀ line ∈ behind.head?, ∃ text, Utf8.encode text = line) :
      Exits stdin read [] 0 (transcript sources) (errorTranscript sources)
  /-- A line is no text. -/
  | broken {lines answered behind : List Bytes} {sources : List String} (areLines : Bytes.AreLines lines)
      (whole : lines.flatten = stdin) (course : Course lines answered sources behind)
      (noText : ∃ line ∈ behind.head?, ¬∃ text, Utf8.encode text = line) :
      Exits stdin read [] 74 (transcript sources)
        (errorTranscript sources ++ Utf8.encode "stream did not contain valid UTF-8\n")

variable {stdin : Bytes} {read : String → Except Fault Bytes} {path : String}

theorem fresh_empty : Fresh {} := ⟨rfl, rfl, rfl⟩

theorem toList_push_empty (bytes : Bytes) : (Sink.push {} bytes).written.toList = bytes :=
  Sink.toList_push_of_fits rfl

theorem run_of_other (stdin : Bytes) (read : String → Except Fault Bytes)
    (other : hasScriptExtension path = false) :
    run [path] stdin read = ⟨.success, Utf8.encode (notAScript ++ "\n"), []⟩ := by
  have prints := fresh_empty.print (notAScript ++ "\n")
  simp only [run, runFile_of_other other, EStateM.run, bind, EStateM.bind, prints]
  exact congrArg (Exit.mk _ · _) (toList_push_empty _)

theorem run_of_unreadable (stdin : Bytes) {fault : Fault} (script : hasScriptExtension path = true)
    (unreadable : read path = .error fault) :
    run [path] stdin read = ⟨.ioError, [], Utf8.encode (fault.message ++ "\n")⟩ := by
  simp only [run, runFile_of_unreadable script unreadable]
  rfl

/-- A script is run as a source of its own, and its status tells whether errors are found. -/
theorem run_of_script (stdin : Bytes) {bytes : Bytes} (script : hasScriptExtension path = true)
    (contents : read path = .ok bytes) :
    run [path] stdin read = ⟨if (scan (Utf8.lossy bytes)).2.hasFailed then .dataError else .success,
      tokenLines (scan (Utf8.lossy bytes)).1, errorLines (scan (Utf8.lossy bytes)).2.toList⟩ := by
  have runs := fresh_empty.run (Utf8.lossy bytes)
  simp only [run, runFile_of_script script contents, EStateM.run, bind, EStateM.bind, runs]
  exact congrArg₂ (Exit.mk _) (toList_push_empty _) (toList_push_empty _)

/-- Without arguments the program holds the one dialogue that the lines of the input allow. -/
theorem run_of_course {lines answered behind : List Bytes} {sources : List String}
    (areLines : Bytes.AreLines lines) (whole : lines.flatten = stdin)
    (course : Course lines answered sources behind) (read : String → Except Fault Bytes) :
    run [] stdin read = match resultAt behind with
      | .ok _ => ⟨.success, transcript sources, errorTranscript sources⟩
      | .error fault => ⟨.ioError, transcript sources,
          errorTranscript sources ++ Utf8.encode (fault.message ++ "\n")⟩ := by
  obtain ⟨answered', sources', behind', course', converses⟩ := exists_course fresh_empty lines
  obtain ⟨rfl, rfl⟩ := course.unique course'
  have cut : stdin.lines = lines := by rw [← whole, areLines.lines_flatten]
  simp only [run, repl, cut, converses]
  cases resultAt behind with
  | ok _ => exact congrArg₂ (Exit.mk _) (toList_push_empty _) (toList_push_empty _)
  | error fault =>
    exact congrArg₂ (Exit.mk _) (toList_push_empty _) (congrArg (· ++ _) (toList_push_empty _))

theorem resultAt_of_texts {behind : List Bytes}
    (texts : ∀ line ∈ behind.head?, ∃ text, Utf8.encode text = line) : resultAt behind = .ok () := by
  cases behind with
  | nil => rfl
  | cons line rest =>
    obtain ⟨source, holds⟩ := exists_holds_iff.mpr (texts line rfl)
    rw [resultAt, sourceOf?_eq_some_iff.mpr holds]
    rfl

theorem resultAt_of_noText {behind : List Bytes}
    (noText : ∃ line ∈ behind.head?, ¬∃ text, Utf8.encode text = line) :
    resultAt behind = .error .notUtf8 := by
  obtain ⟨line, first, noText⟩ := noText
  obtain ⟨rest, rfl⟩ := List.head?_eq_some_iff.mp first
  have noSource : sourceOf? line = none := by
    refine Option.eq_none_iff_forall_ne_some.mpr fun source holds => noText ?_
    exact exists_holds_iff.mp ⟨source, sourceOf?_eq_some_iff.mp holds⟩
  rw [resultAt, noSource]
  rfl

/-- The program ends as the law says. -/
theorem Exits.run_eq {args : List String} {code : Nat} {stdout stderr : Bytes}
    (exits : Exits stdin read args code stdout stderr) :
    (run args stdin read).status.code = code ∧ (run args stdin read).stdout = stdout ∧
      (run args stdin read).stderr = stderr := by
  cases exits with
  | usage first second others => exact ⟨rfl, rfl, rfl⟩
  | turnedAway other =>
    have line : notAScript ++ "\n" =
        "Please pass in a KrystalScript code file (file must have a .ks extension).\n" := by decide +kernel
    rw [run_of_other stdin read other, line]
    exact ⟨rfl, rfl, rfl⟩
  | unreadable script unreadable tells =>
    rw [run_of_unreadable stdin script unreadable, Fault.tells_iff.mp tells]
    exact ⟨rfl, rfl, rfl⟩
  | script script contents =>
    rw [run_of_script stdin script contents]
    exact ⟨code_of_held _, rfl, rfl⟩
  | ended areLines whole course texts =>
    rw [run_of_course areLines whole course read, resultAt_of_texts texts]
    exact ⟨rfl, rfl, rfl⟩
  | broken areLines whole course noText =>
    rw [run_of_course areLines whole course read, resultAt_of_noText noText]
    exact ⟨rfl, rfl, rfl⟩

/-- A dialogue ends well unless a line that is no text comes before every line that asks for the end. -/
theorem exits_of_areLines {lines : List Bytes} (areLines : Bytes.AreLines lines)
    (whole : lines.flatten = stdin) (read : String → Except Fault Bytes) :
    (∃ stdout stderr, Exits stdin read [] 74 stdout stderr ∧ ∃ before line rest,
      lines = before ++ line :: rest ∧ (¬∃ text, Utf8.encode text = line) ∧
        ∀ earlier ∈ before, ¬Holds earlier "exit") ∨
    (∃ stdout stderr, Exits stdin read [] 0 stdout stderr ∧ ¬∃ before line rest,
      lines = before ++ line :: rest ∧ (¬∃ text, Utf8.encode text = line) ∧
        ∀ earlier ∈ before, ¬Holds earlier "exit") := by
  obtain ⟨answered, sources, behind, course, -⟩ := exists_course fresh_empty lines
  rw [← course.noText_iff]
  by_cases texts : ∀ line ∈ behind.head?, ∃ text, Utf8.encode text = line
  · refine Or.inr ⟨_, _, .ended areLines whole course texts, ?_⟩
    rintro ⟨line, first, noText⟩
    exact noText (texts line first)
  · have noText : ∃ line ∈ behind.head?, ¬∃ text, Utf8.encode text = line := by
      simpa only [not_forall, exists_prop] using texts
    exact Or.inl ⟨_, _, .broken areLines whole course noText, noText⟩

/-- The law has a case for everything. -/
theorem exists_exits (args : List String) (stdin : Bytes) (read : String → Except Fault Bytes) :
    ∃ code stdout stderr, Exits stdin read args code stdout stderr := by
  match args with
  | [] =>
    rcases exits_of_areLines (Bytes.areLines_lines stdin) (Bytes.flatten_lines stdin) read with
      ⟨_, _, fails, -⟩ | ⟨_, _, ends, -⟩
    · exact ⟨_, _, _, fails⟩
    · exact ⟨_, _, _, ends⟩
  | [path] =>
    cases script : hasScriptExtension path with
    | false => exact ⟨_, _, _, .turnedAway script⟩
    | true =>
      cases contents : read path with
      | ok bytes => exact ⟨_, _, _, .script script contents⟩
      | error fault => exact ⟨_, _, _, .unreadable script contents (Fault.tells_iff.mpr rfl)⟩
  | first :: second :: others => exact ⟨_, _, _, .usage first second others⟩

/-- The input counts only without arguments, and of the files only a script that is the argument. -/
theorem run_congr {args : List String} {stdin' : Bytes} {read' : String → Except Fault Bytes}
    (sameInput : args = [] → stdin' = stdin)
    (sameScript : ∀ path, args = [path] → hasScriptExtension path = true → read' path = read path) :
    run args stdin' read' = run args stdin read := by
  match args with
  | [] => rw [sameInput rfl]; rfl
  | [path] =>
    cases script : hasScriptExtension path with
    | false => rw [run_of_other stdin' read' script, run_of_other stdin read script]
    | true =>
      have same := sameScript path rfl script
      cases contents : read path with
      | ok bytes =>
        rw [run_of_script stdin' script (same.trans contents), run_of_script stdin script contents]
      | error fault =>
        rw [run_of_unreadable stdin' script (same.trans contents),
          run_of_unreadable stdin script contents]
  | _ :: _ :: _ => rfl

/-- The program ends exactly as the law says. Without arguments it fails exactly if a line that is no
text comes before every line that asks for the end. It looks at nothing else than the input, if there
are no arguments, and the script, if there is one. -/
theorem exits_iff_run (args : List String) (stdin : Bytes) (read : String → Except Fault Bytes) :
    (∀ code stdout stderr, Exits stdin read args code stdout stderr ↔
      (run args stdin read).status.code = code ∧ (run args stdin read).stdout = stdout ∧
        (run args stdin read).stderr = stderr) ∧
    ((run [] stdin read).status.code = 74 ↔ ∃ before line behind,
      Bytes.AreLines (before ++ line :: behind) ∧ (before ++ line :: behind).flatten = stdin ∧
      (¬∃ text, Utf8.encode text = line) ∧ ∀ earlier ∈ before, ¬Holds earlier "exit") ∧
    ((run [] stdin read).status.code = 74 ∨ (run [] stdin read).status.code = 0) ∧
    (∀ (stdin' : Bytes) (read' : String → Except Fault Bytes), (args = [] → stdin' = stdin) →
      (∀ path, args = [path] → hasScriptExtension path = true → read' path = read path) →
        run args stdin' read' = run args stdin read) := by
  refine ⟨fun code stdout stderr => ⟨Exits.run_eq, ?_⟩, ?_, ?_, fun _ _ => run_congr⟩
  · rintro ⟨rfl, rfl, rfl⟩
    obtain ⟨code, stdout, stderr, exits⟩ := exists_exits args stdin read
    obtain ⟨sameCode, sameOut, sameErr⟩ := exits.run_eq
    rwa [sameCode, sameOut, sameErr]
  · constructor
    · intro fails
      rcases exits_of_areLines (Bytes.areLines_lines stdin) (Bytes.flatten_lines stdin) read with
        ⟨_, _, -, before, line, behind, cut, noText, goesOn⟩ | ⟨_, _, ends, -⟩
      · exact ⟨before, line, behind, cut ▸ Bytes.areLines_lines stdin, cut ▸ Bytes.flatten_lines stdin,
          noText, goesOn⟩
      · exact absurd (ends.run_eq.1.symm.trans fails) (by decide)
    · rintro ⟨before, line, behind, areLines, whole, noText, goesOn⟩
      rcases exits_of_areLines areLines whole read with ⟨_, _, fails, -⟩ | ⟨_, _, -, no⟩
      · exact fails.run_eq.1
      · exact absurd ⟨before, line, behind, rfl, noText, goesOn⟩ no
  · rcases exits_of_areLines (Bytes.areLines_lines stdin) (Bytes.flatten_lines stdin) read with
      ⟨_, _, fails, -⟩ | ⟨_, _, ends, -⟩
    · exact Or.inl fails.run_eq.1
    · exact Or.inr ends.run_eq.1

/-- A script with an error, a script that may not be read, and two dialogues: the first one is asked to end
before a line that is no text, the second one is not. -/
theorem exits_iff_run_point :
    let read : String → Except Fault Bytes := fun path =>
      if path = "a.ks" then .ok (Utf8.encode "@ a") else .error (.system "Permission denied (os error 13)")
    Exits [] read ["a.ks"] 65 (Utf8.encode "Identifier a \nEndOfFile  \n")
      (Utf8.encode "[line 1] Error: Unexpected character '@'.\n") ∧
    Exits [] read ["b.KS"] 74 [] (Utf8.encode "Permission denied (os error 13)\n") ∧
    Exits (Utf8.encode "@ a\nexit\r\n" ++ [0xFF, 0x0A]) read [] 0
      (Utf8.encode "KS> Identifier a \nEndOfFile  \nKS> ")
      (Utf8.encode "[line 1] Error: Unexpected character '@'.\n") ∧
    Exits (Utf8.encode "@ a\n" ++ [0xFF, 0x0A]) read [] 74
      (Utf8.encode "KS> Identifier a \nEndOfFile  \nKS> ")
      (Utf8.encode "[line 1] Error: Unexpected character '@'.\nstream did not contain valid UTF-8\n") ∧
    run ["a.ks"] (Utf8.encode "exit") (fun _ => .ok (Utf8.encode "@ a")) = run ["a.ks"] [] read := by
  intro read
  refine ⟨((exits_iff_run ["a.ks"] [] read).1 _ _ _).mpr ?_,
    ((exits_iff_run ["b.KS"] [] read).1 _ _ _).mpr ?_,
    ((exits_iff_run [] (Utf8.encode "@ a\nexit\r\n" ++ [0xFF, 0x0A]) read).1 _ _ _).mpr ?_,
    ((exits_iff_run [] (Utf8.encode "@ a\n" ++ [0xFF, 0x0A]) read).1 _ _ _).mpr ?_, ?_⟩
  · decide +kernel
  · decide +kernel
  · decide +kernel
  · decide +kernel
  · obtain ⟨-, -, -, looks⟩ := exits_iff_run ["a.ks"] [] read
    refine looks (Utf8.encode "exit") _ nofun fun path same _ => ?_
    obtain rfl := (List.cons.inj same).1
    rfl

end Program

end ScriptLexer
