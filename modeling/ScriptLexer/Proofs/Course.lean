import Mathlib.Data.List.Forall2
import ScriptLexer.Proofs.Lines
import ScriptLexer.Proofs.Printing

namespace ScriptLexer

namespace Session

variable {s prompted : Session} {line : Bytes} {source : String} {fault : Fault} (lines : List Bytes)

theorem answer_of_none (noText : sourceOf? line = none) : answer line = throw .notUtf8 := by
  have undecoded : Utf8.decode? line = none := Option.map_eq_none_iff.mp noText
  simp only [answer, undecoded]

theorem answer_of_some (holds : sourceOf? line = some source) :
    answer line = if source = "exit" then pure false else do run source; forget; return true := by
  obtain ⟨text, decoded, rfl⟩ := Option.map_eq_some_iff.mp holds
  simp only [answer, decoded]
  rfl

theorem converse_of_unprompted {left : Session} (full : print prompt s = .error fault left) :
    s.converse lines = ⟨.error fault, lines, left⟩ := by
  cases lines <;> simp only [converse, EStateM.run, full]

theorem converse_nil (prompts : print prompt s = .ok () prompted) :
    s.converse [] = ⟨.ok (), [], prompted⟩ := by
  simp only [converse, EStateM.run, prompts]

theorem converse_of_none (prompts : print prompt s = .ok () prompted) (noText : sourceOf? line = none) :
    s.converse (line :: lines) = ⟨.error .notUtf8, lines, prompted⟩ := by
  simp only [converse, EStateM.run, prompts, answer_of_none noText]
  rfl

theorem converse_of_exit (prompts : print prompt s = .ok () prompted)
    (asks : sourceOf? line = some "exit") :
    s.converse (line :: lines) = ⟨.ok (), lines, prompted⟩ := by
  simp only [converse, EStateM.run, prompts, answer_of_some asks, if_true]
  rfl

theorem converse_of_failed {left : Session} (prompts : print prompt s = .ok () prompted)
    (holds : sourceOf? line = some source) (goesOn : source ≠ "exit")
    (fails : run source prompted = .error fault left) :
    s.converse (line :: lines) = ⟨.error fault, lines, left⟩ := by
  simp only [converse, EStateM.run, prompts, answer_of_some holds, goesOn, if_false, bind, EStateM.bind,
    fails]

/-- A line that is printed leaves no errors for the next one. -/
theorem converse_of_answered {printed : Session} (prompts : print prompt s = .ok () prompted)
    (holds : sourceOf? line = some source) (goesOn : source ≠ "exit")
    (runs : run source prompted = .ok () printed) :
    s.converse (line :: lines) = { printed with diagnostics := {} }.converse lines := by
  simp only [converse, EStateM.run, prompts, answer_of_some holds, goesOn, if_false, bind, EStateM.bind,
    runs]
  rfl

/-- No errors are held, and the streams take everything. -/
structure Fresh (s : Session) : Prop where
  empty : s.diagnostics = {}
  outFree : s.out.room = none
  errFree : s.err.room = none

theorem Fresh.print (fresh : s.Fresh) (text : String) :
    Session.print text s = .ok () { s with out := s.out.push (Utf8.encode text) } := by
  rcases print_cases text s with ⟨-, prints⟩ | ⟨full, -⟩
  · exact prints
  · rw [Sink.fits_of_unlimited fresh.outFree] at full
    cases full

/-- A fresh session prints the errors and the tokens of the source, and the errors are held. -/
theorem Fresh.run (fresh : s.Fresh) (source : String) :
    Session.run source s = .ok () ⟨(ScriptLexer.scan source).2,
      s.out.push (tokenLines (ScriptLexer.scan source).1),
      s.err.push (errorLines (ScriptLexer.scan source).2.toList)⟩ := by
  have held : (s.scanned source).diagnostics = (ScriptLexer.scan source).2 := by
    apply Diagnostics.ext_toList
    rw [toList_scanned, fresh.empty]
    rfl
  rcases run_cases source s held rfl rfl with ⟨-, -, runs⟩ | ⟨-, full, -⟩ | ⟨full, -⟩
  · exact runs
  · rw [Sink.fits_of_unlimited fresh.outFree] at full
    cases full
  · rw [Sink.fits_of_unlimited fresh.errFree] at full
    cases full

theorem Fresh.push (fresh : s.Fresh) (out err : Bytes) :
    Fresh ⟨{}, s.out.push out, s.err.push err⟩ := by
  refine ⟨rfl, ?_, ?_⟩
  · rw [Sink.push_of_unlimited fresh.outFree]
  · rw [Sink.push_of_unlimited fresh.errFree]

/-- What the main stream shows of a dialogue that answered these sources. -/
def transcript (sources : List String) : Bytes :=
  sources.flatMap (fun source => Utf8.encode "KS> " ++ tokenLines (ScriptLexer.scan source).1) ++
    Utf8.encode "KS> "

/-- What the stream for errors shows of it. -/
def errorTranscript (sources : List String) : Bytes :=
  sources.flatMap fun source => errorLines (ScriptLexer.scan source).2.toList

theorem push_transcript_cons (sink : Sink) (source : String) (sources : List String) :
    (sink.push (Utf8.encode "KS> " ++ tokenLines (ScriptLexer.scan source).1)).push
      (transcript sources) = sink.push (transcript (source :: sources)) := by
  rw [← Sink.push_append, transcript, transcript, List.flatMap_cons, List.append_assoc,
    List.append_assoc, List.append_assoc]

theorem push_errorTranscript_cons (sink : Sink) (source : String) (sources : List String) :
    (sink.push (errorLines (ScriptLexer.scan source).2.toList)).push (errorTranscript sources) =
      sink.push (errorTranscript (source :: sources)) := by
  rw [← Sink.push_append]
  rfl

/-- The lines of a dialogue are cut in those that are answered and those behind, of which the first
one stops the dialogue. -/
structure Course (lines answered : List Bytes) (sources : List String) (behind : List Bytes) : Prop where
  cut : lines = answered ++ behind
  holds : List.Forall₂ Holds answered sources
  goesOn : "exit" ∉ sources
  stops : ∀ line ∈ behind.head?, ∀ source, Holds line source → source = "exit"

theorem Course.stopped {lines : List Bytes}
    (stops : ∀ line ∈ lines.head?, ∀ source, Holds line source → source = "exit") :
    Course lines [] [] lines := ⟨rfl, .nil, List.not_mem_nil, stops⟩

theorem Course.cons {lines answered behind : List Bytes} {sources : List String}
    (course : Course lines answered sources behind) (holds : Holds line source)
    (goesOn : source ≠ "exit") :
    Course (line :: lines) (line :: answered) (source :: sources) behind := by
  refine ⟨by rw [course.cut, List.cons_append], .cons holds course.holds, ?_, course.stops⟩
  intro asked
  rcases List.mem_cons.mp asked with same | later
  · exact goesOn same.symm
  · exact course.goesOn later

/-- How a dialogue ends at the lines that it has not answered. -/
def resultAt : List Bytes → Except Fault Unit
  | [] => .ok ()
  | line :: _ => if (sourceOf? line).isNone then .error .notUtf8 else .ok ()

theorem Fresh.prompts (fresh : s.Fresh) :
    Session.print prompt s = .ok () ⟨{}, s.out.push (transcript []), s.err.push (errorTranscript [])⟩ := by
  obtain ⟨diagnostics, out, err⟩ := s
  obtain rfl : diagnostics = {} := fresh.empty
  rw [fresh.print prompt]
  have nothing : err.push (errorTranscript []) = err := err.push_nil
  rw [nothing]
  rfl

/-- Answering a line adds the lines of its source to both streams and nothing else. -/
theorem Fresh.converse_of_answered (fresh : s.Fresh) (lines : List Bytes)
    (holds : sourceOf? line = some source) (goesOn : source ≠ "exit") :
    s.converse (line :: lines) =
      Session.converse ⟨{}, s.out.push (Utf8.encode "KS> " ++ tokenLines (ScriptLexer.scan source).1),
        s.err.push (errorLines (ScriptLexer.scan source).2.toList)⟩ lines := by
  have runs := (fresh.push (Utf8.encode "KS> ") []).run source
  rw [Session.converse_of_answered lines fresh.prompts holds goesOn runs, Sink.push_append, Sink.push_nil]

theorem exists_course (fresh : s.Fresh) (lines : List Bytes) :
    ∃ answered sources behind, Course lines answered sources behind ∧
      s.converse lines = ⟨resultAt behind, behind.tail,
        ⟨{}, s.out.push (transcript sources), s.err.push (errorTranscript sources)⟩⟩ := by
  induction lines generalizing s with
  | nil => exact ⟨[], [], [], .stopped nofun, converse_nil fresh.prompts⟩
  | cons line lines ih =>
    cases held : sourceOf? line with
    | none =>
      have stops : ∀ source, Holds line source → source = "exit" := by
        intro source holds
        rw [sourceOf?_eq_some_iff.mpr holds] at held
        cases held
      refine ⟨[], [], line :: lines, .stopped (by simpa using stops), ?_⟩
      rw [converse_of_none lines fresh.prompts held, resultAt, held]
      rfl
    | some source =>
      by_cases asks : source = "exit"
      · subst asks
        have stops : ∀ source, Holds line source → source = "exit" := by
          intro source holds
          exact Option.some.inj ((sourceOf?_eq_some_iff.mpr holds).symm.trans held)
        refine ⟨[], [], line :: lines, .stopped (by simpa using stops), ?_⟩
        rw [converse_of_exit lines fresh.prompts held, resultAt, held]
        rfl
      · obtain ⟨answered, sources, behind, course, converses⟩ := ih (fresh.push _ _)
        refine ⟨line :: answered, source :: sources, behind,
          course.cons (sourceOf?_eq_some_iff.mp held) asks, ?_⟩
        rw [fresh.converse_of_answered lines held asks, converses, push_transcript_cons,
          push_errorTranscript_cons]

/-- A dialogue in all that it does. The bytes have one cut into lines, and the lines before the one
that stops the dialogue are answered as sources of their own, each from line one on. -/
theorem repl_course (fresh : s.Fresh) (input : Bytes) :
    ∃ (answered behind : List Bytes) (sources : List String),
      Bytes.AreLines (answered ++ behind) ∧ (answered ++ behind).flatten = input ∧
      List.Forall₂ Holds answered sources ∧ "exit" ∉ sources ∧
      (∀ line ∈ behind.head?, ∀ source, Holds line source → source = "exit") ∧
      (s.repl input).session.out.written.toList = s.out.written.toList ++
        sources.flatMap (fun source =>
          Utf8.encode "KS> " ++ tokenLines (ScriptLexer.scan source).1) ++ Utf8.encode "KS> " ∧
      (s.repl input).session.err.written.toList = s.err.written.toList ++
        sources.flatMap (fun source => errorLines (ScriptLexer.scan source).2.toList) ∧
      ((∃ line ∈ behind.head?, ¬∃ text, Utf8.encode text = line) →
        (s.repl input).result = .error .notUtf8) ∧
      ((∀ line ∈ behind.head?, ∃ text, Utf8.encode text = line) → (s.repl input).result = .ok ()) ∧
      (s.repl input).unread = behind.tail ∧
      (s.repl input).session.diagnostics = {} := by
  obtain ⟨answered, sources, behind, course, ending⟩ := exists_course fresh input.lines
  have isText (line : Bytes) : (sourceOf? line).isNone = true ↔ ¬∃ text, Utf8.encode text = line := by
    rw [← exists_holds_iff, Option.isNone_iff_eq_none, Option.eq_none_iff_forall_ne_some, not_exists]
    exact forall_congr' fun source => not_congr sourceOf?_eq_some_iff
  refine ⟨answered, behind, sources, ?_, ?_, course.holds, course.goesOn, course.stops, ?_⟩
  · rw [← course.cut]
    exact Bytes.areLines_lines input
  · rw [← course.cut]
    exact Bytes.flatten_lines input
  rw [repl, ending]
  refine ⟨?_, ?_, ?_, ?_, rfl, rfl⟩
  · rw [Sink.toList_push_of_fits (Sink.fits_of_unlimited fresh.outFree _), transcript, List.append_assoc]
  · rw [Sink.toList_push_of_fits (Sink.fits_of_unlimited fresh.errFree _), errorTranscript]
  · rintro ⟨line, first, noText⟩
    obtain ⟨rest, rfl⟩ := List.head?_eq_some_iff.mp first
    exact if_pos ((isText line).mpr noText)
  · intro texts
    cases behind with
    | nil => rfl
    | cons line rest => exact if_neg fun noText => (isText line).mp noText (texts line rfl)

/-- The second line stops a dialogue of three lines, by asking for the end or by being no text. The first
one is answered, the last one is not read. -/
theorem repl_course_point :
    Fresh {} ∧
    (∃ sources : List String, List.Forall₂ Holds [Utf8.encode "@ a\r\n"] sources ∧
      (repl {} (Utf8.encode "@ a\r\nexit\r\nb")).session.out.written.toList = sources.flatMap (fun source =>
        Utf8.encode "KS> " ++ tokenLines (ScriptLexer.scan source).1) ++ Utf8.encode "KS> " ∧
      (repl {} (Utf8.encode "@ a\r\nexit\r\nb")).result = .ok () ∧
      (repl {} (Utf8.encode "@ a\r\nexit\r\nb")).unread = [Utf8.encode "b"]) ∧
    (repl {} (Utf8.encode "@ a\r\n" ++ [0xFF, 0x0A, 0x62])).result = .error .notUtf8 ∧
      (repl {} (Utf8.encode "@ a\r\n" ++ [0xFF, 0x0A, 0x62])).unread = [Utf8.encode "b"] := by
  have fresh : Fresh {} := ⟨rfl, rfl, rfl⟩
  have cut {answered behind : List Bytes} {first stop last : Bytes}
      (lines : answered ++ behind = [first, stop, last]) (unread : behind.tail = [last]) :
      answered = [first] ∧ behind = [stop, last] := by
    cases behind with
    | nil => cases unread
    | cons line rest =>
      obtain rfl : rest = [last] := unread
      have joined : answered ++ [line, last] = [first] ++ [stop, last] := lines
      exact List.append_inj' joined rfl
  refine ⟨fresh, ?_, ?_⟩
  · obtain ⟨answered, behind, sources, areLines, whole, holds, -, -, out, -, -, ends, unread, -⟩ :=
      repl_course fresh (Utf8.encode "@ a\r\nexit\r\nb")
    have lines : (Utf8.encode "@ a\r\nexit\r\nb").lines =
        [Utf8.encode "@ a\r\n", Utf8.encode "exit\r\n", Utf8.encode "b"] := by decide +kernel
    have left : (repl {} (Utf8.encode "@ a\r\nexit\r\nb")).unread = [Utf8.encode "b"] := by
      decide +kernel
    rw [← whole, areLines.lines_flatten] at lines
    obtain ⟨rfl, rfl⟩ := cut lines (unread.symm.trans left)
    refine ⟨sources, holds, out, ends fun line first => ?_, left⟩
    exact ⟨"exit\r\n", Option.some.inj first⟩
  · obtain ⟨answered, behind, sources, areLines, whole, -, -, -, -, -, fails, -, unread, -⟩ :=
      repl_course fresh (Utf8.encode "@ a\r\n" ++ [0xFF, 0x0A, 0x62])
    have lines : (Utf8.encode "@ a\r\n" ++ [0xFF, 0x0A, 0x62]).lines =
        [Utf8.encode "@ a\r\n", [0xFF, 0x0A], Utf8.encode "b"] := by decide +kernel
    have left : (repl {} (Utf8.encode "@ a\r\n" ++ [0xFF, 0x0A, 0x62])).unread = [Utf8.encode "b"] := by
      decide +kernel
    rw [← whole, areLines.lines_flatten] at lines
    obtain ⟨rfl, rfl⟩ := cut lines (unread.symm.trans left)
    refine ⟨fails ⟨[0xFF, 0x0A], rfl, fun text => ?_⟩, left⟩
    obtain ⟨source, holds⟩ := exists_holds_iff.mpr text
    have noSource : sourceOf? [0xFF, 0x0A] = none := by decide +kernel
    cases noSource.symm.trans (sourceOf?_eq_some_iff.mpr holds)

end Session

end ScriptLexer
