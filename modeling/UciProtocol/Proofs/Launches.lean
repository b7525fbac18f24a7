import UciProtocol.Launch
import UciProtocol.Proofs.LoggedSessions
import UciProtocol.Proofs.Runs

/-! The program as a whole.

What the program puts out and how it exits is decided by its input alone. The options decide just
where a log goes, and what of it.
-/

set_option autoImplicit false

namespace UciProtocol.Launch

def told (source : Source) : List Event × Ending :=
  let (started, before) := session.start Idle.engine
  let run := started.run Idle.engine source
  let (_, after) := run.session.finish Idle.engine
  (before ++ (run.events ++
      ((if run.ending = .finished then [.logged closing] else []) ++ after)),
    run.ending)

theorem course_eq (filter : Log.Filter) (source : Source) :
    course filter source = (Event.kept filter (told source).1, (told source).2) := by
  have last (ending : Ending) : (if ending = .finished then filter.note closing else []) =
      Event.kept filter (if ending = .finished then [.logged closing] else []) := by
    split
    · exact (Event.kept_singleton filter closing).symm
    · rfl
  simp only [course, told, Logged.start_eq, Logged.run_eq, Logged.finish_eq, Event.kept_append,
    Run.kept, last]

/-- Words that start the program: they give sound options, and a log file that can be opened. -/
structure Starts (words : List String) (options : Options) : Prop where
  read : Options.read words = some options
  opens : ∀ path ∈ options.logFile, (Place.ofPath? path).isSome

section
variable {words : List String} {options : Options} (starts : Starts words options)
  (source : Source) (directory : Directory)
include starts

theorem execute_eq :
    execute words source directory =
      let (events, ending) := transcript options source
      { exitCode := (exit ending).1
        output := Event.output events
        complaint := (exit ending).2
        directory :=
          match options.logFile.bind Place.ofPath? with
          | none => directory
          | some place => directory.write place (logText events) } := by
  unfold execute
  rw [starts.read]
  dsimp only
  cases file : options.logFile with
  | none => rfl
  | some path =>
    obtain ⟨place, opened⟩ := Option.isSome_iff_exists.1 (starts.opens path file)
    simp only [Option.bind_some, opened]

end

theorem output_note (filter : Log.Filter) (record : Log.Record) :
    Event.output (filter.note record) = "" := by
  unfold Log.Filter.note
  split <;> rfl

theorem output_transcript (options : Options) (source : Source) :
    Event.output (transcript options source).1 = Event.output (told source).1 := by
  have unsaid : Event.output (options.logFile.toList.flatMap fun path =>
      options.inForce.note (opening path options.inForce)) = "" := by
    cases options.logFile with
    | none => rfl
    | some path => simpa using output_note _ _
  rw [transcript, course_eq]
  dsimp only
  rw [Event.output_append, unsaid, String.empty_append, Event.output_kept]

theorem output_told (source : Source) :
    Event.output (told source).1 =
      Event.output ((session.start Idle.engine).1.follow Idle.engine
        (Session.throughQuit (source.lines.map Text.received))).2 := by
  let run := (session.start Idle.engine).1.run Idle.engine source
  -- The engine says nothing where the session begins and where it ends.
  have first : Event.output (session.start Idle.engine).2 = "" := rfl
  have last : Event.output (run.session.finish Idle.engine).2 = "" := rfl
  have closed : Event.output (if run.ending = .finished then [.logged closing] else []) = "" := by
    split <;> rfl
  have whole : Event.output (told source).1 = Event.output run.events := by
    rw [told, Event.output_append, Event.output_append, Event.output_append, first, last, closed,
      String.append_empty, String.append_empty, String.empty_append]
  obtain ⟨-, effects, -⟩ := Session.serveAll_follow Idle.engine source.fails
    (session.start Idle.engine).1 source.lines
  have led : run = Session.serveAll Idle.engine source.fails (session.start Idle.engine).1
      source.lines := Session.run_eq_serveAll Idle.engine _ source
  rw [whole, ← Event.output_effects, led, effects, Event.output_effects]

theorem ending_told (source : Source) :
    (told source).2 =
      if source.fails = true ∧
          ∀ text ∈ source.lines.map Text.received, Text.tokens text ≠ ["quit"]
        then .failed else .finished := by
  obtain ⟨-, -, ending⟩ := Session.serveAll_follow Idle.engine source.fails
    (session.start Idle.engine).1 source.lines
  rw [← Session.run_eq_serveAll] at ending
  simp only [List.forall_mem_map]
  cases ended : (told source).2 with
  | failed => exact (if_pos (ending.1 ended)).symm
  | finished =>
    refine (if_neg fun fails => ?_).symm
    cases ended.symm.trans (ending.2 fails)

/-- Once it has started, the program answers the lines of its input up to the first that says
nothing but `quit`, and exits with an error just where the input fails before such a line. It does
so whatever its options are; without a log file, nothing is left behind. -/
theorem execute_follows_lines {words : List String} {options : Options}
    (starts : Starts words options) (source : Source) (directory : Directory) :
    let result := execute words source directory
    let texts := source.lines.map Text.received
    result.output = Event.output ((session.start Idle.engine).1.follow Idle.engine
      (Session.throughQuit texts)).2 ∧
    (result.exitCode, result.complaint) =
      exit (if source.fails = true ∧ ∀ text ∈ texts, Text.tokens text ≠ ["quit"]
        then .failed else .finished) ∧
    (options.logFile = none → result.directory = directory) := by
  intro result texts
  have same : result = _ := execute_eq starts source directory
  rw [same]
  refine ⟨(output_transcript options source).trans (output_told source), ?_, fun unlogged => ?_⟩
  · have ending : (transcript options source).2 = (told source).2 := by
      rw [transcript, course_eq]
    dsimp only
    rw [ending, ending_told]
  · simp only [unlogged, Option.bind_none]

theorem records_transcript (path : String) (filter : Log.Filter) (source : Source) :
    Event.records (transcript ⟨some path, filter⟩ source).1 =
      Log.kept filter (opening path filter :: Event.records (told source).1) := by
  have whole : (transcript ⟨some path, filter⟩ source).1 =
      Event.kept filter (.logged (opening path filter) :: (told source).1) := by
    rw [Event.kept_cons_logged, transcript, course_eq]
    simp [Options.inForce]
  rw [whole, Event.records_kept]
  rfl

/-- What is written to the log file does not depend on the level, but for the first record, which
names it: there are records of which, at each level, the file gains those that the level admits. -/
theorem log_file_holds_what_level_admits (path : String) (source : Source)
    (directory : Directory) :
    ∃ records : List Log.Record, ∀ words filter, Starts words ⟨some path, filter⟩ →
      ∃ place, Place.ofPath? path = some place ∧
        (execute words source directory).directory = directory.write place
          (String.join ((Log.kept filter (opening path filter :: records)).map
            (Log.stamped 0))) := by
  refine ⟨Event.records (told source).1, fun words filter starts => ?_⟩
  obtain ⟨place, opened⟩ := Option.isSome_iff_exists.1 (starts.opens path rfl)
  refine ⟨place, opened, ?_⟩
  rw [execute_eq starts, ← records_transcript]
  simp only [Option.bind_some, opened, logText]

end UciProtocol.Launch
