import UciProtocol.Engine.Idle
import UciProtocol.Launch.Directory
import UciProtocol.Launch.Options
import UciProtocol.Session.Logged

/-! The program as a whole: a session of the idle engine between its standard streams. -/

set_option autoImplicit false

namespace UciProtocol.Launch

def settings : Settings := Settings.declareAll {} (Settings.displaySettings ++ Idle.settings)

def session : Session (Idle Unit) := { engine := {}, settings }

def opening (path : String) (filter : Log.Filter) : Log.Record :=
  Log.Component.logging.record .info s!"logging to {path} at level {filter.name}"

def closing : Log.Record := Log.Component.program.record .info "input closed, exiting"

def cannotOpen (path : String) : String := s!"Error: cannot open log file {path}"

/-- The events of a session between the streams of the program, and how its input ends. -/
def course (filter : Log.Filter) (source : Source) : List Event × Ending :=
  let (started, before) := Logged.start filter Idle.engine session
  let run := Logged.run filter Idle.engine started source
  let (_, after) := Logged.finish filter Idle.engine run.session
  (before ++ (run.events ++
      ((if run.ending = .finished then filter.note closing else []) ++ after)),
    run.ending)

/-- The events of a program that has been started with sound options, and how its input ends. -/
def transcript (options : Options) (source : Source) : List Event × Ending :=
  let filter := options.inForce
  let (events, ending) := course filter source
  (options.logFile.toList.flatMap (fun path => filter.note (opening path filter)) ++ events, ending)

structure Result where
  exitCode : Nat
  output : String
  /-- The first line of complaint, where the program gives up. -/
  complaint : Option String := none
  directory : Directory
  deriving DecidableEq, Repr

/-- What is added to a log file in the course of events, in a program that takes no time. -/
def logText (events : List Event) : String :=
  String.join ((Event.records events).map (Log.stamped 0))

/-- The exit code of a program whose input ends so, and what it complains of. -/
def exit : Ending → Nat × Option String
  | .finished => (0, none)
  | .failed => (1, some s!"Error: {Source.failure}")

def execute (words : List String) (source : Source) (directory : Directory) : Result :=
  match Options.read words with
  | none => { exitCode := 2, output := "", directory }
  | some options =>
    let (events, ending) := transcript options source
    let output := Event.output events
    let (exitCode, complaint) := exit ending
    match options.logFile with
    | none => { exitCode, output, complaint, directory }
    | some path =>
      match Place.ofPath? path with
      | none =>
        { exitCode := 1, output := "", complaint := some (Text.firstLine (cannotOpen path)),
          directory }
      | some place =>
        { exitCode, output, complaint,
          directory := directory.write place (logText events) }

end UciProtocol.Launch
