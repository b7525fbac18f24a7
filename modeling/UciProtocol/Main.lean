import UciProtocol.Launch

/-! The program on the standard streams of a process. -/

set_option autoImplicit false

namespace UciProtocol.Main

structure LogFile where
  handle : IO.FS.Handle
  filter : Log.Filter
  opened : Nat

/-- Write a record to the log file, if there is one. There is nowhere left to report a failure. -/
def note (file : Option LogFile) (record : Log.Record) : IO Unit := do
  if let some file := file then
    if file.filter.admits record.level then
      let now ← IO.monoMsNow
      try
        file.handle.putStr (Log.stamped (now - file.opened) record)
        file.handle.flush
      catch _ => pure ()

def perform (file : Option LogFile) : Event → IO Unit
  | .logged record => note file record
  | .called _ => pure ()
  | .wrote text => do
    let output ← IO.getStdout
    try
      output.putStr text
      output.flush
    catch cause => note file (Sink.failed (String.ofList text.toList.dropLast) cause.toString)

/-- Read the bytes of a line, with its line feed. -/
partial def readLine (input : IO.FS.Stream) (line : ByteArray) : IO ByteArray := do
  let byte ← input.read 1
  if byte.isEmpty then return line
  let line := line ++ byte
  if byte.data.contains Text.lineFeed then return line else readLine input line

/-- Serve lines until one of them quits or the input ends. -/
partial def serve (file : Option LogFile) (input : IO.FS.Stream) (session : Session (Idle Unit)) :
    IO Unit := do
  let line ← readLine input .empty
  if line.isEmpty then return
  let served := session.serve Idle.engine line.toList
  served.events.forM (perform file)
  if served.quits then return else serve file input served.session

def openLog (options : Launch.Options) : IO (Option LogFile) := do
  let some path := options.logFile | return none
  let handle ← IO.FS.Handle.mk path .append
  return some { handle, filter := options.filter, opened := ← IO.monoMsNow }

def run (options : Launch.Options) : IO UInt32 := do
  let path := options.logFile.getD ""
  let opened ← try some <$> openLog options catch _ => pure none
  let some file := opened | IO.eprintln (Launch.cannotOpen path) *> return 1
  note file (Launch.opening path options.filter)
  let (session, _) := Launch.session.start Idle.engine
  try
    serve file (← IO.getStdin) session
    note file Launch.closing
    return 0
  catch cause =>
    IO.eprintln s!"Error: {cause}"
    return 1

end UciProtocol.Main

def main (words : List String) : IO UInt32 :=
  match UciProtocol.Launch.Options.read words with
  | some options => UciProtocol.Main.run options
  | none => do
    IO.eprintln "usage: [--logfile PATH] [--log-level off|error|warn|info|debug|trace]"
    return 2
