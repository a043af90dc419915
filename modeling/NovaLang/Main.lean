import NovaLang.CommandLine

namespace NovaLang.CommandLine

/-! # The program

Reads the file a command line names, performs the command and writes what it
leads to. At the prompt each line is answered before the next one is read.
-/

/-- The number of rounds a loop may have: more than can be run. -/
def maxRounds : Nat := Nat.pow 10 18

/-- The time in seconds. -/
def now : IO Float := do return (← IO.monoMsNow).toFloat / 1000.0

/-- The status after a crash. -/
def statusCrash : UInt32 := 1

/-- The file a command reads. -/
def Command.path? : Command → Option Path
  | .listTokens path | .printTree path | .emitTree path | .runTree path | .runScript path =>
    some (Path.ofString path)
  | .converse => none

/-- The files when all that is known is that a file can be read at a path: there
are the file and the directories that the path leads through. -/
def filesAt (path : Path) (content : ByteArray) : Files :=
  let above := (List.range path.components.length).map fun n =>
    ({ path with components := path.components.take n } : Path)
  { contents := [(path.resolve.toString, content)]
    directories := above.map fun p => p.resolve.toString }

/-- The files that a command line works on. -/
def load (arguments : List String) : IO Files := do
  match (Settings.ofArguments arguments).toOption.bind fun s => Command.path? s.command with
  | none => return {}
  | some path =>
    try
      return filesAt path (← IO.FS.readBinFile path.toString)
    catch
      | .noFileOrDirectory _ _ _ => return {}
      | e => throw e

/-- Writes the files that are new or changed. -/
def store (before after : Files) : IO Unit := do
  for (name, content) in after.contents do
    if Keyed.get? before.contents name != some content then IO.FS.writeBinFile name content

/-- Writes what a crash says about itself. -/
def explain (crash : Crash) : IO Unit :=
  IO.eprintln ((crash.message?).getD "the command cannot be carried out")

/-- Performs a command that does not converse. -/
def once (arguments : List String) : IO UInt32 := do
  let files ← load arguments
  let o := perform arguments files "" maxRounds (← now)
  IO.print o.out
  IO.eprint o.err
  store files o.files
  match o.status with
  | .ok status => return status.toUInt32
  | .error crash => do
    explain crash
    return statusCrash

/-- Writes what a session has printed, reported and logged. -/
def publish (s : Shell) : IO Shell := do
  IO.print s.session.machine.out
  IO.eprint s.session.report.text
  (← IO.getStdout).flush
  match s.session.machine.logText? with
  | some log => IO.FS.writeFile logFile.toString log
  | none => pure ()
  return { s with session := s.session.flush }

/-- Answers the lines of the input until one asks to leave. -/
partial def converseAt (s : Shell) : IO UInt32 := do
  let s ← publish s.showPrompt
  let line ← (← IO.getStdin).getLine
  if line.isEmpty then
    discard (publish (s.say ""))
    return 0
  let (outcome, s) := s.answer maxRounds (String.ofList (line.toList.takeWhile (· != '\n')))
  let s ← publish s
  match outcome with
  | .ok true => return 0
  | .ok false => converseAt s
  | .error halt => do
    explain (.halt halt)
    return statusCrash

end NovaLang.CommandLine

open NovaLang NovaLang.CommandLine in
/-- Carries out a command line. -/
def main (arguments : List String) : IO UInt32 := do
  match Settings.ofArguments arguments with
  | .ok settings =>
    match settings.command with
    | .converse => do
      let shell : Shell := ⟨newSession settings (← now), settings.frontEnd⟩
      converseAt (shell.say Shell.intro)
    | _ => once arguments
  | .error _ => once arguments
