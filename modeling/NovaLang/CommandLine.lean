import NovaLang.Files
import NovaLang.Json.Reader
import NovaLang.Json.Writer
import NovaLang.Node.Json
import NovaLang.Node.Print
import NovaLang.Options
import NovaLang.Shell

namespace NovaLang

/-! # The command line

What a command line prints, which files it writes and with which status it ends.
-/

namespace CommandLine

/-- What keeps a command from ending with a status. -/
inductive Crash where
  /-- A directory is used as a file. -/
  | isDirectory
  /-- A path is longer than a path may be. -/
  | pathTooLong
  /-- A file is not UTF-8. -/
  | notText
  /-- A tree file is not read as JSON, or a tree not written as JSON. -/
  | json (error : Json.Error)
  /-- A tree file holds no tree. -/
  | tree (error : Node.ReadError)
  /-- A run does not end. -/
  | halt (halt : Session.Halt)
  deriving DecidableEq, Repr

/-- The wording of a crash, for those that have one. -/
def Crash.message? : Crash → Option String
  | .json (.tooManyDigits count) =>
    some ("Exceeds the limit (" ++ toString Json.maxDigits ++
      " digits) for integer string conversion" ++
      (match count with
        | some count => ": value has " ++ toString count ++ " digits"
        | none => "") ++
      "; use sys.set_int_max_str_digits() to increase the limit")
  | .tree e => e.message?
  | .halt h => h.message?
  | .isDirectory | .pathTooLong | .notText | .json .malformed => none

/-- The status of a command line that is not understood, or of a missing file. -/
def statusUsage : Nat := 64

/-- The status after static errors. -/
def statusStatic : Nat := 65

/-- The status after a run-time error. -/
def statusRuntime : Nat := 70

/-- The usage note. -/
def usage : String :=
  "usage: nova [-h] [-v] [--parser \x7bdescent,grammar\x7d] [--tokens NOVA_FILE | " ++
  "--print-ast NOVA_FILE | --emit-ast NOVA_FILE | --ast AST_JSON_FILE] [program]\n"

/-- The file the log is written to. -/
def logFile : Path := ⟨"", ["debug.txt"]⟩

/-- What a command line leads to. -/
structure Outcome where
  status : Except Crash Nat
  out : String
  err : String
  files : Files

/-- An outcome without any output. -/
def plain (files : Files) (status : Except Crash Nat) : Outcome :=
  { status, out := "", err := "", files }

/-- The outcome when a file is missing. -/
def missing (files : Files) (path : Path) : Outcome :=
  { plain files (.ok statusUsage) with
    err := "Error: file " ++ path.toString ++ " not found\n" }

/-- Reads a text file and goes on with its text. -/
def withText (files : Files) (name : String) (next : String → Outcome) : Outcome :=
  let path := Path.ofString name
  match files.find path with
  | .missing => missing files path
  | .directory => plain files (.error .isDirectory)
  | .tooLong => plain files (.error .pathTooLong)
  | .file content =>
    match Files.decode? content with
    | some text => next text
    | none => plain files (.error .notText)

/-- The status that a report leads to. -/
def statusOf (r : Report) : Nat :=
  if r.hadError then statusStatic
  else if r.hadRuntimeError then statusRuntime
  else 0

/-- Lists the tokens of a source text. -/
def listTokens (files : Files) (source : String) : Outcome :=
  let (tokens, report) := Token.scan source {}
  { status := .ok (statusOf report)
    out := "".intercalate (tokens.map fun t => t.listing ++ "\n")
    err := report.text
    files }

/-- Writes a text file and goes on with the files there are then. -/
def withWritten (files : Files) (path : Path) (text : String) (next : Files → Outcome) : Outcome :=
  match files.find path with
  | .directory => plain files (.error .isDirectory)
  | .tooLong => plain files (.error .pathTooLong)
  | .file _ | .missing => next (files.write path text)

/-- Reads a source text and goes on with its program if it has no static error. -/
def withProgram (files : Files) (choice : FrontEnd.Choice) (source : String)
    (next : List Node → Outcome) : Outcome :=
  match choice with
  | .unknown shown => plain files (.error (.halt (.unknownFrontEnd shown)))
  | .known f =>
    let (program, report) := f.read source {}
    if report.hadError then { plain files (.ok statusStatic) with err := report.text }
    else next program

/-- Prints a program as a tree. -/
def printTree (files : Files) (program : List Node) : Outcome :=
  match Node.programText program with
  | .ok text => { plain files (.ok 0) with out := text ++ "\n" }
  | .error f => plain files (.error (.halt (.fault f)))

/-- Writes a program to a tree file beside its source file. If the program cannot be written, the
file holds what has been written before that turned out. -/
def emitTree (files : Files) (source : Path) (program : List Node) : Outcome :=
  let path := source.addSuffix ".ast.json"
  let written := Json.writing .indented 0 [] (Node.programToJson program)
  withWritten files path (String.ofList written.text) fun files =>
    match written.outcome with
    | .ok () => { plain files (.ok 0) with out := path.toString ++ "\n" }
    | .error e => plain files (.error (.json e))

/-- The program of a tree file. -/
def readTree (text : String) : Except Crash (List Node) :=
  match Json.read text with
  | .error e => .error (.json e)
  | .ok j =>
    match Node.programOfJson j with
    | .ok program => .ok program
    | .error e => .error (.tree e)

/-- Opens the log, if there is to be one, and goes on. -/
def withLog (files : Files) (settings : Settings) (next : Files → Outcome) : Outcome :=
  if settings.verbosity = 0 then next files else withWritten files logFile "" next

/-- A new session with the standard functions. -/
def newSession (settings : Settings) (clock : Float) : Session :=
  Session.new Native.standard settings.verbosity clock {}

/-- The outcome of a session that has ended: all that it printed, reported and logged. -/
def ended (files : Files) (s : Session) (status : Except Crash Nat) : Outcome :=
  { status
    out := s.machine.out
    err := s.report.text
    files := match s.machine.logText? with
      | some text => files.write logFile text
      | none => files }

/-- The outcome of a run that has come to an end or not. -/
def ran (files : Files) (outcome : Except Session.Halt Bool) (s : Session) : Outcome :=
  ended files s (match outcome with
    | .ok _ => .ok (statusOf s.report)
    | .error halt => .error (.halt halt))

/-- Runs a command. -/
def run (command : Command) (settings : Settings) (files : Files) (input : String)
    (rounds : Nat) (clock : Float) : Outcome :=
  match command with
  | .listTokens path => withText files path (listTokens files)
  | .printTree path =>
    withText files path fun source => withProgram files settings.frontEnd source (printTree files)
  | .emitTree path =>
    withText files path fun source =>
      withProgram files settings.frontEnd source (emitTree files (Path.ofString path))
  | .runTree path =>
    withText files path fun text =>
      match readTree text with
      | .error crash => plain files (.error crash)
      | .ok program =>
        withLog files settings fun files =>
          let (outcome, s) := (newSession settings clock).interpret rounds program
          ran files outcome s
  | .runScript path =>
    withLog files settings fun files =>
      withText files path fun source =>
        let (outcome, s) := (newSession settings clock).runChosen rounds settings.frontEnd source
        ran files outcome s
  | .converse =>
    withLog files settings fun files =>
      let (outcome, shell) :=
        Shell.converse ⟨newSession settings clock, settings.frontEnd⟩ rounds input
      ended files shell.session (match outcome with
        | .ok _ => .ok 0
        | .error halt => .error (.halt halt))

/-- What a whole command line leads to. -/
def perform (arguments : List String) (files : Files) (input : String) (rounds : Nat)
    (clock : Float) : Outcome :=
  match Settings.ofArguments arguments with
  | .ok settings => run settings.command settings files input rounds clock
  | .error .help => { plain files (.ok 0) with out := usage }
  | .error .misuse => { plain files (.ok statusUsage) with err := usage }

end CommandLine

end NovaLang
