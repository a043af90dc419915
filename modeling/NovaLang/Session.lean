import NovaLang.Eval.Run
import NovaLang.Grammar.Read
import NovaLang.Text.Quoted

namespace NovaLang

/-! # Sessions

A session runs one source text after another against the same global scope. A
text with a static error is not run at all, and errors in earlier texts do not
keep a later one from running.
-/

/-- How source texts are turned into trees. -/
inductive FrontEnd where
  /-- By recursive descent over the scanned tokens, with recovery from errors. -/
  | descent
  /-- By the automaton of the grammar, up to the first error. -/
  | grammar
  deriving DecidableEq, Repr, Inhabited

namespace FrontEnd

/-- The name a front end is chosen by. -/
def name : FrontEnd → String
  | .descent => "descent"
  | .grammar => "grammar"

/-- The front end of a name. -/
def ofName? (name : String) : Option FrontEnd :=
  [FrontEnd.descent, .grammar].find? fun f => f.name == name

/-- A choice of a front end, which may turn out to be none. -/
inductive Choice where
  | known (f : FrontEnd)
  /-- What was chosen is no front end; how it is shown in messages. -/
  | unknown (shown : String)
  deriving DecidableEq, Repr, Inhabited

/-- The choice of a front end by its name. -/
def choose (name : String) : Choice :=
  match ofName? name with
  | some f => .known f
  | none => .unknown (Text.quoted name)

/-- The choice of no name at all, shown as an empty list of names. -/
def chooseNothing : Choice := .unknown "[]"

/-- The program of a source text, and the report with its static errors added. -/
def read (f : FrontEnd) (source : String) (report : Report) : List Node × Report :=
  match f with
  | .descent =>
    let (tokens, report) := Token.scan source report
    Descent.read tokens report
  | .grammar =>
    match Grammar.read source with
    | .ok program => (program, report)
    | .error e => ([], report.atLine e.line e.complaint)

end FrontEnd

/-- The expression of a source text, if it is well formed, the place its reading
ended at, and the report with the static errors added. -/
def readExpression (source : String) (report : Report) :
    Option Node × Nat × Report :=
  let (tokens, report) := Token.scan source report
  match Descent.soleExpression.run ⟨[], tokens, report⟩ with
  | (.ok e, c) => (e, c.position, c.report)
  | (.error _, c) => (none, c.position, c.report)

/-- A session: the machine and the report on everything read and run so far. -/
structure Session where
  machine : Machine
  report : Report

namespace Session

/-- What keeps a run from ending, with or without an error. -/
inductive Halt where
  /-- A fault of the tree or of the host. -/
  | fault (fault : Fault)
  /-- A loop goes on beyond the rounds it was given. -/
  | endless
  /-- A source text is to be read by what is no front end. -/
  | unknownFrontEnd (shown : String)
  deriving DecidableEq, Repr

/-- The wording of a halt, for those that have one. -/
def Halt.message? : Halt → Option String
  | .fault f => f.message?
  | .unknownFrontEnd shown =>
    some ("unknown parser " ++ shown ++ "; expected one of ('descent', 'grammar')")
  | .endless => none

/-- A new session. -/
def new (natives : List Native) (logLevel : Nat) (clock : Float) (report : Report)
    (host : Host := .idle) : Session :=
  ⟨Machine.new natives logLevel clock host, report⟩

/-- A step of a run on its own; a run-time error is not reported. -/
def step {α : Type} (s : Session) (e : Eval.Exec α) : Except Eval.Interrupt α × Session :=
  let (outcome, machine) := e.run s.machine
  (outcome, { s with machine })

/-- Runs a program. The first run-time error ends the run and is reported; the
result says whether there was none. -/
def interpret (s : Session) (rounds : Nat) (program : List Node) : Except Halt Bool × Session :=
  match s.step (Eval.runProgram rounds program) with
  | (.ok (), s) => (.ok true, s)
  | (.error (.runtime e), s) =>
    (.ok false,
      { machine := s.machine.note (.stopped e), report := s.report.addRuntime e })
  | (.error (.fault f), s) => (.error (.fault f), s)
  | (.error .endless, s) => (.error .endless, s)

/-- Reads a source text and runs it, unless it has a static error; the result says
whether there was no error at all. -/
def runSource (s : Session) (rounds : Nat) (f : FrontEnd) (source : String) :
    Except Halt Bool × Session :=
  let before := s.report.errorCount
  let (program, report) := f.read source s.report
  if before < report.errorCount then (.ok false, { s with report })
  else ({ s with report } : Session).interpret rounds program

/-- Runs a source text with the front end of a choice, if that is one. -/
def runChosen (s : Session) (rounds : Nat) (choice : FrontEnd.Choice) (source : String) :
    Except Halt Bool × Session :=
  match choice with
  | .known f => s.runSource rounds f source
  | .unknown shown => (.error (.unknownFrontEnd shown), s)

/-- Closes the log. -/
def close (s : Session) : Session := { s with machine := s.machine.closeLog }

/-- Forgets that there were errors. -/
def reset (s : Session) : Session := { s with report := s.report.reset }

/-- The session with nothing printed or reported yet. -/
def flush (s : Session) : Session := ⟨s.machine.flush, s.report.flush⟩

end Session

end NovaLang
