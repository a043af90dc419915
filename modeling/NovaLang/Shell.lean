import NovaLang.Session
import NovaLang.Text.Blank

namespace NovaLang

/-! # The prompt

Lines typed at the prompt are source texts of one session. Only the lines
`help`, `exit` and the end of the input are commands; a statement that begins
with one of these words is run like any other.
-/

/-- What a line at the prompt asks for. -/
inductive Shell.Request where
  | nothing
  | help
  | exit
  | endOfInput
  | run (source : String)
  deriving DecidableEq, Repr

/-- A session at the prompt and the front end chosen for its lines. -/
structure Shell where
  session : Session
  frontEnd : FrontEnd.Choice

namespace Shell

/-- The greeting. -/
def intro : String := "Nova interpreter\nType 'exit' or Ctrl-D to leave."

/-- What stands in front of each line. -/
def prompt : String := "> "

/-- The answer to `help`. -/
def helpText : String :=
  "Type Nova statements, e.g. 'var a = 1; print a + 2;'. Variables persist\n" ++
  "between lines. Type 'exit' or press Ctrl-D to leave."

/-- A word and what follows it, with one blank between them. -/
def spaced (word argument : List Char) : String :=
  String.ofList (word ++ ' ' :: argument)

/-- The request of a line. Blanks around it do not count; a question mark in front
is short for `help`. -/
def request (line : String) : Request :=
  match Text.trim line.toList with
  | [] => .nothing
  | c :: rest =>
    if c = '!' then .run (String.ofList (c :: rest))
    else
      let line := if c = '?' then "help ".toList ++ rest else c :: rest
      let word := line.takeWhile Token.isAlphanumeric
      let argument := Text.trim (line.dropWhile Token.isAlphanumeric)
      if word = "help".toList then
        if argument.isEmpty then .help else .run (spaced word argument)
      else if word = "exit".toList then
        if argument.isEmpty then .exit else .run (spaced word argument)
      else if word = "EOF".toList then .endOfInput
      else .run (String.ofList line)

/-- Prints a line. -/
def say (s : Shell) (line : String) : Shell :=
  { s with session := { s.session with machine := s.session.machine.print (line ++ "\n") } }

/-- Runs a line as a source text; errors in earlier lines are forgotten first. -/
def runLine (s : Shell) (rounds : Nat) (source : String) : Except Session.Halt Unit × Shell :=
  let (outcome, session) := s.session.reset.runChosen rounds s.frontEnd source
  (outcome.map fun _ => (), { s with session })

/-- Answers a line; the result says whether the prompt is to be left. -/
def answer (s : Shell) (rounds : Nat) (line : String) : Except Session.Halt Bool × Shell :=
  match request line with
  | .nothing => (.ok false, s)
  | .help => (.ok false, s.say helpText)
  | .exit => (.ok true, s)
  | .endOfInput => (.ok true, s.say "")
  | .run source =>
    let (outcome, s) := s.runLine rounds source
    (outcome.map fun _ => false, s)

/-- Prints the prompt. -/
def showPrompt (s : Shell) : Shell :=
  { s with session := { s.session with machine := s.session.machine.print prompt } }

/-- Answers lines until one asks to leave; the end of the lines asks so too. -/
def answerAll (rounds : Nat) : List String → Shell → Except Session.Halt Unit × Shell
  | [], s => (.ok (), s.showPrompt.say "")
  | line :: lines, s =>
    match s.showPrompt.answer rounds line with
    | (.ok true, s) => (.ok (), s)
    | (.ok false, s) => answerAll rounds lines s
    | (.error e, s) => (.error e, s)

/-- Greets and answers the lines of an input. -/
def converse (s : Shell) (rounds : Nat) (input : String) : Except Session.Halt Unit × Shell :=
  answerAll rounds ((Text.lines input.toList).map String.ofList) (s.say intro)

end Shell

end NovaLang
