import NovaLang.Session
import NovaLang.Text.Digit

namespace NovaLang

/-! # Command-line options

Options may be mixed with the one positional argument. A long option may be
abbreviated to a prefix that no other option begins with, and takes its value
after an equals sign or as the next argument; the value `--` stands for none.
Short options may be joined, and one equals sign may follow the first of them.
After `--` everything is positional. Of the four options that name a file to
inspect or to run as a tree, only one may be used.
-/

/-- The options. -/
inductive Flag where
  | help | verbose | parser | tokens | printAst | emitAst | ast
  deriving DecidableEq, Repr

namespace Flag

/-- The names of all options. -/
def names : List (String × Flag) := [
  ("-h", .help), ("--help", .help), ("-v", .verbose), ("--parser", .parser),
  ("--tokens", .tokens), ("--print-ast", .printAst), ("--emit-ast", .emitAst), ("--ast", .ast)]

/-- The option of a name. -/
def ofName? (name : String) : Option Flag := names.lookup name

/-- The option takes a value. -/
def takesValue : Flag → Bool
  | .help | .verbose => false
  | _ => true

end Flag

/-- Why the arguments lead to no command. -/
inductive UsageStop where
  /-- The arguments are not understood. -/
  | misuse
  /-- Help is asked for. -/
  | help
  deriving DecidableEq, Repr

/-- What an argument is by its form. -/
inductive Argument where
  | positional (value : String)
  | flag (f : Flag)
  /-- A long option with a value after an equals sign. -/
  | valued (f : Flag) (value : String)
  /-- A short option with more characters behind it, or behind an equals sign. -/
  | joined (f : Flag) (tail : List Char)
  /-- An option that does not exist. -/
  | unknown
  /-- The end of the options. -/
  | endOfOptions
  deriving DecidableEq, Repr

namespace Argument

/-- The characters before and after the first equals sign, if there is one. -/
def splitEquals? (cs : List Char) : Option (List Char × List Char) :=
  match cs.dropWhile (· != '=') with
  | [] => none
  | _ :: value => some (cs.takeWhile (· != '='), value)

/-- The option is written with two minus signs. -/
def isLong (cs : List Char) : Bool := cs.take 2 == ['-', '-']

/-- The characters without a newline at the end. -/
def dropNewline (cs : List Char) : List Char :=
  if cs.getLast? = some '\n' then cs.dropLast else cs

/-- A minus sign and a decimal number, which is no option. A newline may follow. -/
def isNegativeNumber (cs : List Char) : Bool :=
  let isDigit (c : Char) := (Text.digitValue? c).isSome
  match dropNewline cs with
  | '-' :: body =>
    match body.dropWhile isDigit with
    | [] => !body.isEmpty
    | '.' :: fraction => !fraction.isEmpty && fraction.all isDigit
    | _ => false
  | _ => false

/-- The option whose whole name stands before an equals sign. -/
def assigned? (cs : List Char) : Option Argument := do
  let (name, value) ← splitEquals? cs
  let f ← Flag.ofName? (String.ofList name)
  some (if isLong cs then .valued f (String.ofList value) else .joined f value)

/-- The options a long option may be short for. -/
def longMatches (cs : List Char) : List Argument :=
  let (name, value) := match splitEquals? cs with
    | some (name, value) => (name, some value)
    | none => (cs, none)
  (Flag.names.filter fun n => name.isPrefixOf n.1.toList).map fun n =>
    match value with
    | some value => .valued n.2 (String.ofList value)
    | none => .flag n.2

/-- The short option that some joined short options begin with. -/
def shortMatches (cs : List Char) : List Argument :=
  (Flag.names.filter fun n => n.1.toList == cs.take 2).map fun n => .joined n.2 (cs.drop 2)

/-- What an argument in front of `--` is. An abbreviation must be unambiguous. -/
def ofString (s : String) : Except UsageStop Argument :=
  let cs := s.toList
  match cs with
  | '-' :: _ :: _ =>
    match (Flag.ofName? s).map .flag <|> assigned? cs with
    | some a => .ok a
    | none =>
      match if isLong cs then longMatches cs else shortMatches cs with
      | [a] => .ok a
      | _ :: _ :: _ => .error .misuse
      | [] => .ok (if isNegativeNumber cs || cs.contains ' ' then .positional s else .unknown)
  | _ => .ok (.positional s)

/-- What each argument is. -/
def ofStrings : List String → Except UsageStop (List Argument)
  | [] => .ok []
  | s :: rest =>
    if s = "--" then .ok (.endOfOptions :: rest.map .positional)
    else do return (← ofString s) :: (← ofStrings rest)

end Argument

/-- What the arguments have set. -/
structure Settings where
  verbosity : Nat := 0
  frontEnd : FrontEnd.Choice := .known .descent
  /-- The option used of those that exclude each other, and its value, which is
  empty if there is none. -/
  mode : Option (Flag × String) := none
  /-- The positional argument. -/
  program : Option String := none
  /-- There were arguments that nothing takes. -/
  extras : Bool := false
  deriving DecidableEq, Repr

namespace Settings

/-- Chooses the front end. A name has to be that of one, but the name may be left out. -/
def chooseFrontEnd (s : Settings) (name : Option String) : Except UsageStop Settings :=
  match name.map FrontEnd.choose with
  | some (.unknown _) => .error .misuse
  | some choice => .ok { s with frontEnd := choice }
  | none => .ok { s with frontEnd := FrontEnd.chooseNothing }

/-- Sets an option to a value, if it has one. -/
def apply (s : Settings) (f : Flag) (value : Option String) : Except UsageStop Settings :=
  match f with
  | .help => .error .help
  | .verbose => .ok { s with verbosity := s.verbosity + 1 }
  | .parser => s.chooseFrontEnd value
  | f =>
    match s.mode with
    | some (g, _) =>
      if f = g then .ok { s with mode := some (f, value.getD "") } else .error .misuse
    | none => .ok { s with mode := some (f, value.getD "") }

/-- Sets options that take no value, in order. -/
def applyAll : List Flag → Settings → Except UsageStop Settings
  | [], s => .ok s
  | f :: fs, s => do applyAll fs (← s.apply f none)

/-- The short options that joined characters stand for, if each stands for one. -/
def shortFlags? (cs : List Char) : Option (List Flag) :=
  cs.mapM fun c => Flag.ofName? (String.ofList ['-', c])

/-- The value that stands after an equals sign; two minus signs stand for none. -/
def assignedValue (value : String) : Option String :=
  if value = "--" then none else some value

/-- Takes a positional argument; only the first one is taken. -/
def takePositional (s : Settings) (value : String) : Settings :=
  match s.program with
  | none => { s with program := some value }
  | some _ => { s with extras := true }

/-- Takes arguments in order. The value of an option that is not joined to it is
the next argument. The end of the options counts as part of the positional
argument before or after it; where there is none to take, it is left over. -/
def take : List Argument → Settings → Except UsageStop Settings
  | [], s => .ok s
  | .positional value :: .endOfOptions :: rest, s =>
    .ok { s.takePositional value with
      extras := s.extras || s.program.isSome || !rest.isEmpty }
  | .positional value :: rest, s => take rest (s.takePositional value)
  | .endOfOptions :: rest, s =>
    match rest with
    | .positional value :: more =>
      .ok { s.takePositional value with
        extras := s.extras || s.program.isSome || !more.isEmpty }
    | _ => .ok { s with extras := s.extras || s.program.isSome }
  | .unknown :: rest, s => take rest { s with extras := true }
  | .flag f :: rest, s =>
    if f.takesValue then
      match rest with
      | .positional value :: rest => do take rest (← s.apply f (some value))
      | _ => .error .misuse
    else do take rest (← s.apply f none)
  | .valued f value :: rest, s =>
    if f.takesValue then do take rest (← s.apply f (assignedValue value)) else .error .misuse
  | .joined f tail :: rest, s =>
    match tail, shortFlags? tail with
    | _ :: _, some fs => do take rest (← applyAll (f :: fs) s)
    | _, _ => .error .misuse

/-- The settings of a command line. -/
def ofArguments (arguments : List String) : Except UsageStop Settings := do
  let s ← take (← Argument.ofStrings arguments) {}
  if s.extras then .error .misuse else return s

end Settings

/-- What a command line asks for. -/
inductive Command where
  | listTokens (path : String)
  | printTree (path : String)
  | emitTree (path : String)
  | runTree (path : String)
  | runScript (path : String)
  | converse
  deriving DecidableEq, Repr

/-- The command that some settings ask for; empty file names count as not given. -/
def Settings.command (s : Settings) : Command :=
  match s.mode with
  | some (mode, path) =>
    if path = "" then fallback
    else match mode with
      | .tokens => .listTokens path
      | .printAst => .printTree path
      | .emitAst => .emitTree path
      | _ => .runTree path
  | none => fallback
where
  fallback : Command :=
    match s.program with
    | some path => if path = "" then .converse else .runScript path
    | none => .converse

end NovaLang
