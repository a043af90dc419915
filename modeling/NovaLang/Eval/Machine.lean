import NovaLang.Eval.Event
import NovaLang.Scope

namespace NovaLang

/-! # The machine

The state that running a program changes: scopes, printed text, the log and what the
functions of the host have been called with.
-/

/-! ## The host -/

/-- A call of a function of the host. -/
structure Host.Call where
  function : Native
  arguments : List Value
  deriving DecidableEq, Repr

/-- What comes of such a call: the text that the host prints, and the result or a failure. -/
structure Host.Answer where
  printed : String
  outcome : Except Fault Value

/-- What the functions of a host do. An answer may depend on the calls before, of which the
last one comes first, but not on the scopes of the program. -/
structure Host where
  answer : (earlier : List Host.Call) → Host.Call → Host.Answer

/-- A host whose functions do nothing. -/
def Host.idle : Host := ⟨fun _ _ => ⟨"", .ok .nil⟩⟩

/-! ## The state of a run -/

/-- The state of a run. -/
structure Machine where
  scopes : Scopes
  /-- The current scope. -/
  current : Nat
  /-- What the native clock shows. -/
  clock : Float
  /-- The log level; nothing is logged at level 0. -/
  logLevel : Nat
  /-- The log is open. Events after it has been closed are printed. -/
  logOpen : Bool
  log : Array Event
  /-- The text printed. -/
  out : String
  host : Host
  /-- The calls of functions of the host so far, the last one first. -/
  calls : List Host.Call

namespace Machine

/-- A machine whose global scope holds the given native functions. -/
def new (natives : List Native) (logLevel : Nat) (clock : Float) (host : Host := .idle) :
    Machine :=
  { scopes := natives.foldl (fun s f => s.define 0 f.name (.native f)) (Scopes.empty.create none)
    current := 0
    clock
    logLevel
    logOpen := true
    log := #[]
    out := ""
    host
    calls := [] }

/-- Prints a text. -/
def print (m : Machine) (text : String) : Machine :=
  { m with out := m.out ++ text }

/-- The machine with nothing printed yet. -/
def flush (m : Machine) : Machine :=
  { m with out := "" }

/-- Logs an event if its level is low enough. -/
def note (m : Machine) (e : Event) : Machine :=
  if e.level ≤ m.logLevel then
    if m.logOpen then { m with log := m.log.push e } else m.print (e.text ++ "\n")
  else m

/-- Closes the log. -/
def closeLog (m : Machine) : Machine := { m with logOpen := false }

/-- The text of the log, if there is one. -/
def logText? (m : Machine) : Option String :=
  if m.logLevel == 0 then none
  else some ("".intercalate (m.log.toList.map fun e => e.text ++ "\n"))

/-- Calls a function of the host. -/
def ask (m : Machine) (c : Host.Call) : Except Fault Value × Machine :=
  let answer := m.host.answer m.calls c
  (answer.outcome, { m.print answer.printed with calls := c :: m.calls })

/-- The bindings of the global scope. -/
def globals (m : Machine) : List (Name × Value) := m.scopes.bindings 0

/-- Enters a new scope within the current one. -/
def enter (m : Machine) : Machine :=
  let child := m.scopes.size
  let scopes := m.scopes.create (some m.current)
  let depth := scopes.depth child
  { m.note (.entered depth) with scopes, current := child }

/-- Leaves the current scope, which is given up, for the scope `outer`. -/
def leave (m : Machine) (outer : Nat) : Machine :=
  let depth := m.scopes.depth m.current
  { m.note (.left depth) with scopes := m.scopes.dropLast, current := outer }

end Machine

end NovaLang
