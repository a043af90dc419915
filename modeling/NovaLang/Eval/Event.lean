import NovaLang.Node
import NovaLang.Report

namespace NovaLang

/-! # Log events

What a run may log. Each event has a level; a log of a level holds the events
of that level and of those below it.
-/

/-- Something a run may log. -/
inductive Event where
  /-- A statement of the program is about to be run. -/
  | statement (form : Node.Form)
  /-- The run has stopped. -/
  | stopped (error : RuntimeError)
  | entered (depth : Nat)
  | left (depth : Nat)
  | defined (name : String) (value : Value)
  | assigned (name : String) (value : Value)
  /-- The condition of a branch has been evaluated. -/
  | decided (condition : Value)
  /-- The condition of a loop has been evaluated. -/
  | tested (condition : Value)
  | called (function : Native) (arguments : Nat)
  deriving DecidableEq, Repr

namespace Event

/-- The least log level an event shows at. -/
def level : Event → Nat
  | .statement _ | .stopped _ => 1
  | .entered _ | .left _ | .defined _ _ | .assigned _ _ => 2
  | .decided _ | .tested _ | .called _ _ => 3

/-- The line of an event in the log. -/
def text : Event → String
  | .statement form => "execute " ++ form.name
  | .stopped e => "runtime error at line " ++ e.token.lineText ++ ": " ++ e.cause.message
  | .entered depth => "enter scope depth " ++ toString depth
  | .left depth => "leave scope depth " ++ toString depth
  | .defined name value => "define " ++ name ++ ": " ++ value.typeName ++ " = " ++ value.display
  | .assigned name value => "assign " ++ name ++ " = " ++ value.display
  | .decided condition =>
    "if condition " ++ condition.display ++ " -> " ++
      (if condition.isTruthy then "True" else "False")
  | .tested condition => "while condition " ++ condition.display
  | .called function arguments =>
    "call " ++ function.text ++ " with " ++ toString arguments ++ " arguments"

end Event

end NovaLang
