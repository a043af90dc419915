import NovaLang.Eval.Machine
import NovaLang.Eval.Operator

namespace NovaLang.Eval

/-! # Running trees

Expressions are evaluated and statements executed by recursion on the tree. The
only repetition without a bound of its own is a loop; its rounds are bounded by
a number given from outside, and a run that needs more is interrupted as
endless. A larger bound changes nothing in a run that ends.
-/

/-- A step of a run: it changes the machine, also when it is interrupted. -/
abbrev Exec := ExceptT Interrupt (StateM Machine)

/-- Logs an event. -/
def note (e : Event) : Exec Unit := modify (·.note e)

/-- Prints a text. -/
def emit (text : String) : Exec Unit := modify (·.print text)

/-- The outcome of a computation that does not touch the machine. -/
def liftOutcome {α : Type} (outcome : Except Interrupt α) : Exec α := ExceptT.mk (pure outcome)

/-- The value of the name a token holds. -/
def lookup (name : Token) : Exec Value := do
  let m ← get
  liftOutcome (m.scopes.lookup m.current name)

/-- Assigns to the name a token holds. -/
def assign (name : Token) (value : Value) : Exec Unit := do
  let m ← get
  let scopes ← liftOutcome (m.scopes.assign m.current name value)
  set { m with scopes }

/-- Binds the name a token holds in the current scope. -/
def declare (name : Token) (value : Value) : Exec Unit := do
  let m ← get
  let scopes ← liftOutcome (m.scopes.declare m.current name value)
  set { m with scopes }

/-- Asks the host; a failure of the host is no error of the program. -/
def ask (c : Host.Call) : Exec Value := fun m =>
  let (outcome, m) := m.ask c
  (outcome.mapError .fault, m)

/-- The result of a native function; `nil` when the number of arguments is wrong. -/
def applyNative (f : Native) (arguments : List Value) : Exec Value := do
  match f, arguments with
  | .clock, [] => return .number (← get).clock
  | .identity, [v] => return v
  | .typeName, [v] => return .text v.typeName
  | .display, [v] => return .text v.display
  | .emit, [v] => do
    emit (v.display ++ "\n")
    return v
  | .second, [_, v] => return v
  | .third, [_, _, v] => return v
  | .host _ _ _, _ => ask ⟨f, arguments⟩
  | _, _ => return .nil

/-- Calls a value; errors are located at the closing parenthesis. -/
def call (callee : Value) (arguments : List Value) (paren : Token) : Exec Value := do
  match callee with
  | .native f =>
    if arguments.length ≠ f.arity then
      throw (.runtime ⟨paren, .wrongArity f.arity arguments.length⟩)
    note (.called f arguments.length)
    applyNative f arguments
  | _ => throw (.runtime ⟨paren, .notCallable⟩)

mutual

/-- The value of an expression. -/
def evaluate : Node → Exec Value
  | .literal v => return v
  | .grouping e => evaluate e
  | .reference name => lookup name
  | .assign name e => do
    let value ← evaluate e
    assign name value
    note (.assigned name.text value)
    return value
  | .unary operator e => do
    let value ← evaluate e
    liftOutcome (unary operator value)
  | .logical a operator b => do
    let left ← evaluate a
    if left.isTruthy == (operator.kind == .kwOr) then return left
    evaluate b
  | .binary a operator b => do
    let left ← evaluate a
    let right ← evaluate b
    liftOutcome (binary operator left right)
  | .call f paren as => do
    let callee ← evaluate f
    let arguments ← evaluateAll as
    call callee arguments paren
  | .absent => throw (.fault (.unexpectedNode .evaluate .absent))
  | .list _ => throw (.fault (.unexpectedNode .evaluate .list))
  | .expression _ => throw (.fault (.unexpectedNode .evaluate .expression))
  | .print _ => throw (.fault (.unexpectedNode .evaluate .print))
  | .var _ _ => throw (.fault (.unexpectedNode .evaluate .var))
  | .block _ => throw (.fault (.unexpectedNode .evaluate .block))
  | .branch _ _ _ => throw (.fault (.unexpectedNode .evaluate .branch))
  | .loop _ _ => throw (.fault (.unexpectedNode .evaluate .loop))

/-- The values of some expressions, from left to right. -/
def evaluateAll : List Node → Exec (List Value)
  | [] => return []
  | e :: es => do
    let value ← evaluate e
    let values ← evaluateAll es
    return value :: values

end

/-- Runs a step in a new scope within the current one, which is the current one
again afterwards, however the step ends. -/
def inScope (body : Exec Unit) : Exec Unit := fun m =>
  let outer := m.current
  let (outcome, m) := body m.enter
  (outcome, m.leave outer)

/-- Repeats a body while a condition holds, at most `rounds` times. -/
def repeatWhile (condition : Exec Value) (body : Exec Unit) : (rounds : Nat) → Exec Unit
  | 0 => throw .endless
  | rounds + 1 => do
    let value ← condition
    note (.tested value)
    if value.isTruthy then
      body
      repeatWhile condition body rounds

mutual

/-- Executes a statement whose loops may each have the given number of rounds. -/
def execute (rounds : Nat) : Node → Exec Unit
  | .expression e => do discard (evaluate e)
  | .print e => do
    let value ← evaluate e
    emit (value.display ++ "\n")
  | .var name .absent => do
    declare name .nil
    note (.defined name.text .nil)
  | .var name e => do
    let value ← evaluate e
    declare name value
    note (.defined name.text value)
  | .block statements => inScope (executeAll rounds statements)
  | .branch c t e => do
    let value ← evaluate c
    note (.decided value)
    if value.isTruthy then execute rounds t
    else match e with
      | .absent => return
      | e => execute rounds e
  | .loop c body => repeatWhile (evaluate c) (execute rounds body) rounds
  | n => throw (.fault (.unexpectedNode .execute n.form))

/-- Executes some statements in order. -/
def executeAll (rounds : Nat) : List Node → Exec Unit
  | [] => return
  | s :: ss => do
    execute rounds s
    executeAll rounds ss

end

/-- Runs the statements of a program in order, each after it has been logged. -/
def runProgram (rounds : Nat) : List Node → Exec Unit
  | [] => return
  | s :: ss => do
    note (.statement s.form)
    execute rounds s
    runProgram rounds ss

end NovaLang.Eval
