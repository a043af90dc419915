import NovaLang.Report

namespace NovaLang.Descent

/-! # Reading a token list

A cursor stands between the tokens passed and those still to come. A reader
moves the cursor and yields a result, or stops: at a syntax error, which has
been reported, or because it looked beyond the token list. A token list that
ends in an end token is never left.
-/

/-- A place in a token list, and the report on what was read so far. -/
structure Cursor where
  /-- The tokens passed, the last one first. -/
  before : List Token
  /-- The tokens still to come. -/
  rest : List Token
  report : Report
  deriving DecidableEq, Repr

/-- The number of tokens passed. -/
def Cursor.position (c : Cursor) : Nat := c.before.length

/-- A look beyond the token list. -/
inductive PositionFault where
  | pastEnd (position size : Nat)
  | beforeStart (position : Nat)
  deriving DecidableEq, Repr

/-- The wording of a look beyond the token list. -/
def PositionFault.message : PositionFault → String
  | .pastEnd position size =>
    "parser position " ++ toString position ++ " past end of " ++ toString size ++ " tokens"
  | .beforeStart position => "no token before parser position " ++ toString position

/-- Why a reader stops. -/
inductive Stop where
  /-- A syntax error, already reported. -/
  | syntaxError (complaint : Complaint)
  | fault (fault : PositionFault)
  deriving DecidableEq, Repr

/-- A reader of tokens. -/
abbrev Reader := ExceptT Stop (StateM Cursor)

/-- The number of tokens still to come. -/
def remaining : Reader Nat := do return (← get).rest.length

/-- The next token. -/
def peek : Reader Token := do
  let c ← get
  match c.rest with
  | t :: _ => return t
  | [] => throw (.fault (.pastEnd c.position c.position))

/-- The last token passed. -/
def previous : Reader Token := do
  let c ← get
  match c.before with
  | t :: _ => return t
  | [] => throw (.fault (.beforeStart c.position))

/-- The next token is an end token. -/
def isAtEnd : Reader Bool := do return (← peek).kind == .eof

/-- Moves the cursor past one token. -/
def step : Reader Unit := modify fun c =>
  match c.rest with
  | t :: rest => { c with before := t :: c.before, rest }
  | [] => c

/-- Passes the next token unless it is an end token; yields the last token passed. -/
def advance : Reader Token := do
  if !(← isAtEnd) then step
  previous

/-- The next token is of a kind; an end token is of none. -/
def check (kind : Kind) : Reader Bool := do
  let t ← peek
  return t.kind != .eof && t.kind == kind

/-- Passes the next token if it is of one of the kinds; an end token is of none. -/
def accept (kinds : List Kind) : Reader Bool := do
  if kinds.isEmpty then return false
  let t ← peek
  if t.kind != .eof && kinds.contains t.kind then
    step
    return true
  return false

/-- Reports a complaint at a token and goes on. -/
def complain (t : Token) (complaint : Complaint) : Reader Unit :=
  modify fun c => { c with report := c.report.atToken t complaint }

/-- Reports a complaint at the next token and stops. -/
def fail {α : Type} (complaint : Complaint) : Reader α := do
  complain (← peek) complaint
  throw (.syntaxError complaint)

/-- Passes the next token, which has to be of a kind. -/
def consume (kind : Kind) (complaint : Complaint) : Reader Token := do
  if ← check kind then
    let t ← peek
    step
    return t
  fail complaint

/-- The kinds of tokens that begin a statement. -/
def startsStatement : Kind → Bool
  | .kwClass | .kwFun | .kwVar | .kwFor | .kwIf | .kwWhile | .kwPrint | .kwReturn => true
  | _ => false

/-- Passes tokens until the last one passed is a semicolon or the next one
begins a statement or ends the list. -/
def skipToStatement : (count : Nat) → Reader Unit
  | 0 => discard peek
  | count + 1 => do
    if ← isAtEnd then return
    if (← previous).kind == .semicolon then return
    if startsStatement (← peek).kind then return
    discard advance
    skipToStatement count

/-- After a syntax error, passes at least one token and goes on to where a
statement may begin. -/
def synchronize : Reader Unit := do
  discard advance
  skipToStatement (← remaining)

/-- What a reader yields, or nothing after a syntax error, when the cursor has
been moved to where a statement may begin. -/
def recovering {α : Type} (r : Reader α) : Reader (Option α) := do
  try
    some <$> r
  catch
    | .syntaxError _ => do
      synchronize
      pure none
    | .fault f => throw (.fault f)

end NovaLang.Descent
