import NovaLang.Descent.Cursor
import NovaLang.Node

namespace NovaLang.Descent

/-! # Reading expressions

One reader for each level of precedence, from assignment down to primary
expressions. A reader of a level gets the reader of whole expressions for what
stands in parentheses, and a bound on the tokens still to come, which bounds
every repetition. Where the bound is used up nothing is left to read, so that
looking for a token is a fault.
-/

/-- Operators of one level and their right operands, folded to the left. -/
def foldOperators (kinds : List Kind) (build : Node → Token → Node → Node)
    (operand : Reader Node) : (count : Nat) → Node → Reader Node
  | 0, left => do
    discard peek
    return left
  | count + 1, left => do
    if ← accept kinds then
      let operator ← previous
      let right ← operand
      foldOperators kinds build operand count (build left operator right)
    else
      return left

/-- Operands joined by left-associative operators of one level. -/
def leftAssociative (kinds : List Kind) (build : Node → Token → Node → Node)
    (operand : Reader Node) (bound : Nat) : Reader Node := do
  let first ← operand
  foldOperators kinds build operand bound first

/-- A literal, a name, or an expression in parentheses. -/
def primary (inner : Reader Node) : Reader Node := do
  if ← accept [.kwFalse] then return .literal (.bool false)
  else if ← accept [.kwTrue] then return .literal (.bool true)
  else if ← accept [.kwNil] then return .literal .nil
  else if ← accept [.number, .string] then
    let t ← previous
    return .literal t.literal
  else if ← accept [.identifier] then
    let t ← previous
    return .reference t
  else if ← accept [.leftParen] then
    let e ← inner
    discard (consume .rightParen (.expected .parenAfterExpression))
    return .grouping e
  else fail (.expected .expression)

/-- Complains at the next token when as many arguments as may be have been read. -/
def limitArguments (seen : Nat) : Reader Unit := do
  if maxArguments ≤ seen then complain (← peek) .tooManyArguments

/-- The arguments of a call, of which there is at least one; `seen` have been read
before. Each argument beyond the limit is complained about, but read. -/
def arguments (inner : Reader Node) : (count seen : Nat) → Reader (List Node)
  | 0, _ => do
    discard peek
    return []
  | count + 1, seen => do
    limitArguments seen
    let a ← inner
    if ← accept [.comma] then
      return a :: (← arguments inner count (seen + 1))
    else
      return [a]

/-- The arguments of a call, of which there may be none. -/
def argumentsIfAny (inner : Reader Node) (bound : Nat) : Reader (List Node) := do
  if ← check .rightParen then return [] else arguments inner bound 0

/-- The arguments and the closing parenthesis of a call. -/
def finishCall (inner : Reader Node) (bound : Nat) (callee : Node) : Reader Node := do
  let as ← argumentsIfAny inner bound
  let paren ← consume .rightParen (.expected .parenAfterArguments)
  return .call callee paren as

/-- Calls of what has been read, each calling the result of the one before. -/
def foldCalls (inner : Reader Node) : (count : Nat) → Node → Reader Node
  | 0, callee => do
    discard peek
    return callee
  | count + 1, callee => do
    if ← accept [.leftParen] then
      let result ← finishCall inner count callee
      foldCalls inner count result
    else
      return callee

/-- A primary expression with any number of calls after it. -/
def call (inner : Reader Node) (bound : Nat) : Reader Node := do
  let callee ← primary inner
  foldCalls inner bound callee

/-- Any number of prefix operators in front of a call. -/
def unary (inner : Reader Node) : (bound : Nat) → Reader Node
  | 0 => call inner 0
  | bound + 1 => do
    if ← accept [.bang, .minus] then
      let operator ← previous
      let operand ← unary inner bound
      return .unary operator operand
    else
      call inner (bound + 1)

/-- Factors joined by `/` and `*`. -/
def factor (inner : Reader Node) (bound : Nat) : Reader Node :=
  leftAssociative [.slash, .star] .binary (unary inner bound) bound

/-- Terms joined by `-` and `+`. -/
def term (inner : Reader Node) (bound : Nat) : Reader Node :=
  leftAssociative [.minus, .plus] .binary (factor inner bound) bound

/-- Operands joined by the four order operators. -/
def comparison (inner : Reader Node) (bound : Nat) : Reader Node :=
  leftAssociative [.greater, .greaterEqual, .less, .lessEqual] .binary (term inner bound) bound

/-- Operands joined by `!=` and `==`. -/
def equality (inner : Reader Node) (bound : Nat) : Reader Node :=
  leftAssociative [.bangEqual, .equalEqual] .binary (comparison inner bound) bound

/-- Operands joined by `and`. -/
def conjunction (inner : Reader Node) (bound : Nat) : Reader Node :=
  leftAssociative [.kwAnd] .logical (equality inner bound) bound

/-- Operands joined by `or`. -/
def disjunction (inner : Reader Node) (bound : Nat) : Reader Node :=
  leftAssociative [.kwOr] .logical (conjunction inner bound) bound

/-- A disjunction, or a name, an equals sign and an expression. Any other target
is complained about at the equals sign, and only the target is kept. -/
def assignment (inner : Reader Node) (bound : Nat) : Reader Node := do
  let target ← disjunction inner bound
  if ← accept [.equal] then
    let equals ← previous
    let value ← inner
    match target with
    | .reference name => return .assign name value
    | _ =>
      complain equals .invalidTarget
      return target
  else
    return target

/-- An expression of at most `bound` tokens. -/
def expressionWithin : (bound : Nat) → Reader Node
  | 0 => fail (.expected .expression)
  | bound + 1 => assignment (expressionWithin bound) (bound + 1)

/-- An expression. -/
def expression : Reader Node := do expressionWithin (← remaining)

/-- An expression of one level of precedence. -/
def expressionOf (level : Reader Node → Nat → Reader Node) : Reader Node := do
  let bound ← remaining
  level (expressionWithin (bound - 1)) bound

end NovaLang.Descent
