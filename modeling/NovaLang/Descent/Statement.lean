import NovaLang.Descent.Expression
import NovaLang.Token.Scan

namespace NovaLang.Descent

/-! # Reading statements and programs

A statement that is broken is reported once and left out; reading goes on where
the next statement may begin. A `for` loop becomes a block with its initializer
and a `while` loop that runs the increment after the body.
-/

/-- `for (initializer; condition; increment) body` as a block: the initializer if
any, and a loop whose body runs the increment last. A missing condition is true. -/
def forLoop (initializer condition increment body : Node) : Node :=
  let rounds := match increment with
    | .absent => [body]
    | e => [body, .expression e]
  let test := match condition with
    | .absent => .literal (.bool true)
    | e => e
  let loop := .loop test (.block rounds)
  match initializer with
  | .absent => .block [loop]
  | s => .block [s, loop]

/-- What follows a token of a kind; nothing where another token stands. -/
def ifAfter (kind : Kind) (r : Reader Node) : Reader Node := do
  if ← accept [kind] then r else return .absent

/-- What stands in front of a token of a kind; nothing where that token stands. -/
def unlessAt (kind : Kind) (r : Reader Node) : Reader Node := do
  if ← check kind then return .absent else r

/-- What follows `var`: a name, a value if there is an equals sign, and a semicolon. -/
def varDeclaration (expression : Reader Node) : Reader Node := do
  let name ← consume .identifier (.expected .variableName)
  let initializer ← ifAfter .equal expression
  discard (consume .semicolon (.expected .semicolonAfterVariable))
  return .var name initializer

/-- An expression and a semicolon. -/
def expressionStatement (expression : Reader Node) : Reader Node := do
  let e ← expression
  discard (consume .semicolon (.expected .semicolonAfterExpression))
  return .expression e

/-- What follows `print`. -/
def printStatement (expression : Reader Node) : Reader Node := do
  let e ← expression
  discard (consume .semicolon (.expected .semicolonAfterValue))
  return .print e

/-- What follows `while`. -/
def whileStatement (expression statement : Reader Node) : Reader Node := do
  discard (consume .leftParen (.expected .parenAfterWhile))
  let condition ← expression
  discard (consume .rightParen (.expected .parenAfterCondition))
  let body ← statement
  return .loop condition body

/-- What follows `if`. An `else` belongs to the nearest `if` before it. -/
def ifStatement (expression statement : Reader Node) : Reader Node := do
  discard (consume .leftParen (.expected .parenAfterIf))
  let condition ← expression
  discard (consume .rightParen (.expected .parenAfterIfCondition))
  let thenBranch ← statement
  let elseBranch ← ifAfter .kwElse statement
  return .branch condition thenBranch elseBranch

/-- The first clause of a `for` loop. -/
def forInitializer (expression : Reader Node) : Reader Node := do
  if ← accept [.semicolon] then return .absent
  else if ← accept [.kwVar] then varDeclaration expression
  else expressionStatement expression

/-- What follows `for`. -/
def forStatement (expression statement : Reader Node) : Reader Node := do
  discard (consume .leftParen (.expected .parenAfterFor))
  let initializer ← forInitializer expression
  let condition ← unlessAt .semicolon expression
  discard (consume .semicolon (.expected .semicolonAfterLoopCondition))
  let increment ← unlessAt .rightParen expression
  discard (consume .rightParen (.expected .parenAfterForClauses))
  let body ← statement
  return forLoop initializer condition increment body

/-- A declaration or a statement; nothing when it was broken. -/
def declarationWith (expression statement : Reader Node) : Reader (Option Node) :=
  recovering do
    if ← accept [.kwVar] then varDeclaration expression else statement

/-- The declarations up to a closing brace or the end of the list. -/
def declarationsToBrace (declaration : Reader (Option Node)) : (count : Nat) → Reader (List Node)
  | 0 => do
    discard peek
    return []
  | count + 1 => do
    if ← check .rightBrace then return []
    if ← isAtEnd then return []
    let first ← declaration
    let more ← declarationsToBrace declaration count
    return first.toList ++ more

/-- What follows an opening brace, the closing brace included. -/
def blockWith (declaration : Reader (Option Node)) (bound : Nat) : Reader (List Node) := do
  let statements ← declarationsToBrace declaration bound
  discard (consume .rightBrace (.expected .braceAfterBlock))
  return statements

/-- A statement of at most `bound` tokens. -/
def statementWithin : (bound : Nat) → Reader Node
  | 0 => fail (.expected .expression)
  | bound + 1 => do
    let expression := expressionWithin (bound + 1)
    let statement := statementWithin bound
    if ← accept [.kwFor] then forStatement expression statement
    else if ← accept [.kwIf] then ifStatement expression statement
    else if ← accept [.kwPrint] then printStatement expression
    else if ← accept [.kwWhile] then whileStatement expression statement
    else if ← accept [.leftBrace] then
      return .block (← blockWith (declarationWith expression statement) bound)
    else expressionStatement expression

/-- A statement. -/
def statement : Reader Node := do statementWithin (← remaining)

/-- A declaration or a statement of at most `bound` tokens. -/
def declarationWithin (bound : Nat) : Reader (Option Node) :=
  declarationWith (expressionWithin bound) (statementWithin bound)

/-- A declaration or a statement; nothing when it was broken. -/
def declaration : Reader (Option Node) := do declarationWithin (← remaining)

/-- What follows an opening brace, the closing brace included. -/
def block : Reader (List Node) := do blockWith declaration (← remaining)

/-- The declarations up to the end of the list. -/
def declarationsToEnd (declaration : Reader (Option Node)) : (count : Nat) → Reader (List Node)
  | 0 => do
    discard peek
    return []
  | count + 1 => do
    if ← isAtEnd then return []
    let first ← declaration
    let more ← declarationsToEnd declaration count
    return first.toList ++ more

/-- A whole program: every declaration that is not broken. -/
def program : Reader (List Node) := do
  let bound ← remaining
  declarationsToEnd (declarationWithin bound) bound

/-- A single expression, or nothing when it is broken. -/
def soleExpression : Reader (Option Node) := do
  try
    some <$> expression
  catch
    | .syntaxError _ => pure none
    | .fault f => throw (.fault f)

/-- The program of a token list, and the report with the syntax errors added. A
token list that ends in an end token always yields a program. -/
def read (tokens : List Token) (report : Report) : List Node × Report :=
  match program.run ⟨[], tokens, report⟩ with
  | (.ok program, c) => (program, c.report)
  | (.error _, c) => ([], c.report)

end NovaLang.Descent
