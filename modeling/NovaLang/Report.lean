import NovaLang.Token

namespace NovaLang

/-! # Diagnostics

What is wrong with a source text or a run, and the report that collects it.
Static errors and run-time errors are counted apart.
-/

/-- What the reader of a token list expects at a place. -/
inductive Expectation where
  | variableName | semicolonAfterVariable
  | parenAfterFor | semicolonAfterLoopCondition | parenAfterForClauses
  | parenAfterIf | parenAfterIfCondition
  | semicolonAfterValue
  | parenAfterWhile | parenAfterCondition
  | braceAfterBlock | semicolonAfterExpression
  | parenAfterArguments | parenAfterExpression
  | expression
  deriving DecidableEq, Repr

/-- The wording of an expectation. -/
def Expectation.message : Expectation → String
  | .variableName => "Expect variable name."
  | .semicolonAfterVariable => "Expect ';' after variable declaration."
  | .parenAfterFor => "Expect '(' after 'for'."
  | .semicolonAfterLoopCondition => "Expect ';' after loop condition."
  | .parenAfterForClauses => "Expect ')' after for clauses."
  | .parenAfterIf => "Expect '(' after 'if'."
  | .parenAfterIfCondition => "Expect ')' after if condition."
  | .semicolonAfterValue => "Expect ';' after value."
  | .parenAfterWhile => "Expect '(' after 'while'."
  | .parenAfterCondition => "Expect ')' after condition."
  | .braceAfterBlock => "Expect '\x7d' after block."
  | .semicolonAfterExpression => "Expect ';' after expression."
  | .parenAfterArguments => "Expect ')' after arguments."
  | .parenAfterExpression => "Expect ')' after expression."
  | .expression => "Expect expression."

/-- The most arguments a call may have. -/
def maxArguments : Nat := 255

/-- What is wrong with a source text. -/
inductive Complaint where
  | unexpectedCharacter
  | unterminatedString
  | expected (what : Expectation)
  | invalidTarget
  | tooManyArguments
  | unexpected (lexeme : String)
  | unexpectedEnd
  /-- A complaint worded by the caller. -/
  | worded (message : String)
  deriving DecidableEq, Repr

/-- The wording of a complaint. -/
def Complaint.message : Complaint → String
  | .unexpectedCharacter => "Unexpected character."
  | .unterminatedString => "Unterminated string."
  | .expected what => what.message
  | .invalidTarget => "Invalid assignment target."
  | .tooManyArguments => "Can't have more than " ++ toString maxArguments ++ " arguments."
  | .unexpected lexeme => "Unexpected '" ++ lexeme ++ "'."
  | .unexpectedEnd => "Unexpected end of input."
  | .worded message => message

/-- Where a static error lies. -/
inductive Place where
  | line (n : Int)
  | token (t : Token)
  /-- A line and a place in it worded by the caller. -/
  | worded (n : Json) (place : String)
  deriving DecidableEq, Repr

/-- The line of a place as it is named in messages. -/
def Place.lineText : Place → String
  | .line n => toString n
  | .token t => t.lineText
  | .worded n _ => n.plain

/-- The wording of a place within its line: a token is named by its characters,
the end of the input as such. -/
def Place.wording : Place → String
  | .line _ => ""
  | .token t => if t.kind == .eof then " at end" else " at '" ++ t.text ++ "'"
  | .worded _ place => place

/-- A static error. -/
structure Diagnostic where
  place : Place
  complaint : Complaint
  deriving DecidableEq, Repr

/-- The line a static error is reported with. -/
def Diagnostic.text (d : Diagnostic) : String :=
  "[line " ++ d.place.lineText ++ "] Error" ++ d.place.wording ++ ": " ++
    d.complaint.message

/-- Why a run stops. -/
inductive RuntimeCause where
  | undefinedVariable (name : String)
  | notCallable
  | wrongArity (expected found : Nat)
  | operandNotNumber
  | operandsNotAddable
  | operandsNotNumbers
  /-- A cause worded by the caller. -/
  | worded (message : String)
  deriving DecidableEq, Repr

/-- The wording of a cause. -/
def RuntimeCause.message : RuntimeCause → String
  | .undefinedVariable name => "Undefined variable '" ++ name ++ "'."
  | .notCallable => "Can only call functions and classes."
  | .wrongArity expected found =>
    "Expected " ++ toString expected ++ " arguments but got " ++ toString found ++ "."
  | .operandNotNumber => "Operand must be a number."
  | .operandsNotAddable => "Operands must be two numbers or two strings."
  | .operandsNotNumbers => "Operands must be numbers."
  | .worded message => message

/-- A run-time error, located at a token. -/
structure RuntimeError where
  token : Token
  cause : RuntimeCause
  deriving DecidableEq, Repr

/-- The two lines a run-time error is reported with. -/
def RuntimeError.text (e : RuntimeError) : String :=
  e.cause.message ++ "\n[line " ++ e.token.lineText ++ "]"

/-- One entry of a report. -/
inductive Entry where
  | static (d : Diagnostic)
  | runtime (e : RuntimeError)
  deriving DecidableEq, Repr

/-- The text of an entry, its line feed included. -/
def Entry.text : Entry → String
  | .static d => d.text ++ "\n"
  | .runtime e => e.text ++ "\n"

/-- The diagnostics of one or more runs, and what is remembered of them. -/
structure Report where
  entries : List Entry := []
  hadError : Bool := false
  hadRuntimeError : Bool := false
  errorCount : Nat := 0
  deriving DecidableEq, Repr, Inhabited

namespace Report

/-- A report with a static error added. -/
def addStatic (r : Report) (d : Diagnostic) : Report :=
  { r with entries := r.entries ++ [.static d], hadError := true, errorCount := r.errorCount + 1 }

/-- A report with a run-time error added. -/
def addRuntime (r : Report) (e : RuntimeError) : Report :=
  { r with entries := r.entries ++ [.runtime e], hadRuntimeError := true }

/-- A static error that is only known by its line. -/
def atLine (r : Report) (line : Int) (complaint : Complaint) : Report :=
  r.addStatic ⟨.line line, complaint⟩

/-- A static error at a token. -/
def atToken (r : Report) (token : Token) (complaint : Complaint) : Report :=
  r.addStatic ⟨.token token, complaint⟩

/-- Forgets that there were errors; what has been written stays written. -/
def reset (r : Report) : Report :=
  { r with hadError := false, hadRuntimeError := false, errorCount := 0 }

/-- Everything written so far. -/
def text (r : Report) : String :=
  "".intercalate (r.entries.map Entry.text)

/-- The report with nothing written yet and the same memory of errors. -/
def flush (r : Report) : Report :=
  { r with entries := [] }

/-- The static errors, in order. -/
def diagnostics (r : Report) : List Diagnostic :=
  r.entries.filterMap fun
    | .static d => some d
    | .runtime _ => none

@[simp] theorem entries_addStatic (r : Report) (d : Diagnostic) :
    (r.addStatic d).entries = r.entries ++ [.static d] := rfl

@[simp] theorem errorCount_addStatic (r : Report) (d : Diagnostic) :
    (r.addStatic d).errorCount = r.errorCount + 1 := rfl

end Report

end NovaLang
