import NovaLang.Node

namespace NovaLang.Node

/-! # Trees as text

Every compound node is written in parentheses, its operator or name first, as in
`(* (- 123) (group 45.67))`. A text literal stands between double quotes as it
is, any other literal as a program would print it. An operator or a name that is
no text cannot be written, except for a name that something is assigned to.
-/

/-- A name and the texts of some parts in parentheses. -/
def parenthesize (name : String) (parts : List String) : String :=
  "(" ++ name ++ "".intercalate (parts.map (" " ++ ·)) ++ ")"

/-- The text of a literal. -/
def literalText : Value → String
  | .text s => "\"" ++ s ++ "\""
  | v => v.display

/-- The lexeme of a token, to be written as it is. -/
def lexemeText (t : Token) : Except Fault String :=
  match t.lexeme with
  | .str s => .ok s
  | _ => .error .notText

mutual

/-- The text of a node. What is no statement is taken for an expression. -/
def text : Node → Except Fault String
  | .absent => .error (.unexpectedNode .printExpression .absent)
  | .list _ => .error (.unexpectedNode .printExpression .list)
  | .literal v => .ok (literalText v)
  | .grouping e => do return parenthesize "group" [← text e]
  | .unary o e => do return parenthesize (← lexemeText o) [← text e]
  | .binary a o b => do return parenthesize (← lexemeText o) [← text a, ← text b]
  | .logical a o b => do return parenthesize (← lexemeText o) [← text a, ← text b]
  | .reference n => lexemeText n
  | .assign n e => do return parenthesize ("= " ++ n.text) [← text e]
  | .call f _ as => do return parenthesize "call" ((← text f) :: (← texts as))
  | .expression e => do return parenthesize ";" [← text e]
  | .print e => do return parenthesize "print" [← text e]
  | .var n .absent => .ok (parenthesize ("var " ++ n.text) [])
  | .var n e => do return parenthesize ("var " ++ n.text) [← text e]
  | .block ss => do return parenthesize "block" (← texts ss)
  | .branch c t .absent => do return parenthesize "if" [← text c, ← text t]
  | .branch c t e => do return parenthesize "if" [← text c, ← text t, ← text e]
  | .loop c b => do return parenthesize "while" [← text c, ← text b]

/-- The texts of some nodes. -/
def texts : List Node → Except Fault (List String)
  | [] => .ok []
  | n :: ns => do return (← text n) :: (← texts ns)

end

/-- The text of a statement; nothing else may stand at the top of a program. -/
def statementText (n : Node) : Except Fault String :=
  if n.form.isStatement then n.text else .error (.unexpectedNode .printStatement n.form)

/-- The text of a program, a line for each statement. -/
def programText (program : List Node) : Except Fault String := do
  return "\n".intercalate (← program.mapM statementText)

end NovaLang.Node
