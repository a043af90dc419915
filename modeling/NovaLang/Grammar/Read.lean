import NovaLang.Descent.Statement
import NovaLang.Grammar.Tree

namespace NovaLang.Grammar

/-! # From derivation trees to syntax trees

Each production contributes one step of building the syntax tree. The one rule
that the grammar does not state, the limit on the number of arguments, is checked
here, inner calls first.
-/

/-- What a part of a derivation tree stands for. -/
inductive Meaning where
  | lexeme (l : Lexeme)
  | node (n : Node)
  | nodes (ns : List Node)
  /-- Operators, each with its right operand. -/
  | operations (os : List (Token × Node))
  deriving Repr, Inhabited

/-- The token of a lexeme; names and operators have no literal. -/
def Lexeme.token (l : Lexeme) : Token := .scanned l.kind l.string .nil l.line

/-- The value a literal stands for. -/
def Lexeme.value (l : Lexeme) : Value :=
  match l.kind with
  | .number => .number ((Decimal.readPlain? l.text).getD 0.0)
  | .string => .text (String.ofList (l.text.drop 1).dropLast)
  | .kwTrue => .bool true
  | .kwFalse => .bool false
  | _ => .nil

/-- Operations on a first operand, from left to right. -/
def foldOperations (build : Node → Token → Node → Node) (first : Node)
    (os : List (Token × Node)) : Node :=
  os.foldl (fun left (o, right) => build left o right) first

/-- The declarations, statements and programs that productions build. -/
def buildStatement (lhs : Nonterminal) (children : List Meaning) : Meaning :=
  match lhs, children with
  | .program, [.nodes ns] => .nodes ns
  | .declarationList, [.node n] => .nodes [n]
  | .declarationList, [.nodes ns, .node n] => .nodes (ns ++ [n])
  | .declaration, [.node n] => .node n
  | .statement, [.node n] => .node n
  | .varDecl, [_, .lexeme name, _, .node e, _] => .node (.var name.token e)
  | .varDecl, [_, .lexeme name, _] => .node (.var name.token .absent)
  | .exprStmt, [.node e, _] => .node (.expression e)
  | .printStmt, [_, .node e, _] => .node (.print e)
  | .whileStmt, [_, _, .node c, _, .node b] => .node (.loop c b)
  | .ifStmt, [_, _, .node c, _, .node t] => .node (.branch c t .absent)
  | .ifStmt, [_, _, .node c, _, .node t, _, .node e] => .node (.branch c t e)
  | .block, [_, .nodes ns, _] => .node (.block ns)
  | .block, [_, _] => .node (.block [])
  | .forInit, [.node s] => .node s
  | .forInit, [_] => .node .absent
  | .forStmt, [_, _, .node i, .node c, _, .node n, _, .node b] =>
    .node (Descent.forLoop i c n b)
  | .forStmt, [_, _, .node i, .node c, _, _, .node b] => .node (Descent.forLoop i c .absent b)
  | .forStmt, [_, _, .node i, _, .node n, _, .node b] => .node (Descent.forLoop i .absent n b)
  | .forStmt, [_, _, .node i, _, _, .node b] => .node (Descent.forLoop i .absent .absent b)
  | _, _ => .nodes []

/-- The expressions that productions build. -/
def buildExpression (lhs : Nonterminal) (children : List Meaning) : Meaning :=
  match lhs, children with
  | .assignment, [.lexeme name, _, .node e] => .node (.assign name.token e)
  | .disjunction, [.node a, .operations os] => .node (foldOperations .logical a os)
  | .conjunction, [.node a, .operations os] => .node (foldOperations .logical a os)
  | .equality, [.node a, .operations os] => .node (foldOperations .binary a os)
  | .comparison, [.node a, .operations os] => .node (foldOperations .binary a os)
  | .term, [.node a, .operations os] => .node (foldOperations .binary a os)
  | .factor, [.node a, .operations os] => .node (foldOperations .binary a os)
  | .unary, [.lexeme o, .node e] => .node (.unary o.token e)
  | .call, [.node f, _, .nodes as, .lexeme paren] => .node (.call f paren.token as)
  | .call, [.node f, _, .lexeme paren] => .node (.call f paren.token [])
  | .arguments, [.node a] => .nodes [a]
  | .arguments, [.node a, .nodes as] => .nodes (a :: as)
  | .argumentTail, [_, .node a] => .nodes [a]
  | .argumentTail, [.nodes as, _, .node a] => .nodes (as ++ [a])
  | .primary, [.lexeme l] =>
    .node (if l.kind = .identifier then .reference l.token else .literal l.value)
  | .primary, [_, .node e, _] => .node (.grouping e)
  | _, [.node n] => .node n
  | _, [.lexeme o, .node e] => .operations [(o.token, e)]
  | _, [.operations os, .lexeme o, .node e] => .operations (os ++ [(o.token, e)])
  | _, _ => .nodes []

/-- The nonterminal belongs to the statements. -/
def Nonterminal.isStatement (n : Nonterminal) : Bool :=
  statementRules.any (·.lhs == n)

/-- What a production builds from what its parts stand for. -/
def build (lhs : Nonterminal) (children : List Meaning) : Meaning :=
  if lhs.isStatement then buildStatement lhs children else buildExpression lhs children

/-- The number of nodes in a list of arguments; zero for all else. -/
def argumentCount (lhs : Nonterminal) (m : Meaning) : Nat :=
  match lhs, m with
  | .arguments, .nodes as => as.length
  | _, _ => 0

mutual

/-- What a derivation tree stands for. A list of too many arguments is an error
on the line its first argument begins on. -/
def Tree.meaning : Tree → Except LineError Meaning
  | .leaf l => .ok (.lexeme l)
  | .branch p children => do
    let lhs := (productionAt p).lhs
    let m := build lhs (← meanings children)
    if maxArguments < argumentCount lhs m then
      .error ⟨(Tree.firstLineOf? children).getD 1, .tooManyArguments⟩
    else
      .ok m

/-- What some derivation trees stand for. -/
def Tree.meanings : List Tree → Except LineError (List Meaning)
  | [] => .ok []
  | t :: ts => do return (← t.meaning) :: (← Tree.meanings ts)

end

/-- The program of a source text, or its first error. -/
def read (source : String) : Except LineError (List Node) := do
  match ← (← Tree.ofSource source).meaning with
  | .nodes program => return program
  | _ => return []

end NovaLang.Grammar
