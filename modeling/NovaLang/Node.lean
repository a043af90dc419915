import NovaLang.Token

namespace NovaLang

/-! # Syntax trees

Statements and expressions share one type, since a tree read from a file may
hold any node at any place, nothing where a node is expected, or a list there.
-/

/-- A node of a syntax tree. -/
inductive Node where
  /-- Nothing stands at this place. -/
  | absent
  /-- A list where one node belongs. -/
  | list (items : List Node)
  | literal (value : Value)
  | grouping (inner : Node)
  | unary (operator : Token) (operand : Node)
  | binary (left : Node) (operator : Token) (right : Node)
  | logical (left : Node) (operator : Token) (right : Node)
  | reference (name : Token)
  | assign (name : Token) (value : Node)
  | call (callee : Node) (paren : Token) (arguments : List Node)
  | expression (body : Node)
  | print (body : Node)
  | var (name : Token) (initializer : Node)
  | block (statements : List Node)
  | branch (condition thenBranch elseBranch : Node)
  | loop (condition body : Node)
  deriving Repr, Inhabited

namespace Node

/-- The forms of nodes. -/
inductive Form where
  | absent | list | literal | grouping | unary | binary | logical | reference | assign | call
  | expression | print | var | block | branch | loop
  deriving DecidableEq, Repr

/-- The form of a node. -/
def form : Node → Form
  | .absent => .absent
  | .list _ => .list
  | .literal _ => .literal
  | .grouping _ => .grouping
  | .unary _ _ => .unary
  | .binary _ _ _ => .binary
  | .logical _ _ _ => .logical
  | .reference _ => .reference
  | .assign _ _ => .assign
  | .call _ _ _ => .call
  | .expression _ => .expression
  | .print _ => .print
  | .var _ _ => .var
  | .block _ => .block
  | .branch _ _ _ => .branch
  | .loop _ _ => .loop

namespace Form

/-- The name of a form in tree files and logs. -/
def name : Form → String
  | .absent => "NoneType"
  | .list => "list"
  | .literal => "Literal"
  | .grouping => "Grouping"
  | .unary => "Unary"
  | .binary => "Binary"
  | .logical => "Logical"
  | .reference => "Variable"
  | .assign => "Assign"
  | .call => "Call"
  | .expression => "Expression"
  | .print => "Print"
  | .var => "Var"
  | .block => "Block"
  | .branch => "If"
  | .loop => "While"

/-- The form is one of the six forms of statements. -/
def isStatement : Form → Bool
  | .expression | .print | .var | .block | .branch | .loop => true
  | _ => false

/-- The form is one of the eight forms of expressions. -/
def isExpression : Form → Bool
  | .literal | .grouping | .unary | .binary | .logical | .reference | .assign | .call => true
  | _ => false

/-- The name of a form in messages about a node at a wrong place. -/
def fullName (f : Form) : String :=
  if f.isStatement || f.isExpression then "<class 'nova.ast." ++ f.name ++ "'>"
  else "<class '" ++ f.name ++ "'>"

end Form

/-! ## Equality -/

mutual

/-- Equality of trees, token lines included. -/
def same : Node → Node → Bool
  | .absent, .absent => true
  | .list a, .list b => sameAll a b
  | .literal a, .literal b => decide (a = b)
  | .grouping a, .grouping b => same a b
  | .unary o a, .unary p b => decide (o = p) && same a b
  | .binary a o b, .binary c p d => same a c && decide (o = p) && same b d
  | .logical a o b, .logical c p d => same a c && decide (o = p) && same b d
  | .reference n, .reference m => decide (n = m)
  | .assign n a, .assign m b => decide (n = m) && same a b
  | .call a o as, .call b p bs => same a b && decide (o = p) && sameAll as bs
  | .expression a, .expression b => same a b
  | .print a, .print b => same a b
  | .var n a, .var m b => decide (n = m) && same a b
  | .block a, .block b => sameAll a b
  | .branch a b c, .branch d e f => same a d && same b e && same c f
  | .loop a b, .loop c d => same a c && same b d
  | _, _ => false

/-- Equality of lists of trees. -/
def sameAll : List Node → List Node → Bool
  | [], [] => true
  | a :: as, b :: bs => same a b && sameAll as bs
  | _, _ => false

end

mutual

theorem same_iff : ∀ a b : Node, same a b = true ↔ a = b
  | .absent, b => by cases b <;> simp [same]
  | .list as, b => by
    cases b with
    | list bs => simp [same, sameAll_iff as bs]
    | _ => simp [same]
  | .literal _, b => by cases b <;> simp [same]
  | .grouping a, b => by
    cases b with
    | grouping b => simp [same, same_iff a b]
    | _ => simp [same]
  | .unary _ a, b => by
    cases b with
    | unary _ b => simp [same, same_iff a b]
    | _ => simp [same]
  | .binary a _ b, c => by
    cases c with
    | binary c _ d => simp [same, same_iff a c, same_iff b d, and_assoc]
    | _ => simp [same]
  | .logical a _ b, c => by
    cases c with
    | logical c _ d => simp [same, same_iff a c, same_iff b d, and_assoc]
    | _ => simp [same]
  | .reference _, b => by cases b <;> simp [same]
  | .assign _ a, b => by
    cases b with
    | assign _ b => simp [same, same_iff a b]
    | _ => simp [same]
  | .call a _ as, b => by
    cases b with
    | call b _ bs => simp [same, same_iff a b, sameAll_iff as bs, and_assoc]
    | _ => simp [same]
  | .expression a, b => by
    cases b with
    | expression b => simp [same, same_iff a b]
    | _ => simp [same]
  | .print a, b => by
    cases b with
    | print b => simp [same, same_iff a b]
    | _ => simp [same]
  | .var _ a, b => by
    cases b with
    | var _ b => simp [same, same_iff a b]
    | _ => simp [same]
  | .block as, b => by
    cases b with
    | block bs => simp [same, sameAll_iff as bs]
    | _ => simp [same]
  | .branch a b c, d => by
    cases d with
    | branch d e f => simp [same, same_iff a d, same_iff b e, same_iff c f, and_assoc]
    | _ => simp [same]
  | .loop a b, c => by
    cases c with
    | loop c d => simp [same, same_iff a c, same_iff b d]
    | _ => simp [same]

theorem sameAll_iff : ∀ as bs : List Node, sameAll as bs = true ↔ as = bs
  | [], bs => by cases bs <;> simp [sameAll]
  | a :: as, bs => by
    cases bs with
    | nil => simp [sameAll]
    | cons b bs => simp [sameAll, same_iff a b, sameAll_iff as bs]

end

instance : DecidableEq Node := fun a b => decidable_of_iff _ (same_iff a b)

end Node

/-! ## Faults -/

/-- What is done with a node that stands at a wrong place. -/
inductive Activity where
  | printExpression | printStatement | execute | evaluate
  deriving DecidableEq, Repr

/-- The name of an activity in messages. -/
def Activity.name : Activity → String
  | .printExpression => "print_expr"
  | .printStatement => "print_stmt"
  | .execute => "execute"
  | .evaluate => "evaluate"

/-- A fault of the tree or of the host, which no source text gives rise to. -/
inductive Fault where
  | unexpectedNode (activity : Activity) (form : Node.Form)
  | unsupportedUnary (lexeme : String)
  | unsupportedBinary (lexeme : String)
  /-- A lexeme that is no text is to be written as it is. -/
  | notText
  /-- A lexeme that has parts is to be a name. -/
  | notName
  /-- A function of the host has failed. -/
  | host (message : String)
  deriving DecidableEq, Repr

/-- The wording of a fault, for those that have one. -/
def Fault.message? : Fault → Option String
  | .unexpectedNode activity form =>
    some (activity.name ++ ": unexpected node type " ++ form.fullName)
  | .unsupportedUnary lexeme => some ("unsupported unary operator " ++ lexeme)
  | .unsupportedBinary lexeme => some ("unsupported binary operator " ++ lexeme)
  | .host message => some message
  | .notText | .notName => none

end NovaLang
