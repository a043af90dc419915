import Mathlib.Data.List.Chain
import NovaLang.Grammar.Tree

namespace NovaLang.Grammar

/-! # Proper derivation trees

A derivation tree is proper when the children of each branch are what its production
says, and no subtree that ends in an `if` without an `else` stands in front of an `else`.
-/

/-- The production is that of an `if` without an `else`. -/
def Production.isShortIf (p : Production) : Bool :=
  p.lhs.ctorIdx.beq Nonterminal.ifStmt.ctorIdx && p.rhs.length.beq 5

/-- The production of an index that stands in the grammar. -/
theorem productionAt_eq {p : Nat} (hp : p < productions.size) : productionAt p = productions[p] := by
  rw [productionAt, getElem?_pos productions p hp, Option.getD_some]

/-- Each number of a production stands for a rule of one of the two tables, ... -/
theorem productionAt_mem {p : Nat} (hp : p < productions.size) :
    productionAt p ∈ statementRules ++ expressionRules := by
  rw [productionAt_eq hp]
  exact List.getElem_mem _

/-- ... and each rule of the tables has a number. -/
theorem exists_productionAt {x : Production} (hx : x ∈ statementRules ++ expressionRules) :
    ∃ p, p < productions.size ∧ productionAt p = x := by
  obtain ⟨p, hp, hget⟩ := List.mem_iff_getElem.mp hx
  exact ⟨p, hp, (productionAt_eq hp).trans hget⟩

namespace Tree

/-- The symbol at the root of a tree. -/
def symbol : Tree → Symbol
  | .leaf l => .terminal l.kind
  | .branch p _ => .nonterminal (productionAt p).lhs

mutual

/-- The lexemes of a tree, from left to right. -/
def leaves : Tree → List Lexeme
  | .leaf l => [l]
  | .branch _ children => leavesOf children

/-- The lexemes of some trees, from left to right. -/
def leavesOf : List Tree → List Lexeme
  | [] => []
  | t :: ts => t.leaves ++ leavesOf ts

end

mutual

/-- The tree ends in an `if` without an `else`. -/
def opens : Tree → Bool
  | .leaf _ => false
  | .branch p children => (productionAt p).isShortIf || lastOpens children

/-- The last of some trees ends in an `if` without an `else`. -/
def lastOpens : List Tree → Bool
  | [] => false
  | [t] => t.opens
  | _ :: t :: ts => lastOpens (t :: ts)

end

@[simp] theorem leavesOf_nil : leavesOf [] = [] := rfl

@[simp] theorem leavesOf_cons (t : Tree) (ts : List Tree) :
    leavesOf (t :: ts) = t.leaves ++ leavesOf ts := rfl

/-- The leaves of two forests are read one after the other. -/
theorem leavesOf_append (ts us : List Tree) :
    leavesOf (ts ++ us) = leavesOf ts ++ leavesOf us := by
  induction ts with
  | nil => rfl
  | cons t ts ih => simp [ih]

@[simp] theorem leaves_leaf (l : Lexeme) : (leaf l).leaves = [l] := rfl

@[simp] theorem leaves_branch (p : Nat) (ts : List Tree) : (branch p ts).leaves = leavesOf ts := rfl

@[simp] theorem opens_leaf (l : Lexeme) : (leaf l).opens = false := rfl

theorem opens_branch (p : Nat) (ts : List Tree) :
    (branch p ts).opens = ((productionAt p).isShortIf || lastOpens ts) := rfl

/-- Whether a forest ends in an open `if` is up to its last tree. -/
theorem lastOpens_concat (ts : List Tree) (t : Tree) : lastOpens (ts ++ [t]) = t.opens := by
  induction ts with
  | nil => rfl
  | cons u us ih =>
      cases us with
      | nil => rfl
      | cons v vs => exact ih

/-- No tree that ends in an `if` without an `else` stands in front of an `else`. -/
def Nearest (ts : List Tree) : Prop :=
  ts.IsChain fun t u => t.opens → u.symbol ≠ .terminal .kwElse

/-- A tree whose branches are productions, each `else` belonging to the nearest `if`. -/
inductive Proper : Tree → Prop where
  | leaf (l : Lexeme) : Proper (.leaf l)
  | branch {p : Nat} {children : List Tree} :
      p < productions.size → p ≠ 0 → children.map symbol = (productionAt p).rhs →
      Nearest children → (∀ t ∈ children, Proper t) → Proper (.branch p children)

end Tree

end NovaLang.Grammar
