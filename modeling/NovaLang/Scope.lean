import NovaLang.Eval.Interrupt
import NovaLang.Name

namespace NovaLang

/-! # Scopes

A scope binds names to values and may lie within another scope, its parent.
Scopes are numbered in the order in which they are created, and a parent is
created before its children. A name is looked up in a scope, then in its parent,
and so on outward.
-/

/-- One scope: its parent and its bindings in order of first definition. -/
structure Scope where
  parent : Option Nat
  bindings : List (Name × Value)
  deriving Repr, Inhabited

/-- All scopes, by number. -/
structure Scopes where
  scopes : Array Scope
  deriving Repr, Inhabited

namespace Scopes

/-- No scopes at all. -/
def empty : Scopes := ⟨#[]⟩

/-- The number of scopes. -/
def size (s : Scopes) : Nat := s.scopes.size

/-- The bindings of a scope. -/
def bindings (s : Scopes) (e : Nat) : List (Name × Value) :=
  match s.scopes[e]? with
  | some scope => scope.bindings
  | none => []

/-- The parent of a scope. -/
def parent? (s : Scopes) (e : Nat) : Option Nat :=
  s.scopes[e]?.bind (·.parent)

/-- A new scope with no bindings gets the next number. -/
def create (s : Scopes) (parent : Option Nat) : Scopes :=
  ⟨s.scopes.push ⟨parent, []⟩⟩

/-- The scopes without the last one created. -/
def dropLast (s : Scopes) : Scopes := ⟨s.scopes.pop⟩

/-- At most `count` scopes from `e` outward. -/
def chainWithin (s : Scopes) : (count e : Nat) → List Nat
  | 0, _ => []
  | count + 1, e =>
    match s.parent? e with
    | some p => e :: chainWithin s count p
    | none => [e]

/-- The scopes from `e` outward, `e` first. -/
def chain (s : Scopes) (e : Nat) : List Nat := s.chainWithin (e + 1) e

/-- The number of scopes around `e`. -/
def depth (s : Scopes) (e : Nat) : Nat := (s.chain e).length - 1

/-- The nearest scope from `e` outward that binds a name. -/
def holder? (s : Scopes) (e : Nat) (name : Name) : Option Nat :=
  (s.chain e).find? fun i => Keyed.contains (s.bindings i) name

/-- Binds a name in a scope, or replaces its binding there. -/
def define (s : Scopes) (e : Nat) (name : Name) (value : Value) : Scopes :=
  ⟨s.scopes.modify e fun scope => { scope with bindings := Keyed.set name value scope.bindings }⟩

/-- The value of a name, seen from a scope. -/
def get? (s : Scopes) (e : Nat) (name : Name) : Option Value := do
  Keyed.get? (s.bindings (← s.holder? e name)) name

/-- Replaces the value of a name where it is bound, seen from a scope. -/
def assign? (s : Scopes) (e : Nat) (name : Name) (value : Value) : Option Scopes := do
  some (s.define (← s.holder? e name) name value)

/-- The name that a token holds; data with parts is none. -/
def nameOf (t : Token) : Except Eval.Interrupt Name :=
  match Name.ofJson? t.lexeme with
  | some name => .ok name
  | none => .error (.fault .notName)

/-- The error of a name that is bound nowhere. -/
def undefined (t : Token) : Eval.Interrupt := .runtime ⟨t, .undefinedVariable t.text⟩

/-- The value of the name a token holds. -/
def lookup (s : Scopes) (e : Nat) (t : Token) : Except Eval.Interrupt Value := do
  match s.get? e (← nameOf t) with
  | some value => return value
  | none => throw (undefined t)

/-- Assigns to the name a token holds. -/
def assign (s : Scopes) (e : Nat) (t : Token) (value : Value) : Except Eval.Interrupt Scopes := do
  match s.assign? e (← nameOf t) value with
  | some scopes => return scopes
  | none => throw (undefined t)

/-- Binds the name a token holds. -/
def declare (s : Scopes) (e : Nat) (t : Token) (value : Value) : Except Eval.Interrupt Scopes := do
  return s.define e (← nameOf t) value

end Scopes

end NovaLang
