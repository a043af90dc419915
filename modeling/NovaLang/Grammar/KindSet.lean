import NovaLang.Token

namespace NovaLang.Grammar

/-! # Sets of kinds

A set of token kinds as the bits of a number.
-/

/-- A set of token kinds. -/
structure KindSet where
  bits : Nat
  deriving DecidableEq, Repr, Inhabited

namespace KindSet

/-- The set without members. -/
def empty : KindSet := ⟨0⟩

/-- The set of one kind. -/
def single (k : Kind) : KindSet := ⟨1 <<< k.ctorIdx⟩

/-- The members of either set. -/
def union (a b : KindSet) : KindSet := ⟨a.bits ||| b.bits⟩

/-- The kind is a member. -/
def has (s : KindSet) (k : Kind) : Bool := s.bits.testBit k.ctorIdx

/-- The members, in the order of the kinds. -/
def toList (s : KindSet) : List Kind := Kind.all.filter s.has

end KindSet

end NovaLang.Grammar
