namespace NovaLang.Grammar

/-! # Packed tables

A table of numbers of a bounded width, as the digits of one number. A proof that
evaluates the automaton looks numbers up in it at the cost of a shift.
-/

/-- A table of numbers below `2 ^ width`; where nothing was added, it holds zero. -/
structure Packed (width : Nat) where
  digits : Nat
  deriving DecidableEq, Repr

namespace Packed

variable {width : Nat}

/-- The table of zeros. -/
def zeros : Packed width := ⟨0⟩

/-- The number at an index. -/
def get (t : Packed width) (i : Nat) : Nat :=
  (t.digits.shiftRight (width.mul i)).mod (Nat.pow 2 width)

/-- The bits of a number added at an index. -/
def add (t : Packed width) (i n : Nat) : Packed width :=
  ⟨t.digits.lor (n.shiftLeft (width.mul i))⟩

end Packed

end NovaLang.Grammar
