import NovaLang.Json.Basic

namespace NovaLang

/-! # Names

What a variable is known by. A source text gives it a text; a tree file may hold
null, a boolean or a number instead. Numbers that are equal as a program sees
them are one name, and a text is the same as itself only.
-/

/-- A name: data without parts. -/
structure Name where
  data : Json
  isScalar : data.isScalar = true := by rfl
  deriving Repr

namespace Name

/-- The name that a text is. -/
def ofString (s : String) : Name := ⟨.str s, rfl⟩

instance : Coe String Name := ⟨ofString⟩

instance : Inhabited Name := ⟨ofString ""⟩

/-- The name that some data is; data with parts is none. -/
def ofJson? (j : Json) : Option Name :=
  if h : j.isScalar = true then some ⟨j, h⟩ else none

/-- One form for all forms of a name: whole numbers are written as such. -/
def key (n : Name) : Json :=
  match n.data.whole? with
  | some k => .int k
  | none => n.data

instance : BEq Name := ⟨fun a b => decide (a.key = b.key)⟩

theorem beq_iff (a b : Name) : (a == b) = true ↔ a.key = b.key :=
  decide_eq_true_iff

instance : EquivBEq Name where
  rfl := by simp [beq_iff]
  symm h := (beq_iff _ _).2 ((beq_iff _ _).1 h).symm
  trans h k := (beq_iff _ _).2 (((beq_iff _ _).1 h).trans ((beq_iff _ _).1 k))

end Name

end NovaLang
