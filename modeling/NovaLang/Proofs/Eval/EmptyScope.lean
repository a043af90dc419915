import NovaLang.Proofs.Eval.Nesting

namespace NovaLang

/-! # An empty scope more

A scope that binds nothing makes no difference to those that are within it: every name is
found behind it, and an assignment changes the same binding. This holds as scopes are
entered and left within it.
-/

/-- The place of a scope when there is one scope more behind the scope `q`. -/
def Scopes.lift (q e : Nat) : Nat := if e ≤ q then e else e + 1

/-- There is an empty scope more behind the scope `q`, which is within `q`, and all that was
created later and was within `q` is within that scope. -/
structure Scopes.Widened (q : Nat) (s w : Scopes) : Prop where
  lt_size : q < s.size
  size : w.size = s.size + 1
  bindings : ∀ e, w.bindings (lift q e) = s.bindings e
  empty : w.bindings (q + 1) = []
  below : ∀ e ≤ q, w.parent? e = s.parent? e
  extra : w.parent? (q + 1) = some q
  above : ∀ e, q < e → e < s.size →
    ∃ p, q ≤ p ∧ s.parent? e = some p ∧ w.parent? (e + 1) = some (p + 1)
  ordered : s.Ordered

namespace Scopes

/-- Scopes up to the empty one keep their numbers, ... -/
theorem lift_of_le {q e : Nat} (h : e ≤ q) : lift q e = e := if_pos h

/-- ... and the others move up by one. -/
theorem lift_of_lt {q e : Nat} (h : q < e) : lift q e = e + 1 := if_neg (Nat.not_le_of_lt h)

/-- No two scopes get the same number, ... -/
theorem lift_inj {q e i : Nat} : lift q e = lift q i ↔ e = i := by
  unfold lift
  split <;> split <;> omega

/-- ... and none gets that of the empty scope. -/
theorem lift_ne {q e : Nat} : lift q e ≠ q + 1 := by
  unfold lift
  split <;> omega

/-- Scopes are the same if they have the same parents and the same bindings. -/
theorem ext_of {s w : Scopes} (hsize : s.size = w.size)
    (hparent : ∀ e < s.size, s.parent? e = w.parent? e)
    (hbindings : ∀ e < s.size, s.bindings e = w.bindings e) : s = w := by
  rcases s with ⟨s⟩
  rcases w with ⟨w⟩
  refine congrArg Scopes.mk (Array.ext hsize fun e he he' => ?_)
  have hp := hparent e he
  have hb := hbindings e he
  simp only [parent?, bindings, Array.getElem?_eq_getElem he, Array.getElem?_eq_getElem he',
    Option.bind_some] at hp hb
  exact (congrArg₂ Scope.mk hp hb : (⟨s[e].parent, s[e].bindings⟩ : Scope) = _)

/-! ## Names -/

/-- A name is searched for in the scope, then from its parent on. -/
theorem holder_of_parent {s : Scopes} (hs : s.Ordered) {e p : Nat} (h : s.parent? e = some p)
    (name : Name) : s.holder? e name =
      if Keyed.contains (s.bindings e) name then some e else s.holder? p name := by
  rw [holder?, chain_eq_cons hs h, List.find?_cons]
  cases Keyed.contains (s.bindings e) name <;> rfl

/-- Without a parent the search ends. -/
theorem holder_of_none {s : Scopes} {e : Nat} (h : s.parent? e = none) (name : Name) :
    s.holder? e name = if Keyed.contains (s.bindings e) name then some e else none := by
  rw [holder?, chain_eq_self h, List.find?_cons]
  cases Keyed.contains (s.bindings e) name <;> rfl

namespace Widened

variable {q : Nat} {s w : Scopes} (h : Widened q s w)

include h

theorem ordered' : w.Ordered := by
  intro e p hp
  rcases Nat.lt_trichotomy e (q + 1) with he | rfl | he
  · rw [h.below e (by omega)] at hp
    exact h.ordered e p hp
  · -- the empty scope has the one below as its parent
    cases h.extra.symm.trans hp
    exact Nat.lt_succ_self q
  · obtain ⟨e, rfl⟩ := Nat.exists_eq_add_one.mpr (Nat.zero_lt_of_lt he)
    by_cases hlt : e < s.size
    · rcases h.above e (by omega) hlt with ⟨p', -, hp', hp''⟩
      have hlt' := h.ordered e p' hp'
      cases hp''.symm.trans hp
      omega
    · rw [parent_of_size_le (by rw [h.size]; omega)] at hp
      cases hp

/-- A name is held by the same scope, seen from a scope that is not within the extra one. -/
theorem holder_below (name : Name) :
    ∀ e ≤ q, w.holder? e name = (s.holder? e name).map (lift q) := by
  intro e
  -- on the number of the scope, which is greater than that of its parent
  induction e using Nat.strongRecOn with
  | ind e ih =>
      intro he
      have hbindings := h.bindings e
      rw [lift_of_le he] at hbindings
      cases hp : s.parent? e with
      | none =>
          rw [holder_of_none hp, holder_of_none ((h.below e he).trans hp), hbindings]
          split
          · rw [Option.map_some, lift_of_le he]
          · rfl
      | some p =>
          have hlt := h.ordered e p hp
          rw [holder_of_parent h.ordered hp, holder_of_parent h.ordered' ((h.below e he).trans hp),
            hbindings]
          split
          · rw [Option.map_some, lift_of_le he]
          · exact ih p hlt (by omega)

/-- A name is held by the same scope, seen from within the extra one. -/
theorem holder (name : Name) : ∀ e, q ≤ e → e < s.size →
    w.holder? (e + 1) name = (s.holder? e name).map (lift q) := by
  intro e
  induction e using Nat.strongRecOn with
  | ind e ih =>
      intro hq he
      rcases Nat.eq_or_lt_of_le hq with rfl | hlt
      · -- the extra scope is empty, and the search goes on behind it
        rw [holder_of_parent h.ordered' h.extra, h.empty]
        exact h.holder_below name q (Nat.le_refl q)
      · rcases h.above e hlt he with ⟨p, hqp, hp, hp'⟩
        have hpe := h.ordered e p hp
        have hbindings := h.bindings e
        rw [lift_of_lt hlt] at hbindings
        rw [holder_of_parent h.ordered hp, holder_of_parent h.ordered' hp', hbindings]
        split
        · rw [Option.map_some, lift_of_lt hlt]
        · exact ih p hpe hqp (by omega)

/-- A name has the same value from the scope above. -/
theorem lookup {e : Nat} (hq : q ≤ e) (he : e < s.size) (t : Token) :
    s.lookup e t = w.lookup (e + 1) t := by
  have hget : ∀ name, w.get? (e + 1) name = s.get? e name := fun name => by
    rw [get?, get?, h.holder name e hq he]
    cases s.holder? e name with
    | none => rfl
    | some i => exact congrArg (Keyed.get? · name) (h.bindings i)
  unfold Scopes.lookup
  simp only [hget]

/-- A binding that is changed is changed in the same scope. -/
theorem define (e : Nat) (name : Name) (v : Value) :
    Widened q (s.define e name v) (w.define (lift q e) name v) where
  lt_size := by rw [size_define]; exact h.lt_size
  size := by rw [size_define, size_define, h.size]
  bindings i := by
    -- only the scope of the definition changes, and it is the same one on both sides
    by_cases hi : i = e
    · subst hi
      by_cases hlt : i < s.size
      · have hlt' : lift q i < w.size := by
          rw [h.size]
          unfold lift
          split <;> omega
        rw [bindings_define_self hlt, bindings_define_self hlt', h.bindings]
      · have hle : w.size ≤ lift q i := by
          have := h.lt_size
          rw [h.size, lift_of_lt (by omega)]
          omega
        rw [bindings_of_size_le (by rw [size_define]; omega),
          bindings_of_size_le (by rw [size_define]; omega)]
    · rw [bindings_define_of_ne hi, bindings_define_of_ne (fun heq => hi (lift_inj.mp heq)),
        h.bindings]
  empty := by rw [bindings_define_of_ne lift_ne.symm, h.empty]
  below i hi := by rw [parent_define, parent_define, h.below i hi]
  extra := by rw [parent_define, h.extra]
  above i hq hi := by
    rw [size_define] at hi
    simpa only [parent_define] using h.above i hq hi
  ordered i p hp := by
    rw [parent_define] at hp
    exact h.ordered i p hp

/-- An assignment fails in the same way, or changes the same scope. -/
theorem assign {e : Nat} (hq : q ≤ e) (he : e < s.size) (t : Token) (v : Value) :
    (∃ i, s.assign e t v = .error i ∧ w.assign (e + 1) t v = .error i) ∨
      ∃ s' w', s.assign e t v = .ok s' ∧ w.assign (e + 1) t v = .ok w' ∧ s'.size = s.size ∧
        Widened q s' w' := by
  unfold Scopes.assign assign?
  rcases hname : nameOf t with i | name
  · exact .inl ⟨i, rfl, rfl⟩
  · simp only [bind, Except.bind, h.holder name e hq he]
    cases s.holder? e name with
    | none => exact .inl ⟨_, rfl, rfl⟩
    | some i => exact .inr ⟨_, _, rfl, rfl, size_define, h.define i name v⟩

/-- A new scope inside of the empty one or of a later one. -/
theorem create {e : Nat} (hq : q ≤ e) (he : e < s.size) :
    Widened q (s.create (some e)) (w.create (some (e + 1))) where
  lt_size := by rw [size_create]; exact Nat.lt_succ_of_lt h.lt_size
  size := by rw [size_create, size_create, h.size]
  bindings i := by rw [bindings_create, bindings_create, h.bindings]
  empty := by rw [bindings_create, h.empty]
  below i hi := by
    have := h.lt_size
    have := h.size
    rw [parent_create, parent_create, if_neg (by omega), if_neg (by omega), h.below i hi]
  extra := by
    have := h.lt_size
    have := h.size
    rw [parent_create, if_neg (by omega), h.extra]
  above i hqi hi := by
    rw [parent_create, parent_create, h.size]
    rw [size_create] at hi
    by_cases hnew : i = s.size
    · rw [if_pos hnew, if_pos (by omega)]
      exact ⟨e, hq, rfl, rfl⟩
    · rw [if_neg hnew, if_neg (by omega)]
      exact h.above i hqi (by omega)
  ordered i p hp := by
    rw [parent_create] at hp
    split at hp
    · cases hp
      omega
    · exact h.ordered i p hp

/-- The last scope is dropped, as long as it is not the empty one. -/
theorem dropLast (hlt : q + 1 < s.size) : Widened q s.dropLast w.dropLast where
  lt_size := by rw [size_dropLast]; omega
  size := by
    rw [size_dropLast, size_dropLast, h.size]
    omega
  bindings i := by
    have hsize := h.size
    rw [bindings_dropLast, bindings_dropLast, h.bindings]
    by_cases hi : i + 1 < s.size
    · have : lift q i ≤ i + 1 := by unfold lift; split <;> omega
      rw [if_pos hi, if_pos (by omega)]
    · rw [if_neg hi]
      split
      · exact bindings_of_size_le (by
          have : lift q i = i + 1 := lift_of_lt (by omega)
          omega)
      · rfl
  empty := by rw [bindings_dropLast, h.empty, ite_self]
  below i hi := by
    have hsize := h.size
    rw [parent_dropLast, parent_dropLast, if_pos (by omega), if_pos (by omega), h.below i hi]
  extra := by
    have hsize := h.size
    rw [parent_dropLast, if_pos (by omega), h.extra]
  above i hq hi := by
    have hsize := h.size
    rw [size_dropLast] at hi
    rw [parent_dropLast, parent_dropLast, if_pos (by omega), if_pos (by omega)]
    exact h.above i hq (by omega)
  ordered i p hp := by
    rw [parent_dropLast] at hp
    split at hp
    · exact h.ordered i p hp
    · cases hp

/-- When the extra scope is the last one, nothing else is left of it when it is gone. -/
theorem dropLast_eq (hsize : s.size = q + 1) : w.dropLast = s := by
  have hwsize := h.size
  refine ext_of (by rw [size_dropLast]; omega) (fun e he => ?_) fun e he => ?_
  all_goals rw [size_dropLast] at he
  · rw [parent_dropLast, if_pos (by omega), h.below e (by omega)]
  · rw [bindings_dropLast, if_pos (by omega), ← h.bindings e, lift_of_le (by omega)]

end Widened

/-- A new scope that is the last one is an extra scope. -/
theorem widened_create {s : Scopes} (hs : s.Ordered) {q : Nat} (hq : s.size = q + 1) :
    Widened q s (s.create (some q)) where
  lt_size := by omega
  size := size_create
  bindings e := by
    rw [bindings_create]
    by_cases he : e ≤ q
    · rw [lift_of_le he]
    · rw [lift_of_lt (by omega), bindings_of_size_le (by omega), bindings_of_size_le (by omega)]
  empty := by rw [bindings_create, bindings_of_size_le (by omega)]
  below e he := by rw [parent_create, if_neg (by omega)]
  extra := by rw [parent_create, if_pos (by omega)]
  above e hq' he := by omega
  ordered := hs

end Scopes

end NovaLang
