import Mathlib.Data.List.Forall2
import NovaLang.Proofs.Eval.Invariant

namespace NovaLang

/-! # What a statement leaves alone

A statement changes only the bindings of names that it assigns to, and adds to the
current scope only what it declares outside of its blocks. All scopes that were there
before stay where they are, and those of its blocks are gone when it ends, however it
ends.
-/

/-! ## Bindings -/

/-- One of the tokens holds the name. -/
def Named (ts : List Token) (name : Name) : Prop :=
  ∃ t ∈ ts, ∃ held, Scopes.nameOf t = .ok held ∧ name == held

theorem Named.mono {ts us : List Token} {name : Name} (h : Named ts name) (hsub : ts ⊆ us) :
    Named us name := by
  rcases h with ⟨t, ht, hheld⟩
  exact ⟨t, hsub ht, hheld⟩

/-- The same names in the same order, with the same values except for what the tokens
name. -/
def Kept (ts : List Token) (before after : List (Name × Value)) : Prop :=
  List.Forall₂ (fun b a => a.1 = b.1 ∧ (a.2 = b.2 ∨ Named ts b.1)) before after

namespace Kept

variable {ts us : List Token} {as bs cs ds : List (Name × Value)}

theorem refl (as : List (Name × Value)) : Kept ts as as :=
  List.forall₂_same.mpr fun _ _ => ⟨rfl, .inl rfl⟩

/-- A value may change in one step and again in the next. -/
theorem trans (h : Kept ts as bs) (h' : Kept ts bs cs) : Kept ts as cs := by
  induction h generalizing cs with
  | nil => exact h'
  | cons hab _ ih =>
      cases h' with
      | cons hbc hrest =>
          refine .cons ⟨hbc.1.trans hab.1, ?_⟩ (ih hrest)
          -- a value that differs differs from one of the two steps on
          rcases hab.2 with hvalue | hnamed
          · rcases hbc.2 with hvalue' | hnamed'
            · exact .inl (hvalue'.trans hvalue)
            · exact .inr (hab.1 ▸ hnamed')
          · exact .inr hnamed

theorem mono (h : Kept ts as bs) (hsub : ts ⊆ us) : Kept us as bs :=
  List.Forall₂.imp (fun _ _ hab => ⟨hab.1, hab.2.imp_right fun hnamed => hnamed.mono hsub⟩) h

/-- What stands behind some bindings is kept apart from them. -/
theorem split (h : Kept ts (as ++ bs) cs) :
    ∃ as' bs', cs = as' ++ bs' ∧ Kept ts as as' ∧ Kept ts bs bs' := by
  induction as generalizing cs with
  | nil => exact ⟨[], cs, rfl, .nil, h⟩
  | cons a as ih =>
      cases h with
      | cons ha hrest =>
          rcases ih hrest with ⟨as', bs', rfl, has, hbs⟩
          exact ⟨_ :: as', bs', rfl, .cons ha has, hbs⟩

/-- Whatever values change, the names stay as they were. -/
theorem names (h : Kept ts as bs) : Keyed.names bs = Keyed.names as := by
  induction h with
  | nil => rfl
  | cons hab _ ih => exact congrArg₂ List.cons hab.1 ih

/-- Setting a known name replaces its value only. -/
theorem set {t : Token} {name : Name} (ht : t ∈ ts) (hname : Scopes.nameOf t = .ok name)
    (v : Value) (h : Keyed.contains as name = true) : Kept ts as (Keyed.set name v as) := by
  induction as with
  | nil => cases h
  | cons a as ih =>
      rcases a with ⟨k, w⟩
      by_cases hk : k == name
      · rw [Keyed.set, if_pos hk]
        exact .cons ⟨rfl, .inr ⟨t, ht, name, hname, hk⟩⟩ (refl as)
      · rw [Keyed.set, if_neg hk]
        refine .cons ⟨rfl, .inl rfl⟩ (ih ?_)
        simpa [Keyed.contains, hk] using h

end Kept

/-- Setting an unknown name adds it at the end. -/
theorem Keyed.set_of_not_contains {bs : List (Name × Value)} {name : Name} (v : Value)
    (h : Keyed.contains bs name = false) : Keyed.set name v bs = bs ++ [(name, v)] := by
  induction bs with
  | nil => rfl
  | cons b bs ih =>
      rcases b with ⟨k, w⟩
      simp only [Keyed.contains, List.any_cons, Bool.or_eq_false_iff] at h
      rw [Keyed.set, if_neg (by simp [h.1]), ih h.2]
      rfl

/-! ## Scopes -/

namespace Scopes

variable {s scopes : Scopes} {e i : Nat} {name : Name} {v : Value} {t : Token}

@[simp] theorem size_define : (s.define e name v).size = s.size := by
  simp [define, size]

@[simp] theorem parent_define : (s.define e name v).parent? i = s.parent? i := by
  unfold define parent?
  rw [Array.getElem?_modify]
  split
  · cases s.scopes[i]? <;> rfl
  · rfl

/-- Only the scope itself is bound in. -/
theorem bindings_define_of_ne (h : i ≠ e) : (s.define e name v).bindings i = s.bindings i := by
  unfold define bindings
  rw [Array.getElem?_modify, if_neg (Ne.symm h)]

/-- In a scope that is there the name is set. -/
theorem bindings_define_self (h : e < s.size) :
    (s.define e name v).bindings e = Keyed.set name v (s.bindings e) := by
  unfold define bindings
  rw [Array.getElem?_modify, if_pos rfl, Array.getElem?_eq_getElem h]
  rfl

theorem bindings_of_size_le (h : s.size ≤ e) : s.bindings e = [] := by
  unfold bindings
  rw [Array.getElem?_eq_none h]

theorem parent_of_size_le (h : s.size ≤ e) : s.parent? e = none := by
  unfold parent?
  rw [Array.getElem?_eq_none h]
  rfl

/-- Only a scope that is there binds anything. -/
theorem lt_size_of_contains (h : Keyed.contains (s.bindings e) name = true) : e < s.size := by
  by_contra hnot
  rw [bindings_of_size_le (Nat.le_of_not_lt hnot)] at h
  cases h

/-- An assignment goes to a scope that binds the name. -/
theorem assign_eq_ok (h : s.assign e t v = .ok scopes) :
    ∃ name holder, nameOf t = .ok name ∧ Keyed.contains (s.bindings holder) name = true ∧
      scopes = s.define holder name v := by
  unfold assign at h
  rcases hname : nameOf t with i | name
  · simp [hname, bind, Except.bind] at h
  · simp only [hname, bind, Except.bind, assign?, holder?] at h
    -- the scopes are searched from the inside to the outside
    rcases hholder : (s.chain e).find? fun i => Keyed.contains (s.bindings i) name with _ | holder
    · simp [hholder, throw, throwThe, MonadExceptOf.throw] at h
    · simp only [hholder, Option.bind_some, pure, Except.pure, Except.ok.injEq] at h
      have hcontains := List.find?_some hholder
      exact ⟨name, holder, rfl, hcontains, h.symm⟩

/-- A declaration goes to the scope itself. -/
theorem declare_eq_ok (h : s.declare e t v = .ok scopes) :
    ∃ name, nameOf t = .ok name ∧ scopes = s.define e name v := by
  unfold declare at h
  rcases hname : nameOf t with i | name
  · simp [hname, bind, Except.bind] at h
  · simp only [hname, bind, Except.bind, pure, Except.pure, Except.ok.injEq] at h
    exact ⟨name, rfl, h.symm⟩

@[simp] theorem size_create {p : Option Nat} : (s.create p).size = s.size + 1 := by
  simp [create, size]

@[simp] theorem size_dropLast : s.dropLast.size = s.size - 1 := by
  simp [dropLast, size]

@[simp] theorem bindings_create {p : Option Nat} : (s.create p).bindings i = s.bindings i := by
  unfold create bindings
  rw [Array.getElem?_push]
  by_cases hi : i = s.scopes.size
  · rw [if_pos hi, hi, Array.getElem?_eq_none (Nat.le_refl _)]
  · rw [if_neg hi]

/-- A new scope comes last, and has the parent it is given. -/
theorem parent_create {p : Option Nat} :
    (s.create p).parent? i = if i = s.size then p else s.parent? i := by
  unfold create parent? size
  rw [Array.getElem?_push]
  split <;> rfl

/-- Without the last scope the others bind what they did. -/
theorem bindings_dropLast :
    s.dropLast.bindings i = if i + 1 < s.size then s.bindings i else [] := by
  unfold dropLast bindings size
  rw [Array.getElem?_pop]
  by_cases hi : i + 1 < s.scopes.size
  · rw [if_pos hi, if_pos (Nat.lt_sub_of_add_lt hi)]
  · rw [if_neg hi, if_neg (by omega)]

/-- Without the last scope the others have the parents they had. -/
theorem parent_dropLast :
    s.dropLast.parent? i = if i + 1 < s.size then s.parent? i else none := by
  unfold dropLast parent? size
  rw [Array.getElem?_pop]
  split
  · rw [if_pos (by omega)]
  · rw [if_neg (by omega)]
    rfl

end Scopes

/-! ## Frames -/

/-- What a step that assigns to some names and declares others leaves alone. -/
structure Frame (targets declared : List Token) (m m' : Machine) : Prop where
  current : m'.current = m.current
  /-- No scope is gone, and none is left behind. -/
  size : m'.scopes.size = m.scopes.size
  parent : ∀ e, m'.scopes.parent? e = m.scopes.parent? e
  /-- Scopes other than the current one keep their names, and the values of all names that
  are not assigned to. -/
  others : ∀ e ≠ m.current, Kept targets (m.scopes.bindings e) (m'.scopes.bindings e)
  /-- So does the current one, apart from what is declared in it, where a new name comes
  last. -/
  own : ∃ kept new, m'.scopes.bindings m.current = kept ++ new ∧
    Kept (targets ++ declared) (m.scopes.bindings m.current) kept ∧
    ∀ b ∈ new, ∃ t ∈ declared, Scopes.nameOf t = .ok b.1

namespace Frame

variable {A D : List Token} {m m' m'' : Machine}

/-- A step that leaves the scopes alone. -/
theorem of_scopes (hscopes : m'.scopes = m.scopes) (hcurrent : m'.current = m.current) :
    Frame A D m m' where
  current := hcurrent
  size := by rw [hscopes]
  parent e := by rw [hscopes]
  others e _ := by rw [hscopes]; exact .refl _
  own := ⟨m.scopes.bindings m.current, [], by simp [hscopes], .refl _, nofun⟩

/-- What the first step adds the second one finds, and may set. -/
theorem trans (h : Frame A D m m') (h' : Frame A D m' m'') : Frame A D m m'' where
  current := h'.current.trans h.current
  size := h'.size.trans h.size
  parent e := (h'.parent e).trans (h.parent e)
  others e he := (h.others e he).trans (h'.others e (h.current ▸ he))
  own := by
    rcases h.own with ⟨kept, new, hbindings, hkept, hnew⟩
    rcases h'.own with ⟨kept', new', hbindings', hkept', hnew'⟩
    rw [h.current] at hbindings' hkept'
    rw [hbindings] at hkept'
    -- what the first step adds is kept by the second one, with other values at most
    rcases hkept'.split with ⟨kept₁, new₁, rfl, hold, hadded⟩
    refine ⟨kept₁, new₁ ++ new', by rw [hbindings', List.append_assoc], hkept.trans hold, ?_⟩
    intro b hb
    rcases List.mem_append.mp hb with hb | hb
    · have hmem : b.1 ∈ Keyed.names new := hadded.names ▸ List.mem_map_of_mem hb
      rcases List.mem_map.mp hmem with ⟨b', hb', hname⟩
      rw [← hname]
      exact hnew b' hb'
    · exact hnew' b hb

theorem mono {D' : List Token} (h : Frame A D m m') (hsub : D ⊆ D') : Frame A D' m m' where
  current := h.current
  size := h.size
  parent := h.parent
  others := h.others
  own := by
    rcases h.own with ⟨kept, new, hbindings, hkept, hnew⟩
    refine ⟨kept, new, hbindings, hkept.mono (List.append_subset.mpr
      ⟨List.subset_append_left A D', List.subset_append_of_subset_right A hsub⟩), ?_⟩
    intro b hb
    rcases hnew b hb with ⟨t, ht, hname⟩
    exact ⟨t, hsub ht, hname⟩

/-- An entry of the log changes no scope. -/
theorem note (m : Machine) (e : Event) : Frame A D m (m.note e) := by
  unfold Machine.note
  split
  · split
    · exact .of_scopes rfl rfl
    · exact .of_scopes rfl rfl
  · exact .of_scopes rfl rfl

/-- An assignment changes the value of one name, in the scope that holds it. -/
theorem assign {t : Token} {v : Value} {scopes : Scopes} (ht : t ∈ A)
    (h : m.scopes.assign m.current t v = .ok scopes) : Frame A D m { m with scopes } := by
  rcases Scopes.assign_eq_ok h with ⟨name, holder, hname, hcontains, rfl⟩
  -- no scope but the holder changes, and in it only the value
  have hkept : ∀ e, Kept A (m.scopes.bindings e) ((m.scopes.define holder name v).bindings e) := by
    intro e
    by_cases he : e = holder
    · rw [he, Scopes.bindings_define_self (Scopes.lt_size_of_contains hcontains)]
      exact .set ht hname v hcontains
    · rw [Scopes.bindings_define_of_ne he]
      exact .refl _
  constructor
  · rfl
  · exact Scopes.size_define
  · exact fun _ => Scopes.parent_define
  · exact fun e _ => hkept e
  · exact ⟨_, [], (List.append_nil _).symm,
      (hkept m.current).mono (List.subset_append_left A D), nofun⟩

/-- A declaration adds a name to the current scope, or sets it there. -/
theorem declare {t : Token} {v : Value} {scopes : Scopes} (ht : t ∈ D)
    (h : m.scopes.declare m.current t v = .ok scopes) : Frame A D m { m with scopes } := by
  rcases Scopes.declare_eq_ok h with ⟨name, hname, rfl⟩
  constructor
  · rfl
  · exact Scopes.size_define
  · exact fun _ => Scopes.parent_define
  · intro e he
    rw [Scopes.bindings_define_of_ne he]
    exact .refl _
  · by_cases hlt : m.current < m.scopes.size
    · rw [Scopes.bindings_define_self hlt]
      -- a name that is there is set, and another one added behind the others
      cases hcontains : Keyed.contains (m.scopes.bindings m.current) name with
      | true => exact ⟨_, [], (List.append_nil _).symm,
          .set (List.mem_append_right A ht) hname v hcontains, nofun⟩
      | false =>
          rw [Keyed.set_of_not_contains v hcontains]
          refine ⟨_, _, rfl, .refl _, fun b hb => ⟨t, ht, ?_⟩⟩
          rw [List.mem_singleton.mp hb]
          exact hname
    · -- there is no current scope, and nothing is bound
      have hnone : ∀ s : Scopes, s.size = m.scopes.size → s.bindings m.current = [] :=
        fun s hs => Scopes.bindings_of_size_le (hs ▸ Nat.le_of_not_lt hlt)
      exact ⟨[], [], hnone _ Scopes.size_define, by rw [hnone _ rfl]; exact .nil, nofun⟩

/-- The scope of a block takes all that was declared in it along. -/
theorem scope (h : Frame A D m.enter m') : Frame A [] m (m'.leave m.current) := by
  -- inside there is one scope more than outside
  have hsize : m'.scopes.size = m.scopes.size + 1 := h.size.trans Scopes.size_create
  have hkept : ∀ e, Kept A (m.scopes.bindings e) ((m'.leave m.current).scopes.bindings e) := by
    intro e
    change Kept A _ (m'.scopes.dropLast.bindings e)
    rw [Scopes.bindings_dropLast, hsize]
    by_cases he : e < m.scopes.size
    · rw [if_pos (Nat.succ_lt_succ he)]
      have hothers := h.others e (Nat.ne_of_lt he)
      have hsame : m.enter.scopes.bindings e = m.scopes.bindings e := Scopes.bindings_create
      rwa [hsame] at hothers
    · rw [if_neg (by omega), Scopes.bindings_of_size_le (Nat.le_of_not_lt he)]
      exact .nil
  constructor
  · rfl
  · change m'.scopes.dropLast.size = _
    rw [Scopes.size_dropLast, hsize, Nat.add_sub_cancel]
  · intro e
    change m'.scopes.dropLast.parent? e = _
    rw [Scopes.parent_dropLast, hsize]
    by_cases he : e < m.scopes.size
    · rw [if_pos (Nat.succ_lt_succ he), h.parent]
      exact Scopes.parent_create.trans (if_neg (Nat.ne_of_lt he))
    · rw [if_neg (by omega), Scopes.parent_of_size_le (Nat.le_of_not_lt he)]
  · exact fun e _ => hkept e
  · exact ⟨_, [], (List.append_nil _).symm, by simpa using hkept m.current, nofun⟩

end Frame

namespace Eval

/-- Frames are kept by every way in which a step changes a machine. -/
theorem frame_invariant : Invariant Frame where
  refl _ := .of_scopes rfl rfl
  trans := .trans
  mono hsub h := h.mono hsub
  note m _ _ := .note m _
  print _ _ := .of_scopes rfl rfl
  ask _ _ := .of_scopes rfl rfl
  assign := .assign
  declare := .declare
  scope := .scope

section

variable {rounds : Nat} {m m' : Machine}

/-- An expression adds no name to any scope. -/
theorem frame_of_evaluate {n : Node} {o : Except Interrupt Value}
    (h : (evaluate n).run m = (o, m')) : Frame n.targets [] m m' := by
  have hframe := frame_invariant.evaluate n (List.Subset.refl _) (D := []) m
  rwa [h] at hframe

theorem frame_of_evaluateAll {ns : List Node} {o : Except Interrupt (List Value)}
    (h : (evaluateAll ns).run m = (o, m')) : Frame (Node.targetsOf ns) [] m m' := by
  have hframe := frame_invariant.evaluateAll ns (List.Subset.refl _) (D := []) m
  rwa [h] at hframe

theorem frame_of_execute {n : Node} {o : Except Interrupt Unit}
    (h : (execute rounds n).run m = (o, m')) : Frame n.targets n.declared m m' := by
  have hframe := frame_invariant.execute rounds n _ (List.Subset.refl _) (List.Subset.refl _) m
  rwa [h] at hframe

theorem frame_of_executeAll {ns : List Node} {o : Except Interrupt Unit}
    (h : (executeAll rounds ns).run m = (o, m')) :
    Frame (Node.targetsOf ns) (ns.flatMap Node.declared) m m' := by
  have hframe := frame_invariant.executeAll rounds ns _ (List.Subset.refl _) (List.Subset.refl _) m
  rwa [h] at hframe

theorem frame_of_runProgram {ns : List Node} {o : Except Interrupt Unit}
    (h : (runProgram rounds ns).run m = (o, m')) :
    Frame (Node.targetsOf ns) (ns.flatMap Node.declared) m m' := by
  have hframe := frame_invariant.runProgram rounds ns _ (List.Subset.refl _) (List.Subset.refl _) m
  rwa [h] at hframe

end

/-- However a statement ends, it has changed only the names that it assigns to, and
declared in the current scope only what it declares outside of its blocks. -/
theorem execute_frame (rounds : Nat) (s : Node) (m : Machine) :
    Frame s.targets s.declared m ((execute rounds s).run m).2 :=
  frame_invariant.execute rounds s s.declared (List.Subset.refl _) (List.Subset.refl _) m

end Eval

end NovaLang
