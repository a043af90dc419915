import NovaLang.Proofs.Eval.EmptyScope

namespace NovaLang.Scopes

/-! # Scopes and what has been done to them

Scopes may share their parents in any way, and a definition that comes later may hide one
that was found before. What a scope answers is told here by the operations alone: by where a name
has been defined, and by what was written there last. The scopes themselves keep to that whatever is
done to them.
-/

/-! ## Histories -/

/-- What is done to scopes. -/
inductive Operation where
  | create (parent : Option Nat)
  | define (e : Nat) (name : Name) (v : Value)
  | get (e : Nat) (t : Token)
  | assign (e : Nat) (t : Token) (v : Value)
  deriving Repr

/-- The scopes behind an operation; one that fails leaves them as they are. -/
def Operation.perform (s : Scopes) : Operation → Scopes
  | .create parent => s.create parent
  | .define e name v => s.define e name v
  | .get _ _ => s
  | .assign e t v =>
    match s.assign e t v with
    | .ok s' => s'
    | .error _ => s

/-- Operations, the latest one first. -/
abbrev History := List Operation

namespace History

/-- The scopes that a history leads to. -/
def scopes : History → Scopes
  | [] => empty
  | op :: h => op.perform (scopes h)

/-- The number of scopes created. -/
def count : History → Nat
  | [] => 0
  | .create _ :: h => count h + 1
  | _ :: h => count h

/-- The parent that a scope was created with. -/
def parent? : History → Nat → Option Nat
  | [], _ => none
  | .create parent :: h, e => if e = count h then parent else parent? h e
  | _ :: h, e => parent? h e

/-- Every operation is on a scope that is there, and parents are created before their children. -/
def Legal : History → Prop
  | [] => True
  | .create parent :: h => (∀ p ∈ parent, p < count h) ∧ Legal h
  | .define e _ _ :: h | .get e _ :: h | .assign e _ _ :: h => e < count h ∧ Legal h

/-- The name has been defined in the scope itself. -/
def Defined (h : History) (e : Nat) (name : Name) : Prop :=
  ∃ m v, Operation.define e m v ∈ h ∧ (m == name) = true

/-- From a scope outward one comes to another one, or stays. -/
inductive Outward (h : History) : Nat → Nat → Prop where
  | here {e : Nat} : Outward h e e
  | parent {e p i : Nat} : parent? h e = some p → Outward h p i → Outward h e i

/-- From a scope outward, another one is the first in which the name has been defined. -/
inductive Nearest (h : History) (name : Name) : Nat → Nat → Prop where
  | here {e : Nat} : Defined h e name → Nearest h name e e
  | parent {e p i : Nat} : ¬ Defined h e name → parent? h e = some p → Nearest h name p i →
      Nearest h name e i

/-- Behind the history, an operation writes a value to a name of a scope: by a definition there, or
by an assignment that goes there. -/
inductive Writes (h : History) : Operation → Nat → Name → Value → Prop where
  | define {e : Nat} {m name : Name} {v : Value} :
      (m == name) = true → Writes h (.define e m v) e name v
  | assign {e i : Nat} {t : Token} {m name : Name} {v : Value} :
      nameOf t = .ok m → Nearest h m e i → (m == name) = true → Writes h (.assign e t v) i name v

/-- The value was written last to the name of the scope. -/
inductive Latest : History → Nat → Name → Value → Prop where
  | now {op : Operation} {h : History} {i : Nat} {name : Name} {v : Value} :
      Writes h op i name v → Latest (op :: h) i name v
  | before {op : Operation} {h : History} {i : Nat} {name : Name} {v : Value} :
      (∀ w, ¬ Writes h op i name w) → Latest h i name v → Latest (op :: h) i name v

/-- The names defined in a scope, each where it was defined first. -/
def names : History → Nat → List Name
  | [], _ => []
  | .define e m _ :: h, i =>
    if e = i ∧ (names h i).any (· == m) = false then names h i ++ [m] else names h i
  | _ :: h, i => names h i

end History

/-! ## Setting names -/

/-- A name is bound exactly if it has a value. -/
theorem contains_eq_isSome (bs : List (Name × Value)) (name : Name) :
    Keyed.contains bs name = (Keyed.get? bs name).isSome := by
  simp [Keyed.contains, Keyed.get?, List.isSome_find?]

/-- It is bound exactly if it is among the names. -/
theorem contains_eq_any_names (bs : List (Name × Value)) (name : Name) :
    Keyed.contains bs name = (Keyed.names bs).any (· == name) := by
  simp [Keyed.contains, Keyed.names, List.any_map, Function.comp_def]

/-- Setting a name binds it and leaves the others alone. -/
theorem contains_set (bs : List (Name × Value)) (name other : Name) (v : Value) :
    Keyed.contains (Keyed.set name v bs) other = (name == other || Keyed.contains bs other) := by
  rw [contains_eq_isSome, contains_eq_isSome, Keyed.get?_set]
  cases name == other <;> rfl

/-- Setting a known name replaces its one value. -/
theorem set_of_contains {bs : List (Name × Value)} {name : Name} (v : Value)
    (h : Keyed.contains bs name = true) :
    ∃ as m w cs, bs = as ++ (m, w) :: cs ∧ (m == name) = true ∧
      Keyed.set name v bs = as ++ (m, v) :: cs := by
  induction bs with
  | nil => cases h
  | cons b bs ih =>
      rcases b with ⟨k, w⟩
      by_cases hk : k == name
      · exact ⟨[], k, w, bs, rfl, hk, by rw [Keyed.set, if_pos hk]; rfl⟩
      · obtain ⟨as, m, w', cs, rfl, hm, hset⟩ := ih (by simpa [Keyed.contains, hk] using h)
        exact ⟨(k, w) :: as, m, w', cs, rfl, hm, by rw [Keyed.set, if_neg hk, hset]; rfl⟩

/-! ## Assignments -/

/-- A variable is looked up by the name of its token. -/
theorem lookup_eq {s : Scopes} {e : Nat} {t : Token} {name : Name} (ht : nameOf t = .ok name) :
    s.lookup e t = match s.get? e name with
      | some v => .ok v
      | none => .error (undefined t) := by
  rw [lookup, ht]
  rfl

/-- It is assigned to in the scope that holds the name. -/
theorem assign_eq {s : Scopes} {e : Nat} {t : Token} {name : Name} (ht : nameOf t = .ok name)
    (v : Value) : s.assign e t v = match s.holder? e name with
      | some i => .ok (s.define i name v)
      | none => .error (undefined t) := by
  rw [assign, ht]
  cases hholder : s.holder? e name with
  | some i => simp [assign?, hholder, bind, Except.bind, pure, Except.pure]
  | none => simp [assign?, hholder, bind, Except.bind, throw, throwThe, MonadExceptOf.throw]

/-- An assignment to what is no name leaves the scopes as they are. -/
theorem perform_assign_of_error {s : Scopes} {e : Nat} {t : Token} {i : Eval.Interrupt}
    (ht : nameOf t = .error i) (v : Value) : (Operation.assign e t v).perform s = s := by
  rw [Operation.perform, assign, ht]
  rfl

/-! ## What scopes keep to -/

namespace History

variable {h : History} {s : Scopes} {op : Operation} {e i : Nat} {name m : Name} {v w : Value}

/-- A definition defines its name in its scope, and nothing else. -/
theorem defined_cons_define : Defined (.define e m v :: h) i name ↔
    (i = e ∧ (m == name) = true) ∨ Defined h i name := by
  constructor
  · rintro ⟨m', v', hmem, hname⟩
    rcases List.mem_cons.mp hmem with heq | hmem
    · cases heq
      exact .inl ⟨rfl, hname⟩
    · exact .inr ⟨m', v', hmem, hname⟩
  · rintro (⟨rfl, hname⟩ | ⟨m', v', hmem, hname⟩)
    · exact ⟨m, v, List.mem_cons_self, hname⟩
    · exact ⟨m', v', List.mem_cons_of_mem _ hmem, hname⟩

/-- What is no definition defines no name. -/
theorem defined_cons (hop : ∀ e m v, op ≠ .define e m v) :
    Defined (op :: h) i name ↔ Defined h i name := by
  constructor
  · rintro ⟨m, v, hmem, hname⟩
    exact ⟨m, v, (List.mem_cons.mp hmem).resolve_left fun heq => hop i m v heq.symm, hname⟩
  · rintro ⟨m, v, hmem, hname⟩
    exact ⟨m, v, List.mem_cons_of_mem _ hmem, hname⟩

/-- The latest value is the one that the last operation writes, if it writes. -/
theorem latest_cons : Latest (op :: h) i name v ↔
    Writes h op i name v ∨ (∀ w, ¬ Writes h op i name w) ∧ Latest h i name v := by
  constructor
  · rintro (hnow | ⟨hnone, hbefore⟩)
    · exact .inl hnow
    · exact .inr ⟨hnone, hbefore⟩
  · rintro (hnow | ⟨hnone, hbefore⟩)
    · exact .now hnow
    · exact .before hnone hbefore

/-- A definition writes its value to its name. -/
theorem writes_define : Writes h (.define e m v) i name w ↔
    i = e ∧ (m == name) = true ∧ w = v := by
  constructor
  · rintro ⟨hname⟩
    exact ⟨rfl, hname, rfl⟩
  · rintro ⟨rfl, hname, rfl⟩
    exact .define hname

/-- An assignment writes if the token holds a name, and then to the nearest scope that has it. -/
theorem writes_assign {t : Token} (ht : nameOf t = .ok m) : Writes h (.assign e t v) i name w ↔
    Nearest h m e i ∧ (m == name) = true ∧ w = v := by
  constructor
  · rintro (_ | ⟨ht', hnearest, hname⟩)
    cases ht.symm.trans ht'
    exact ⟨hnearest, hname, rfl⟩
  · rintro ⟨hnearest, hname, rfl⟩
    exact .assign ht hnearest hname

/-- The scopes are those that the history tells of. -/
structure Reflects (h : History) (s : Scopes) : Prop where
  size : s.size = count h
  parent (e : Nat) : s.parent? e = parent? h e
  ordered : s.Ordered
  contains (e : Nat) (name : Name) :
    Keyed.contains (s.bindings e) name = true ↔ Defined h e name
  value (e : Nat) (name : Name) (v : Value) :
    Keyed.get? (s.bindings e) name = some v ↔ Latest h e name v
  names (e : Nat) : Keyed.names (s.bindings e) = names h e

namespace Reflects

/-- The scope that holds a name is the nearest one in which it has been defined. -/
theorem holder (hs : Reflects h s) (e : Nat) (name : Name) :
    s.holder? e name = some i ↔ Nearest h name e i := by
  -- on the number of the scope: its parent has a smaller one
  induction e using Nat.strongRecOn with
  | ind e ih =>
      have hcontains := hs.contains e name
      -- the search stops at the scope itself or goes on as it would from its parent
      have hfound : ∀ o : Option Nat, (if Keyed.contains (s.bindings e) name then some e else o) =
          some i ↔ (Defined h e name ∧ e = i) ∨ (¬ Defined h e name ∧ o = some i) := by
        intro o
        split
        · rename_i hhere
          simp [hcontains.mp hhere]
        · rename_i hnot
          have habsent : ¬ Defined h e name := fun hhere => hnot (hcontains.mpr hhere)
          simp [habsent]
      cases hparent : s.parent? e with
      | none =>
          rw [holder_of_none hparent, hfound]
          constructor
          · rintro (⟨hhere, rfl⟩ | ⟨-, ⟨⟩⟩)
            exact .here hhere
          · rintro (hhere | ⟨hnot, hp, -⟩)
            · exact .inl ⟨hhere, rfl⟩
            · cases hp.symm.trans ((hs.parent e).symm.trans hparent)
      | some p =>
          rw [holder_of_parent hs.ordered hparent, hfound, ih p (hs.ordered e p hparent)]
          have hp := (hs.parent e).symm.trans hparent
          constructor
          · rintro (⟨hhere, rfl⟩ | ⟨hnot, hnearest⟩)
            · exact .here hhere
            · exact .parent hnot hp hnearest
          · rintro (hhere | ⟨hnot, hp', hnearest⟩)
            · exact .inl ⟨hhere, rfl⟩
            · obtain rfl := Option.some.inj (hp'.symm.trans hp)
              exact .inr ⟨hnot, hnearest⟩

/-- Before any operation there are no scopes. -/
theorem nil : Reflects [] empty where
  size := rfl
  parent _ := rfl
  ordered := nofun
  contains _ _ := ⟨nofun, fun ⟨_, _, hmem, _⟩ => absurd hmem List.not_mem_nil⟩
  value _ _ _ := ⟨nofun, nofun⟩
  names _ := rfl

/-- A new scope is the last one, and it is empty. -/
theorem create (hs : Reflects h s) {parent : Option Nat} (hparent : ∀ p ∈ parent, p < count h) :
    Reflects (.create parent :: h) (s.create parent) where
  size := by rw [size_create, hs.size, count]
  parent e := by rw [parent_create, hs.size, hs.parent, parent?]
  ordered e p hp := by
    rw [parent_create] at hp
    split at hp
    · rename_i he
      rw [he, hs.size]
      exact hparent p hp
    · exact hs.ordered e p hp
  contains e name := by rw [bindings_create, hs.contains, defined_cons (by simp)]
  value e name v := by
    have hnone : ∀ w, ¬ Writes h (.create parent) e name w := fun w hw => by cases hw
    simp [latest_cons, hnone, hs.value]
  names e := by rw [bindings_create]; exact hs.names e

/-- What neither creates nor defines nor writes anything changes nothing. -/
theorem keep (hs : Reflects h s) (hcount : count (op :: h) = count h)
    (hparent : ∀ e, parent? (op :: h) e = parent? h e)
    (hnames : ∀ e, History.names (op :: h) e = History.names h e)
    (hdefine : ∀ e m v, op ≠ .define e m v) (hwrites : ∀ i name v, ¬ Writes h op i name v) :
    Reflects (op :: h) s where
  size := hs.size.trans hcount.symm
  parent e := (hs.parent e).trans (hparent e).symm
  ordered := hs.ordered
  contains e name := (hs.contains e name).trans (defined_cons hdefine).symm
  value e name v := by simp [latest_cons, hwrites, hs.value]
  names e := (hs.names e).trans (hnames e).symm

/-- What writes to a name of a scope sets it there. -/
theorem write (hs : Reflects h s) {m : Name} {v : Value} (hi : i < s.size)
    (hcount : count (op :: h) = count h) (hparent : ∀ e, parent? (op :: h) e = parent? h e)
    (hnames : ∀ e, History.names (op :: h) e =
      if i = e ∧ (History.names h e).any (· == m) = false then History.names h e ++ [m]
      else History.names h e)
    (hdefined : ∀ e name, Defined (op :: h) e name ↔
      (e = i ∧ (m == name) = true) ∨ Defined h e name)
    (hwrites : ∀ e name w, Writes h op e name w ↔ e = i ∧ (m == name) = true ∧ w = v) :
    Reflects (op :: h) (s.define i m v) where
  size := by rw [size_define, hs.size, hcount]
  parent e := by rw [parent_define, hs.parent, hparent]
  ordered e p hp := hs.ordered e p (by rwa [parent_define] at hp)
  contains e name := by
    rw [hdefined, ← hs.contains]
    by_cases he : e = i
    · subst he
      rw [bindings_define_self hi, contains_set]
      simp
    · rw [bindings_define_of_ne he]
      simp [he]
  value e name w := by
    rw [latest_cons, hwrites, ← hs.value]
    by_cases he : e = i
    · subst he
      rw [bindings_define_self hi, Keyed.get?_set]
      by_cases hm : (m == name) = true
      · simp [hwrites, hm, eq_comm]
      · simp [hwrites, hm]
    · rw [bindings_define_of_ne he]
      simp [hwrites, he]
  names e := by
    rw [hnames, ← hs.names]
    by_cases he : e = i
    · subst he
      rw [bindings_define_self hi, Keyed.names_set, contains_eq_any_names]
      cases (Keyed.names (s.bindings e)).any (· == m) <;> simp
    · rw [bindings_define_of_ne he]
      simp [Ne.symm he]

/-- A definition is a write to the scope that it names. -/
theorem define (hs : Reflects h s) (he : e < count h) :
    Reflects (.define e m v :: h) (s.define e m v) :=
  hs.write (hs.size ▸ he) rfl (fun _ => rfl) (fun _ => rfl) (fun _ _ => defined_cons_define)
    fun _ _ _ => writes_define

/-- An assignment is a write to the scope that holds the name, if there is one. -/
theorem assign (hs : Reflects h s) {t : Token} :
    Reflects (.assign e t v :: h) ((Operation.assign e t v).perform s) := by
  rcases ht : nameOf t with f | m
  · rw [perform_assign_of_error ht]
    refine hs.keep rfl (fun _ => rfl) (fun _ => rfl) (by simp) fun i name w => ?_
    rintro (_ | ⟨ht', -, -⟩)
    cases ht.symm.trans ht'
  rw [Operation.perform, assign_eq ht]
  cases hholder : s.holder? e m with
  | none =>
      refine hs.keep rfl (fun _ => rfl) (fun _ => rfl) (by simp) fun i name w hw => ?_
      have hsome := (hs.holder e m).mpr ((writes_assign ht).mp hw).1
      cases hholder.symm.trans hsome
  | some i =>
      -- the name has been defined in the scope that holds it
      have hhere : Keyed.contains (s.bindings i) m = true := by
        simpa using List.find?_some hholder
      have hany := contains_eq_any_names (s.bindings i) m
      rw [hhere, hs.names] at hany
      refine hs.write (lt_size_of_contains hhere) rfl (fun _ => rfl) (fun j => ?_)
        (fun j name => ?_) fun j name w => ?_
      · rw [if_neg]
        · rfl
        · rintro ⟨rfl, hnone⟩
          cases hany.trans hnone
      · rw [defined_cons (by simp)]
        refine ⟨.inr, ?_⟩
        rintro (⟨rfl, hname⟩ | hdefined)
        · rcases (hs.contains j m).mp hhere with ⟨m', v', hmem, hm⟩
          exact ⟨m', v', hmem, BEq.trans hm hname⟩
        · exact hdefined
      · rw [writes_assign ht, ← hs.holder, hholder, Option.some_inj, eq_comm]

/-- Whatever is done to scopes, they are as it tells. -/
theorem of_legal {h : History} (hlegal : Legal h) : Reflects h (scopes h) := by
  induction h with
  | nil => exact nil
  | cons op h ih =>
      cases op with
      | create parent => exact (ih hlegal.2).create hlegal.1
      | define e name v => exact (ih hlegal.2).define hlegal.1
      | get e t =>
          exact (ih hlegal.2).keep rfl (fun _ => rfl) (fun _ => rfl) (by simp)
            fun _ _ _ hw => by cases hw
      | assign e t v => exact (ih hlegal.2).assign

end Reflects

/-! ## What scopes answer -/

/-- The nearest scope that defines a name is on the way outward, ... -/
theorem Nearest.outward (h' : Nearest h name e i) : Outward h e i := by
  induction h' with
  | here => exact .here
  | parent _ hp _ ih => exact .parent hp ih

/-- ... and it does define it. -/
theorem Nearest.defined (h' : Nearest h name e i) : Defined h i name := by
  induction h' with
  | here hdefined => exact hdefined
  | parent _ _ _ ih => exact ih

/-- If a scope on the way outward defines the name, one of them is the nearest. -/
theorem Outward.exists_nearest (h' : Outward h e i) (hdefined : Defined h i name) :
    ∃ j, Nearest h name e j := by
  induction h' with
  | here => exact ⟨_, .here hdefined⟩
  | @parent e p _ hp _ ih =>
      by_cases hhere : Defined h e name
      · exact ⟨e, .here hhere⟩
      · rcases ih hdefined with ⟨j, hj⟩
        exact ⟨j, .parent hhere hp hj⟩

namespace Reflects

/-- Where a name has been defined, it has a binding. -/
theorem found (hs : Reflects h s) (hnearest : Nearest h name e i) :
    Keyed.contains (s.bindings i) name = true :=
  (hs.contains i name).mpr hnearest.defined

/-- Either there is a nearest scope or none on the way defines the name. -/
theorem nearest_or_none (hs : Reflects h s) (e : Nat) (name : Name) :
    (∃ i, Nearest h name e i) ∨ ∀ i, Outward h e i → ¬ Defined h i name := by
  cases hholder : s.holder? e name with
  | some i => exact .inl ⟨i, (hs.holder e name).mp hholder⟩
  | none =>
      refine .inr fun i hout hdefined => ?_
      rcases hout.exists_nearest hdefined with ⟨j, hj⟩
      cases hholder.symm.trans ((hs.holder e name).mpr hj)

/-- If none on the way defines the name, none holds it. -/
theorem holder_none (hs : Reflects h s) (hnone : ∀ i, Outward h e i → ¬ Defined h i name) :
    s.holder? e name = none := by
  rw [Option.eq_none_iff_forall_ne_some]
  intro i hi
  have hnearest := (hs.holder e name).mp hi
  exact hnone i hnearest.outward hnearest.defined

/-- A name is looked up where it is nearest, and is what was written there last. -/
theorem lookup (hs : Reflects h s) {t : Token} (ht : nameOf t = .ok name)
    (hnearest : Nearest h name e i) :
    ∃ v, (∀ w, Latest h i name w ↔ w = v) ∧ s.lookup e t = .ok v := by
  have hfound := hs.found hnearest
  rw [contains_eq_isSome] at hfound
  obtain ⟨v, hv⟩ := Option.isSome_iff_exists.mp hfound
  have hget : s.get? e name = some v := by
    rw [get?, (hs.holder e name).mpr hnearest]
    exact hv
  refine ⟨v, fun w => ?_, by rw [lookup_eq ht, hget]⟩
  rw [← hs.value, hv, Option.some_inj, eq_comm]

/-- An assignment goes to the nearest scope. -/
theorem assign_nearest (hs : Reflects h s) {t : Token} (ht : nameOf t = .ok name)
    (hnearest : Nearest h name e i) (v : Value) : s.assign e t v = .ok (s.define i name v) := by
  rw [assign_eq ht, (hs.holder e name).mpr hnearest]

end Reflects

/-- No name is listed twice. -/
theorem names_pairwise (h : History) (e : Nat) :
    (names h e).Pairwise fun a b => (a == b) = false := by
  induction h with
  | nil => exact .nil
  | cons op h ih =>
      cases op with
      | define i m v =>
          rw [names]
          split
          · -- a name is appended only if it is not there
            rename_i hnew
            refine List.pairwise_append.mpr ⟨ih, List.pairwise_singleton _ _, ?_⟩
            simpa using hnew.2
          · exact ih
      | create | get | assign => exact ih

end History

/-- Two collections of scopes differ in the bindings of one scope at most. -/
structure DiffersAt (s s' : Scopes) (e : Nat) : Prop where
  size : s'.size = s.size
  parent (i : Nat) : s'.parent? i = s.parent? i
  bindings (i : Nat) : i ≠ e → s'.bindings i = s.bindings i

/-- The one binding of a name in a scope has another value, and nothing else has changed. -/
structure Rebinds (s s' : Scopes) (e : Nat) (name : Name) (v : Value) : Prop where
  elsewhere : DiffersAt s s' e
  here : ∃ as m w cs, s.bindings e = as ++ (m, w) :: cs ∧ (m == name) = true ∧
    s'.bindings e = as ++ (m, v) :: cs

/-- A scope has a new binding behind all others, and nothing else has changed. -/
structure Adds (s s' : Scopes) (e : Nat) (name : Name) (v : Value) : Prop where
  elsewhere : DiffersAt s s' e
  here : s'.bindings e = s.bindings e ++ [(name, v)]

/-- A definition changes one scope only. -/
theorem differsAt_define (s : Scopes) (e : Nat) (name : Name) (v : Value) :
    DiffersAt s (s.define e name v) e :=
  ⟨size_define, fun _ => parent_define, fun _ hi => bindings_define_of_ne hi⟩

/-- Of a name that is there already, it changes the value only. -/
theorem rebinds_define {s : Scopes} {e : Nat} {name : Name}
    (h : Keyed.contains (s.bindings e) name = true) (v : Value) :
    Rebinds s (s.define e name v) e name v := by
  refine ⟨differsAt_define s e name v, ?_⟩
  rw [bindings_define_self (lt_size_of_contains h)]
  exact set_of_contains v h

/-- A scope behaves for a name as the history of all scopes tells. -/
structure History.Obeyed (h : History) (e : Nat) (name : Name) : Prop where
  /-- Either there is a nearest scope in which the name has been defined, or there is none at all. -/
  nearest : (∃ i, Nearest h name e i) ∨ ∀ i, Outward h e i → ¬ Defined h i name
  get (t : Token) (i : Nat) : nameOf t = .ok name → Nearest h name e i →
    ∃ v, (∀ w, Latest h i name w ↔ w = v) ∧ h.scopes.lookup e t = .ok v
  assign (t : Token) (i : Nat) (v : Value) : nameOf t = .ok name → Nearest h name e i →
    ∃ s', h.scopes.assign e t v = .ok s' ∧ Rebinds h.scopes s' i name v
  undefined (t : Token) (v : Value) : nameOf t = .ok name →
    (∀ i, Outward h e i → ¬ Defined h i name) → ∃ error : RuntimeError,
      error.token = t ∧ error.cause.message = "Undefined variable '" ++ t.text ++ "'." ∧
      h.scopes.lookup e t = .error (.runtime error) ∧
      h.scopes.assign e t v = .error (.runtime error) ∧
      (Operation.assign e t v).perform h.scopes = scopes h
  define (v : Value) : ¬ Defined h e name → Adds h.scopes (h.scopes.define e name v) e name v
  redefine (v : Value) : Defined h e name →
    Rebinds h.scopes (h.scopes.define e name v) e name v
  /-- Names are unique, and in the order in which they were defined first. -/
  names : Keyed.names (h.scopes.bindings e) = names h e ∧
    (Keyed.names (h.scopes.bindings e)).Pairwise fun a b => (a == b) = false

open History in
/-- After whatever has been done to scopes, every scope obeys the history. A name is looked up, and
assigned to, in the nearest scope from there outward in which it has been defined. What is found is
what was written there last, by a definition or by an assignment that went there. An assignment
changes this binding, a definition that of the scope itself, and nothing else; without any
such scope, looking up and assigning fail and change nothing. -/
theorem history_obeyed {h : History} (hlegal : Legal h) {e : Nat} (he : e < count h) (name : Name) :
    Obeyed h e name := by
  have hs := Reflects.of_legal hlegal
  exact {
    nearest := hs.nearest_or_none e name
    get := fun _ _ ht hnearest => hs.lookup ht hnearest
    assign := fun _ _ v ht hnearest =>
      ⟨_, hs.assign_nearest ht hnearest v, rebinds_define (hs.found hnearest) v⟩
    undefined := fun t v ht hnone => by
      -- without a scope that defines the name both lookup and assignment fail alike
      have hholder := hs.holder_none hnone
      have hlookup : h.scopes.lookup e t = .error (undefined t) := by
        rw [lookup_eq ht, get?, hholder]
        rfl
      have hassign : h.scopes.assign e t v = .error (undefined t) := by
        rw [assign_eq ht, hholder]
      refine ⟨⟨t, .undefinedVariable t.text⟩, rfl, rfl, hlookup, hassign, ?_⟩
      rw [Operation.perform, hassign]
    define := fun v hnot => by
      have habsent : Keyed.contains (h.scopes.bindings e) name = false := by
        rw [Bool.eq_false_iff]
        exact fun hhere => hnot ((hs.contains e name).mp hhere)
      refine ⟨differsAt_define _ e name v, ?_⟩
      rw [bindings_define_self (hs.size ▸ he), Keyed.set_of_not_contains v habsent]
    redefine := fun v hdefined => rebinds_define ((hs.contains e name).mpr hdefined) v
    names := by
      rw [hs.names]
      exact ⟨rfl, names_pairwise h e⟩ }

/-- A token that holds the name `a`. -/
def tokenA : Token := .scanned .identifier "a" .nil 1

/-- Two scopes within one. The first one assigns to the name of their parent, then hides it by a
definition of its own; the second one assigns to that of the parent still. -/
def siblings : History := [
  .assign 2 tokenA (.text "fourth"), .define 1 "a" (.text "third"),
  .assign 1 tokenA (.text "second"), .define 0 "a" (.text "first"),
  .create (some 0), .create (some 0), .create none]

/-- From the second sibling the name is found in the parent, before and after the last assignment. -/
theorem nearest_siblings :
    siblings.Nearest "a" 2 0 ∧ History.Nearest siblings.tail "a" 2 0 := by
  constructor
  all_goals
    refine .parent ?_ rfl (.here ⟨"a", .text "first", by simp [siblings], rfl⟩)
    rintro ⟨m, v, hmem, -⟩
    simp [siblings] at hmem

theorem history_obeyed_siblings :
    siblings.Legal ∧ 2 < siblings.count ∧ nameOf tokenA = .ok "a" ∧ siblings.Nearest "a" 2 0 ∧
      siblings.scopes.lookup 2 tokenA = .ok (.text "fourth") ∧
      siblings.scopes.lookup 1 tokenA = .ok (.text "third") ∧
      ∃ s', siblings.scopes.assign 2 tokenA .nil = .ok s' ∧
        Rebinds siblings.scopes s' 0 "a" .nil := by
  have hlegal : siblings.Legal := by simp [siblings, History.Legal, History.count]
  have hcount : 2 < siblings.count := by decide
  rcases nearest_siblings with ⟨hnearest, hbefore⟩
  have hobeyed := history_obeyed hlegal hcount "a"
  -- the last assignment went to the parent
  have hlatest : siblings.Latest 0 "a" (.text "fourth") := .now (.assign rfl hbefore rfl)
  rcases hobeyed.get tokenA 0 rfl hnearest with ⟨v, hv, hlookup⟩
  obtain rfl := (hv _).mp hlatest
  exact ⟨hlegal, hcount, rfl, hnearest, hlookup, rfl, hobeyed.assign tokenA 0 .nil rfl hnearest⟩

end NovaLang.Scopes
