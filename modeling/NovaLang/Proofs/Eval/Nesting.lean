import NovaLang.Proofs.Eval.Frame

namespace NovaLang

/-! # Scopes and blocks

The current scope is the same before and after every step. While a program runs from the
global scope, the depth of the current scope is the number of blocks around the node that
is being run, and the log tells of scopes in proper nesting, even if the run ends in an
error.
-/

/-! ## Depths -/

namespace Scopes

variable {s s' : Scopes} {e : Nat}

/-- Every scope has been created after its parent. -/
def Ordered (s : Scopes) : Prop := ∀ e p, s.parent? e = some p → p < e

/-- The chain of a scope is found with any count that is large enough. -/
theorem chainWithin_eq (hs : s.Ordered) {count : Nat} (hcount : e < count) :
    s.chainWithin count e = s.chain e := by
  induction e using Nat.strongRecOn generalizing count with
  | ind e ih =>
      obtain ⟨count, rfl⟩ := Nat.exists_eq_succ_of_ne_zero (Nat.ne_of_gt (Nat.zero_lt_of_lt hcount))
      -- both counts go down by one with the parent, which is smaller than the scope
      unfold chain chainWithin
      cases hparent : s.parent? e with
      | none => rfl
      | some p =>
          have hlt := hs e p hparent
          dsimp only
          rw [ih p hlt (by omega), ih p hlt hlt]

/-- The scopes from one outward are it and those from its parent, ... -/
theorem chain_eq_cons (hs : s.Ordered) {p : Nat} (h : s.parent? e = some p) :
    s.chain e = e :: s.chain p := by
  rw [chain, chainWithin, h]
  exact congrArg (e :: ·) (chainWithin_eq hs (hs e p h))

/-- ... if it has one. -/
theorem chain_eq_self (h : s.parent? e = none) : s.chain e = [e] := by
  rw [chain, chainWithin, h]

/-- Only the parents of a scope and of those around it matter. -/
theorem chain_congr (hs : s.Ordered) (hs' : s'.Ordered)
    (h : ∀ i ≤ e, s'.parent? i = s.parent? i) : s'.chain e = s.chain e := by
  induction e using Nat.strongRecOn with
  | ind e ih =>
      cases hparent : s.parent? e with
      | none => rw [chain_eq_self hparent, chain_eq_self ((h e (Nat.le_refl e)).trans hparent)]
      | some p =>
          have hlt := hs e p hparent
          rw [chain_eq_cons hs hparent, chain_eq_cons hs' ((h e (Nat.le_refl e)).trans hparent),
            ih p hlt fun i hi => h i (by omega)]

/-- There is always one, the scope itself. -/
theorem chain_ne_nil (s : Scopes) (e : Nat) : s.chain e ≠ [] := by
  unfold chain chainWithin
  split <;> simp

/-- The first scope of all is within no other. -/
theorem depth_zero (s : Scopes) : s.depth 0 = 0 := by
  unfold depth chain chainWithin
  split <;> rfl

/-- A scope is one deeper than its parent. -/
theorem depth_of_parent (hs : s.Ordered) {p : Nat} (h : s.parent? e = some p) :
    s.depth e = s.depth p + 1 := by
  have hpos := List.length_pos_iff.mpr (chain_ne_nil s p)
  rw [depth, depth, chain_eq_cons hs h, List.length_cons]
  omega

end Scopes

namespace Machine

/-- The number of scopes around the current one. -/
def depth (m : Machine) : Nat := m.scopes.depth m.current

/-- There is a current scope, and scopes lie within scopes created before them. -/
structure Proper (m : Machine) : Prop where
  current : m.current < m.scopes.size
  ordered : m.scopes.Ordered

/-- A new machine has one scope, the global one. -/
theorem new_proper (natives : List Native) (logLevel : Nat) (clock : Float)
    (host : Host := .idle) : (new natives logLevel clock host).Proper := by
  -- native functions are defined one by one in the global scope, and no scope is added
  have hglobal : ∀ (fs : List Native) (s : Scopes), s.size = 1 → (∀ e, s.parent? e = none) →
      (fs.foldl (fun s f => s.define 0 f.name (.native f)) s).size = 1 ∧
        ∀ e, (fs.foldl (fun s f => s.define 0 f.name (.native f)) s).parent? e = none := by
    intro fs
    induction fs with
    | nil => exact fun s hsize hparent => ⟨hsize, hparent⟩
    | cons f fs ih =>
        intro s hsize hparent
        apply ih
        · rw [Scopes.size_define, hsize]
        · intro e
          rw [Scopes.parent_define, hparent]
  have hparent : ∀ e, (Scopes.empty.create none).parent? e = none := by
    intro e
    rw [Scopes.parent_create]
    split <;> rfl
  rcases hglobal natives (Scopes.empty.create none) rfl hparent with ⟨hsize, hnone⟩
  constructor
  · exact Nat.lt_of_lt_of_eq Nat.one_pos hsize.symm
  · intro e p h
    cases (hnone e).symm.trans h

/-- Entering a scope keeps the machine proper. -/
theorem enter_proper {m : Machine} (hm : m.Proper) : m.enter.Proper where
  current := by
    change m.scopes.size < (m.scopes.create _).size
    rw [Scopes.size_create]
    exact Nat.lt_succ_self _
  ordered := by
    intro e p h
    change (m.scopes.create _).parent? e = some p at h
    rw [Scopes.parent_create] at h
    split at h
    · -- the new scope, which lies within the current one
      rename_i he
      cases h
      rw [he]
      exact hm.current
    · exact hm.ordered e p h

/-- It is one deeper then. -/
theorem depth_enter {m : Machine} (hm : m.Proper) : m.enter.depth = m.depth + 1 := by
  have hordered := (enter_proper hm).ordered
  have hparent : m.enter.scopes.parent? m.enter.current = some m.current :=
    Scopes.parent_create.trans (if_pos rfl)
  have hbelow : ∀ e ≤ m.current, m.enter.scopes.parent? e = m.scopes.parent? e := fun e he =>
    Scopes.parent_create.trans (if_neg (Nat.ne_of_lt (Nat.lt_of_le_of_lt he hm.current)))
  rw [depth, Scopes.depth_of_parent hordered hparent, Scopes.depth,
    Scopes.chain_congr hm.ordered hordered hbelow]
  rfl

end Machine

/-- A machine that a step leaves in its frame stays at its depth. -/
theorem Frame.proper {A D : List Token} {m m' : Machine} (h : Frame A D m m') (hm : m.Proper) :
    m'.Proper where
  current := by
    rw [h.current, h.size]
    exact hm.current
  ordered e p hp := hm.ordered e p ((h.parent e).symm.trans hp)

/-- Statements and expressions end at the depth where they begin. -/
theorem Frame.depth_eq {A D : List Token} {m m' : Machine} (h : Frame A D m m') (hm : m.Proper) :
    m'.depth = m.depth := by
  rw [Machine.depth, Machine.depth, Scopes.depth, Scopes.depth, h.current,
    Scopes.chain_congr hm.ordered (h.proper hm).ordered fun i _ => h.parent i]

/-! ## What a run tells -/

/-- Something that a run shows to the outside: an event, printed text, or a call of a
function of the host. -/
inductive Effect where
  | noted (e : Event)
  | printed (text : String)
  | asked (c : Host.Call)
  deriving DecidableEq, Repr

/-- The event of an effect, if it is one. -/
def Effect.event? : Effect → Option Event
  | .noted e => some e
  | .printed _ | .asked _ => none

/-- The machine after one effect. -/
def Machine.after (m : Machine) : Effect → Machine
  | .noted e => m.note e
  | .printed text => m.print text
  | .asked c => (m.ask c).2

/-- The machine after some effects. -/
def Machine.perform (m : Machine) (effects : List Effect) : Machine :=
  effects.foldl Machine.after m

/-- The events tell of scopes in proper nesting, `d` scopes being open before and after:
each scope that is entered is left again, and both tell how many scopes are open within. -/
inductive Nested : Nat → List Event → Prop where
  | nil {d : Nat} : Nested d []
  | other {d : Nat} {e : Event} {es : List Event} :
      e.isScope = false → Nested d es → Nested d (e :: es)
  | scope {d : Nat} {es rest : List Event} :
      Nested (d + 1) es → Nested d rest →
      Nested d (.entered (d + 1) :: es ++ .left (d + 1) :: rest)

/-- Nested events may follow each other. -/
theorem Nested.append {d : Nat} {es fs : List Event} (h : Nested d es) (h' : Nested d fs) :
    Nested d (es ++ fs) := by
  induction h with
  | nil => exact h'
  | other he _ ih => exact .other he (ih h')
  | scope hinner _ _ ih =>
      -- only what stands behind the scope is extended, not what is told within it
      have hall := Nested.scope hinner (ih h')
      simpa using hall

/-- A log that leaves out only events that tell of no scope is as nested. -/
theorem Nested.filter {d : Nat} {es : List Event} (h : Nested d es) {p : Event → Bool}
    (hp : ∀ e : Event, e.isScope = true → p e = true) : Nested d (es.filter p) := by
  -- the events of scopes stay, so each scope that is entered is still left
  induction h with
  | nil => exact .nil
  | @other d e es he _ ih =>
      rw [List.filter_cons]
      split
      · exact .other he ih
      · exact ih
  | scope _ _ ihinner ih =>
      rw [List.cons_append, List.filter_cons_of_pos (hp _ rfl), List.filter_append,
        List.filter_cons_of_pos (hp _ rfl)]
      exact .scope ihinner ih

namespace Machine

variable {m : Machine} {es fs : List Effect}

/-- Effects are performed one after the other. -/
theorem perform_append : m.perform (es ++ fs) = (m.perform es).perform fs :=
  List.foldl_append

theorem perform_cons (m : Machine) (effect : Effect) (es : List Effect) :
    m.perform (effect :: es) = (m.after effect).perform es := rfl

/-- Noting an event has nothing to do with scopes. -/
theorem note_at (m : Machine) (e : Event) (scopes : Scopes) (current : Nat) :
    ({ m with scopes, current }).note e = { m.note e with scopes, current } := by
  unfold note
  dsimp only
  split
  · split <;> rfl
  · rfl

/-- What a machine shows does not depend on its scopes. -/
theorem perform_at (m : Machine) (es : List Effect) (scopes : Scopes) (current : Nat) :
    ({ m with scopes, current }).perform es = { m.perform es with scopes, current } := by
  induction es generalizing m with
  | nil => rfl
  | cons effect es ih =>
      cases effect with
      | noted e =>
          change (({ m with scopes, current }).note e).perform es = _
          rw [note_at, ih]
          rfl
      | printed text => exact ih (m.print text)
      | asked c => exact ih (m.ask c).2

/-- An open log gains the events of its level. -/
theorem log_perform (hopen : m.logOpen = true) :
    (m.perform es).log.toList =
      m.log.toList ++ (es.filterMap Effect.event?).filter fun e => e.level ≤ m.logLevel := by
  -- one effect at a time: only what is noted is logged, up to the level
  induction es generalizing m with
  | nil => simp [perform]
  | cons effect es ih =>
      cases effect with
      | noted e =>
          change ((m.note e).perform es).log.toList = _
          by_cases hlevel : e.level ≤ m.logLevel
          · have hnote : m.note e = { m with log := m.log.push e } := by
              rw [note, if_pos hlevel, if_pos hopen]
            rw [hnote, ih (m := { m with log := m.log.push e }) hopen]
            simp [Effect.event?, hlevel]
          · have hnote : m.note e = m := if_neg hlevel
            rw [hnote, ih hopen]
            simp [Effect.event?, hlevel]
      | printed text =>
          change ((m.print text).perform es).log.toList = _
          rw [ih (m := m.print text) hopen]
          rfl
      | asked c =>
          change ((m.ask c).2.perform es).log.toList = _
          rw [ih (m := (m.ask c).2) hopen]
          rfl

end Machine

/-- A step keeps its frame, and shows effects that tell of scopes in proper nesting. -/
structure Tells (targets declared : List Token) (m m' : Machine) : Prop where
  frame : Frame targets declared m m'
  effects : m.Proper → ∃ es, Nested m.depth (es.filterMap Effect.event?) ∧
    { m' with scopes := m.scopes } = m.perform es

namespace Tells

variable {A D : List Token} {m m' m'' : Machine}

theorem trans (h : Tells A D m m') (h' : Tells A D m' m'') : Tells A D m m'' where
  frame := h.frame.trans h'.frame
  effects hm := by
    rcases h.effects hm with ⟨es, hnested, heffects⟩
    rcases h'.effects (h.frame.proper hm) with ⟨fs, hnested', heffects'⟩
    rw [h.frame.depth_eq hm] at hnested'
    refine ⟨es ++ fs, ?_, ?_⟩
    · rw [List.filterMap_append]
      exact hnested.append hnested'
    · rw [Machine.perform_append, ← heffects, Machine.perform_at m' fs m.scopes m'.current,
        ← heffects', ← h'.frame.current]

theorem note (m : Machine) {e : Event} (he : e.isScope = false) : Tells A D m (m.note e) where
  frame := .note m e
  effects _ := by
    refine ⟨[.noted e], .other he .nil, ?_⟩
    change { m.note e with scopes := m.scopes } = m.note e
    unfold Machine.note
    split
    · split <;> rfl
    · rfl

/-- A scope is told of when it is entered and when it is left. -/
theorem scope (h : Tells A D m.enter m') : Tells A [] m (m'.leave m.current) where
  frame := h.frame.scope
  effects hm := by
    have hproper := Machine.enter_proper hm
    have hdepth : m'.scopes.depth m'.current = m.depth + 1 :=
      (h.frame.depth_eq hproper).trans (Machine.depth_enter hm)
    rcases h.effects hproper with ⟨es, hnested, heffects⟩
    rw [Machine.depth_enter hm] at hnested
    refine ⟨.noted (.entered (m.depth + 1)) :: es ++ [.noted (.left (m.depth + 1))], ?_, ?_⟩
    · rw [List.filterMap_append]
      exact .scope hnested .nil
    · -- apart from its scopes, the machine is that after entering and the effects within
      have hbegin : m.enter = { m.note (.entered (m.depth + 1)) with
          scopes := m.enter.scopes, current := m.enter.current } := by
        rw [← Machine.depth_enter hm]
        rfl
      have hsame : ∀ es, { m.perform es with scopes := m.scopes, current := m.current } =
          m.perform es := fun es => (Machine.perform_at m es m.scopes m.current).symm
      have hinner : { m' with scopes := m.scopes, current := m.current } =
          m.perform (.noted (.entered (m.depth + 1)) :: es) := by
        rw [hbegin, Machine.perform_at] at heffects
        rw [← hsame]
        exact congrArg (fun x : Machine => { x with scopes := m.scopes, current := m.current })
          heffects
      rw [Machine.perform_append, ← hinner]
      change { m'.note (.left (m'.scopes.depth m'.current)) with
        scopes := m.scopes, current := m.current } = Machine.note _ _
      rw [hdepth]
      exact (Machine.note_at m' _ m.scopes m.current).symm

end Tells

namespace Eval

theorem tells_invariant : Invariant Tells where
  refl _ := ⟨.of_scopes rfl rfl, fun _ => ⟨[], .nil, rfl⟩⟩
  trans := .trans
  mono hsub h := ⟨h.frame.mono hsub, h.effects⟩
  note m _ he := .note m he
  print _ text := ⟨.of_scopes rfl rfl, fun _ => ⟨[.printed text], .nil, rfl⟩⟩
  ask _ c := ⟨.of_scopes rfl rfl, fun _ => ⟨[.asked c], .nil, rfl⟩⟩
  assign ht h := ⟨.assign ht h, fun _ => ⟨[], .nil, rfl⟩⟩
  declare ht h := ⟨.declare ht h, fun _ => ⟨[], .nil, rfl⟩⟩
  scope := .scope

end Eval

end NovaLang
