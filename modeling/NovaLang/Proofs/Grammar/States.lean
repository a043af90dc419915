import Mathlib
import NovaLang.Proofs.Grammar.Checked

namespace NovaLang.Grammar

/-! # The states of a checked automaton

The check of an automaton, in the terms that the proofs use.
-/

/-! ## Comparisons -/

/-- Kinds are compared by number, which the kernel does faster than by `DecidableEq`. -/
theorem sameKind_iff {k l : Kind} : sameKind k l = true ↔ k = l := by
  refine ⟨fun h => ?_, fun h => h ▸ Nat.beq_refl _⟩
  rw [← Kind.ofNat_ctorIdx k, Nat.eq_of_beq_eq_true h, Kind.ofNat_ctorIdx]

/-- The numbers of kinds stay below those of nonterminals. -/
theorem kindIdx_lt (k : Kind) : k.ctorIdx < Kind.all.length := by
  cases k <;> decide

/-- So symbols, too, can be compared by number. -/
theorem Symbol.same_iff {s t : Symbol} : s.same t = true ↔ s = t := by
  refine ⟨fun h => ?_, fun h => h ▸ Nat.beq_refl _⟩
  have hcode : s.code = t.code := Nat.eq_of_beq_eq_true h
  cases s with
  | terminal k =>
      cases t with
      | terminal l => exact congrArg _ (sameKind_iff.mp h)
      -- the codes of nonterminals start where those of terminals end
      | nonterminal n =>
          have hlt : (Symbol.terminal k).code < (Symbol.nonterminal n).code :=
            Nat.lt_of_lt_of_le (kindIdx_lt k) (Nat.le_add_right _ _)
          exact absurd hcode (Nat.ne_of_lt hlt)
  | nonterminal m =>
      cases t with
      | terminal l =>
          have hlt : (Symbol.terminal l).code < (Symbol.nonterminal m).code :=
            Nat.lt_of_lt_of_le (kindIdx_lt l) (Nat.le_add_right _ _)
          exact absurd hcode (Nat.ne_of_gt hlt)
      | nonterminal n =>
          have hidx : m.ctorIdx = n.ctorIdx := Nat.add_left_cancel hcode
          rw [← Nonterminal.ofNat_ctorIdx m, hidx, Nonterminal.ofNat_ctorIdx]

theorem sameSymbols_iff : ∀ {ss ts : List Symbol}, sameSymbols ss ts = true ↔ ss = ts
  | [], [] => by simp [sameSymbols]
  | [], _ :: _ | _ :: _, [] => by simp [sameSymbols]
  | s :: ss, t :: ts => by simp [sameSymbols, Symbol.same_iff, sameSymbols_iff]

theorem hasItem_iff {items : List Item} {p : Nat} {after : List Symbol} :
    hasItem items p after = true ↔ ⟨p, after⟩ ∈ items := by
  rw [hasItem, List.any_eq_true]
  constructor
  · rintro ⟨⟨q, ss⟩, hmem, hsame⟩
    rw [Bool.and_eq_true, Nat.beq_eq, sameSymbols_iff] at hsame
    obtain ⟨rfl, rfl⟩ := hsame
    exact hmem
  · exact fun h => ⟨_, h, by rw [Bool.and_eq_true, Nat.beq_eq, sameSymbols_iff]; exact ⟨rfl, rfl⟩⟩

/-- The check runs through every symbol. -/
theorem mem_symbols (s : Symbol) : s ∈ symbols := by
  cases s with
  | terminal k => exact List.mem_append_left _ (List.mem_map_of_mem (Kind.mem_all k))
  | nonterminal n => exact List.mem_append_right _ (List.mem_map_of_mem (by cases n <;> decide))

/-! ## Productions -/

/-- A production is found among the alternatives of its own left-hand side. -/
theorem mem_alternativesOf {p : Nat} (hp : p < productions.size) :
    (productionAt p, p) ∈ alternativesOf (productionAt p).lhs := by
  have hlhs : ∀ n : Nonterminal, alternativesOf n =
      numbered.filter fun e => e.1.lhs.ctorIdx.beq n.ctorIdx := by
    intro n
    cases n <;> rfl
  rw [hlhs, List.mem_filter, productionAt_eq hp]
  exact ⟨List.mem_zipIdx_iff_getElem?.mpr (by simp [hp]), Nat.beq_refl _⟩

namespace Automaton

variable {a : Automaton} {cores : List (List Item)} {q r : Nat}

/-! ## Actions -/

/-- Moving over a terminal is shifting it. -/
theorem target_terminal {k : Kind} :
    a.target? q (.terminal k) = some r ↔ a.action? q k = some (.shift r) := by
  rw [target?]
  split
  · rename_i h
    rw [h, Option.some_inj, Option.some_inj, Action.shift.injEq]
  · rename_i h
    exact ⟨nofun, fun hr => absurd hr (h r)⟩

theorem reducesBy_iff {k : Kind} {p : Nat} :
    a.reducesBy q k p = true ↔ a.action? q k = some (.reduce p) := by
  rw [reducesBy]
  split
  · rename_i h
    rw [h, Nat.beq_eq, Option.some_inj, Action.reduce.injEq]
  · rename_i h
    exact ⟨nofun, fun hp => absurd hp (h p)⟩

/-- A walk over several symbols is a walk over the first and then over the others. -/
theorem walk_cons {s : Symbol} {ss : List Symbol} :
    a.walk? q (s :: ss) = some r ↔ ∃ q', a.target? q s = some q' ∧ a.walk? q' ss = some r := by
  rw [walk?]
  cases a.target? q s <;> simp

/-! ## Items -/

/-- A state holds the item of a production with these symbols after the dot. -/
def HasItem (cores : List (List Item)) (q p : Nat) (after : List Symbol) : Prop :=
  ∃ core, cores[q]? = some core ∧ ⟨p, after⟩ ∈ core

/-- The number is that of a state. -/
def IsState (cores : List (List Item)) (q : Nat) : Prop := ∃ core, cores[q]? = some core

section

variable (ha : a.checked cores = true)
include ha

/-- The automaton starts in front of the goal. -/
theorem core_zero : cores[0]? = some [⟨0, (productionAt 0).rhs⟩] := by
  have hgoal := (Bool.and_eq_true_iff.mp (Bool.and_eq_true_iff.mp ha).1).1
  split at hgoal
  · rw [Bool.and_eq_true, Nat.beq_eq, sameSymbols_iff] at hgoal
    obtain ⟨rfl, rfl⟩ := hgoal
    rfl
  · cases hgoal

/-- The automaton starts in a state that was checked. -/
theorem isState_zero : IsState cores 0 := ⟨_, core_zero ha⟩

/-- It starts before the first production, and before no other. -/
theorem hasItem_zero {p : Nat} {after : List Symbol} (h : HasItem cores 0 p after) :
    p = 0 ∧ after = (productionAt 0).rhs := by
  obtain ⟨core, hcore, hmem⟩ := h
  cases (core_zero ha).symm.trans hcore
  cases List.mem_singleton.mp hmem
  exact ⟨rfl, rfl⟩

/-- The program is the whole of the input where the end of the input follows. -/
theorem goal_finished :
    ∃ r, a.target? 0 (.nonterminal .program) = some r ∧ a.action? r .eof = some (.reduce 0) := by
  have hgoal := (Bool.and_eq_true_iff.mp (Bool.and_eq_true_iff.mp ha).1).2
  split at hgoal
  · rename_i r hr
    exact ⟨r, hr, reducesBy_iff.mp hgoal⟩
  · cases hgoal

variable (hq : IsState cores q)
include hq

/-! ## States -/

/-- What the check has found out about one state. -/
theorem state_checked :
    ∃ core, cores[q]? = some core ∧ a.movesChecked cores q core = true ∧
      a.actionsChecked q core = true ∧ a.passagesChecked q = true ∧ a.kindsChecked q = true := by
  obtain ⟨core, hcore⟩ := hq
  have hall := (Bool.and_eq_true_iff.mp ha).2
  have hstate : a.stateChecked cores q core = true :=
    List.all_eq_true.mp hall (core, q) (List.mem_zipIdx_iff_getElem?.mpr hcore)
  simp only [stateChecked, Bool.and_eq_true, and_assoc] at hstate
  exact ⟨core, hcore, hstate⟩

/-- The states that were checked are closed under moves, ... -/
theorem isState_target {s : Symbol} (h : a.target? q s = some r) : IsState cores r := by
  obtain ⟨_, -, hmoves, -⟩ := state_checked ha hq
  have hs := List.all_eq_true.mp hmoves s (mem_symbols s)
  simp only [h, Bool.and_eq_true] at hs
  cases hr : cores[r]? with
  | none => simp [hr] at hs
  | some core => exact ⟨core, hr⟩

/-- ... and so under walks. -/
theorem isState_walk {ss : List Symbol} (h : a.walk? q ss = some r) : IsState cores r := by
  induction ss generalizing q with
  | nil =>
      cases h
      exact hq
  | cons s ss ih =>
      obtain ⟨q', htarget, hwalk⟩ := walk_cons.mp h
      exact ih (isState_target ha hq htarget) hwalk

/-- An item of a state that a symbol leads to has come over that symbol. -/
theorem item_of_target {s : Symbol} (h : a.target? q s = some r) {p : Nat}
    {after : List Symbol} (hitem : HasItem cores r p after) :
    HasItem cores q p (s :: after) ∨ p ≠ 0 ∧ (productionAt p).rhs = s :: after := by
  obtain ⟨core, hcore, hmoves, -⟩ := state_checked ha hq
  obtain ⟨core', hcore', hmem⟩ := hitem
  have hs := List.all_eq_true.mp hmoves s (mem_symbols s)
  simp only [h, hcore', Bool.and_eq_true] at hs
  -- the check steps every item of the target back over the symbol
  have hback : retreats core s ⟨p, after⟩ = true := by
    cases core' with
    | nil => cases hmem
    | cons i is => exact List.all_eq_true.mp hs.1 _ hmem
  simp only [retreats, Bool.or_eq_true, Bool.and_eq_true, hasItem_iff, sameSymbols_iff,
    Bool.not_eq_true'] at hback
  exact hback.imp (fun hi => ⟨core, hcore, hi⟩) fun ⟨hp, hrhs⟩ => ⟨Nat.ne_of_beq_eq_false hp, hrhs⟩

/-- No equals sign is accepted after a mark that one may extend. -/
theorem accepted_of_extensible {k l : Kind} (hk : extensible k = true)
    (h : a.target? q (.terminal k) = some r) (hl : l ∈ a.accepted r) : equals l = false := by
  obtain ⟨_, -, hmoves, -⟩ := state_checked ha hq
  have hs := List.all_eq_true.mp hmoves _ (mem_symbols (.terminal k))
  simp only [h, Bool.and_eq_true, hk, Bool.not_true, Bool.false_or, List.all_eq_true] at hs
  simpa using hs.2 l hl

/-- A kind with an action is accepted. -/
theorem mem_accepted {k : Kind} {action : Action} (h : a.action? q k = some action) :
    k ∈ a.accepted q := by
  obtain ⟨_, -, -, hactions, -⟩ := state_checked ha hq
  have hk := List.all_eq_true.mp hactions k (Kind.mem_all k)
  simp only [h, Bool.and_eq_true, List.any_eq_true] at hk
  obtain ⟨l, hl, hsame⟩ := hk.1
  exact sameKind_iff.mp hsame ▸ hl

/-- A production is reduced where it is finished, and an `if` without an `else` only where
no `else` follows. -/
theorem finished_of_reduce {k : Kind} {p : Nat} (h : a.action? q k = some (.reduce p)) :
    p < productions.size ∧ (HasItem cores q p [] ∨ (productionAt p).rhs = []) ∧
      ((productionAt p).isShortIf = true → k ≠ .kwElse) := by
  obtain ⟨core, hcore, -, hactions, -⟩ := state_checked ha hq
  have hk := List.all_eq_true.mp hactions k (Kind.mem_all k)
  simp only [h, Bool.and_eq_true, Bool.or_eq_true, hasItem_iff, Bool.not_eq_true',
    List.isEmpty_iff] at hk
  obtain ⟨-, ⟨hlt, hfinished⟩, helse⟩ := hk
  refine ⟨Nat.blt_eq.mp hlt, hfinished.imp_left fun hi => ⟨core, hcore, hi⟩, ?_⟩
  rintro hshort rfl
  rw [hshort] at helse
  exact absurd helse (by decide)

/-- Where a nonterminal is awaited, each of its productions leads to a state that reduces
it under the kinds accepted behind the nonterminal. -/
theorem passage {p : Nat} (hp : p < productions.size)
    (h : a.goto? q (productionAt p).lhs = some r) :
    ∃ s, a.walk? q (productionAt p).rhs = some s ∧
      ∀ k ∈ a.accepted r, ((productionAt p).isShortIf = true → k ≠ .kwElse) →
        a.action? s k = some (.reduce p) := by
  obtain ⟨-, -, -, -, hpassages, -⟩ := state_checked ha hq
  have hn : (productionAt p).lhs ∈ nonterminals := by
    generalize (productionAt p).lhs = n
    cases n <;> decide
  have hs := List.all_eq_true.mp hpassages _ hn
  simp only [h, List.all_eq_true] at hs
  -- the goto of a left-hand side is checked against the walk over each of its right-hand sides
  have hwalk := hs _ (mem_alternativesOf hp)
  cases hs : a.walk? q (productionAt p).rhs with
  | none => simp [hs] at hwalk
  | some s =>
      simp only [hs, List.all_eq_true, Bool.or_eq_true, Bool.and_eq_true, sameKind_iff,
        reducesBy_iff] at hwalk
      exact ⟨s, rfl, fun k hk helse => (hwalk k hk).resolve_left fun ⟨hk, hshort⟩ => helse hshort hk⟩

/-- Nothing but terminals and the end is accepted. -/
theorem kind_of_accepted {k : Kind} (hk : k ∈ a.accepted q) : k = .eof ∨ k ∈ terminals := by
  obtain ⟨-, -, -, -, -, hkinds⟩ := state_checked ha hq
  have h := List.all_eq_true.mp hkinds k hk
  simp only [Bool.or_eq_true, sameKind_iff, List.any_eq_true] at h
  exact h.imp_right fun ⟨l, hl, hsame⟩ => hsame ▸ hl

end

end Automaton

end NovaLang.Grammar
