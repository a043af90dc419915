import NovaLang.Grammar.Read
import NovaLang.Proofs.Grammar.Derivation

namespace NovaLang.Grammar

/-! # What proper trees stand for, production by production

A relation between nonterminals and what they can stand for holds of all proper trees if
it holds of what each production builds from parts that it holds of; and proper trees can
be built of such parts.
-/

/-- The symbols of a right-hand side stand for parts of these lexemes, with these meanings.
The part of a nonterminal is told by a relation; a part that ends in an `if` without an
`else` does not stand in front of an `else`. -/
inductive Parts (D : Nonterminal → Bool → List Lexeme → Meaning → Prop) :
    List Symbol → (opens : Bool) → List Lexeme → List Meaning → Prop where
  | nil : Parts D [] false [] []
  | leaf {k : Kind} {ss : List Symbol} {o : Bool} {l : Lexeme} {ls : List Lexeme}
      {ms : List Meaning} :
      l.kind = k → Parts D ss o ls ms → Parts D (.terminal k :: ss) o (l :: ls) (.lexeme l :: ms)
  | last {n : Nonterminal} {o : Bool} {ls : List Lexeme} {m : Meaning} :
      D n o ls m → Parts D [.nonterminal n] o ls [m]
  | inner {n : Nonterminal} {s : Symbol} {ss : List Symbol} {o o' : Bool} {ls us : List Lexeme}
      {m : Meaning} {ms : List Meaning} :
      D n o' us m → (o' = true → s ≠ .terminal .kwElse) → Parts D (s :: ss) o ls ms →
      Parts D (.nonterminal n :: s :: ss) o (us ++ ls) (m :: ms)

/-- A proper tree of a nonterminal has these lexemes and this meaning. -/
def Grown (n : Nonterminal) (o : Bool) (ls : List Lexeme) (m : Meaning) : Prop :=
  ∃ t : Tree, t.Proper ∧ t.symbol = .nonterminal n ∧ t.opens = o ∧ t.leaves = ls ∧
    t.meaning = .ok m

theorem meaning_branch_eq_ok {p : Nat} {ts : List Tree} {m : Meaning} :
    (Tree.branch p ts).meaning = .ok m ↔ ∃ ms, Tree.meanings ts = .ok ms ∧
      m = build (productionAt p).lhs ms ∧ argumentCount (productionAt p).lhs m ≤ maxArguments := by
  rw [Tree.meaning]
  cases Tree.meanings ts with
  | error e => simp [bind, Except.bind]
  | ok ms =>
      simp only [bind, Except.bind, Except.ok.injEq, exists_eq_left']
      split
      · rename_i h
        constructor
        · nofun
        · rintro ⟨rfl, hcount⟩
          omega
      · rename_i h
        rw [Except.ok.injEq]
        constructor
        · rintro rfl
          exact ⟨rfl, Nat.le_of_not_lt h⟩
        · exact fun h => h.1.symm

theorem meanings_cons_eq_ok {t : Tree} {ts : List Tree} {ms : List Meaning} :
    Tree.meanings (t :: ts) = .ok ms ↔
      ∃ m ms', t.meaning = .ok m ∧ Tree.meanings ts = .ok ms' ∧ ms = m :: ms' := by
  rw [Tree.meanings]
  cases t.meaning <;> cases Tree.meanings ts <;>
    simp [bind, Except.bind, pure, Except.pure, eq_comm]

/-- Parts that proper trees have are the parts of trees side by side. -/
theorem Parts.trees {ss : List Symbol} {o : Bool} {ls : List Lexeme} {ms : List Meaning}
    (h : Parts Grown ss o ls ms) :
    ∃ ts : List Tree, (∀ t ∈ ts, t.Proper) ∧ ts.map Tree.symbol = ss ∧ Tree.Nearest ts ∧
      Tree.lastOpens ts = o ∧ Tree.leavesOf ts = ls ∧ Tree.meanings ts = .ok ms := by
  induction h with
  | nil => exact ⟨[], by simp, rfl, .nil, rfl, rfl, rfl⟩
  | @leaf k ss o l ls ms hk _ ih =>
      obtain ⟨ts, hproper, hsymbols, hnearest, hopens, hleaves, hmeanings⟩ := ih
      refine ⟨.leaf l :: ts, List.forall_mem_cons.mpr ⟨.leaf l, hproper⟩, ?_, ?_, ?_, ?_, ?_⟩
      · simp [Tree.symbol, hk, hsymbols]
      · exact List.isChain_cons.mpr ⟨fun u _ => nofun, hnearest⟩
      · cases ts with
        | nil => exact hopens
        | cons t ts => exact hopens
      · simp [hleaves]
      · exact meanings_cons_eq_ok.mpr ⟨.lexeme l, ms, rfl, hmeanings, rfl⟩
  | @last n o ls m hm =>
      obtain ⟨t, ht, hsymbol, hopens, hleaves, hmeaning⟩ := hm
      exact ⟨[t], by simpa using ht, by simp [hsymbol], .singleton t, hopens, by simp [hleaves],
        meanings_cons_eq_ok.mpr ⟨m, [], hmeaning, rfl, rfl⟩⟩
  | @inner n s ss o o' ls us m ms hm helse _ ih =>
      obtain ⟨t, ht, hsymbol, hopens, hleaves, hmeaning⟩ := hm
      obtain ⟨ts, hproper, hsymbols, hnearest, hopens', hleaves', hmeanings⟩ := ih
      cases ts with
      | nil => cases hsymbols
      | cons u ts =>
          obtain ⟨rfl, rfl⟩ := List.cons_eq_cons.mp hsymbols
          refine ⟨t :: u :: ts, List.forall_mem_cons.mpr ⟨ht, hproper⟩, by simp [hsymbol],
            .cons_cons ?_ hnearest, hopens', ?_, ?_⟩
          · rw [hopens]
            exact helse
          · rw [Tree.leavesOf_cons, hleaves, hleaves']
          · exact meanings_cons_eq_ok.mpr ⟨m, ms, hmeaning, hmeanings, rfl⟩

/-- What a production builds from parts of proper trees is the meaning of one. -/
theorem Grown.of_parts {x : Production} {o : Bool} {ls : List Lexeme} {ms : List Meaning}
    (hx : x ∈ statementRules ++ expressionRules) (hgoal : x.lhs ≠ .goal)
    (h : Parts Grown x.rhs o ls ms) (hcount : argumentCount x.lhs (build x.lhs ms) ≤ maxArguments) :
    Grown x.lhs (x.isShortIf || o) ls (build x.lhs ms) := by
  obtain ⟨p, hp, rfl⟩ := exists_productionAt hx
  obtain ⟨ts, hproper, hsymbols, hnearest, hopens, hleaves, hmeanings⟩ := h.trees
  -- the first production is that of the goal, which is no part of a tree
  have hne : p ≠ 0 := by
    rintro rfl
    exact hgoal rfl
  refine ⟨.branch p ts, .branch hp hne hsymbols hnearest hproper, rfl, ?_, hleaves, ?_⟩
  · rw [Tree.opens_branch, hopens]
  · exact meaning_branch_eq_ok.mpr ⟨ms, hmeanings, rfl, hcount⟩

/-- Trees side by side are the parts of a right-hand side. -/
theorem Parts.of_trees {D : Nonterminal → Bool → List Lexeme → Meaning → Prop} {ts : List Tree}
    {ms : List Meaning} (hnearest : Tree.Nearest ts) (hmeanings : Tree.meanings ts = .ok ms)
    (h : ∀ t ∈ ts, ∀ n m, t.symbol = .nonterminal n → t.meaning = .ok m →
      D n t.opens t.leaves m) :
    Parts D (ts.map Tree.symbol) (Tree.lastOpens ts) (Tree.leavesOf ts) ms := by
  induction ts generalizing ms with
  | nil =>
      cases hmeanings
      exact .nil
  | cons t ts ih =>
      obtain ⟨m, ms', hmeaning, hmeanings', rfl⟩ := meanings_cons_eq_ok.mp hmeanings
      obtain ⟨ht, hts⟩ := List.forall_mem_cons.mp h
      have hrest := ih hnearest.of_cons hmeanings' hts
      cases t with
      | leaf l =>
          cases hmeaning
          cases ts with
          | nil => exact .leaf rfl hrest
          | cons u ts => exact .leaf rfl hrest
      | branch p children =>
          have hbranch := ht _ m rfl hmeaning
          cases ts with
          | nil =>
              cases hmeanings'
              rw [Tree.leavesOf_cons, Tree.leavesOf_nil, List.append_nil]
              exact .last hbranch
          | cons u ts => exact .inner hbranch hnearest.rel hrest

/-- What holds of all that productions build from parts it holds of, holds of all proper
trees. -/
theorem Grown.holds {D : Nonterminal → Bool → List Lexeme → Meaning → Prop}
    (step : ∀ {x : Production} {o : Bool} {ls : List Lexeme} {ms : List Meaning},
      x ∈ statementRules ++ expressionRules → Parts D x.rhs o ls ms →
      argumentCount x.lhs (build x.lhs ms) ≤ maxArguments →
      D x.lhs (x.isShortIf || o) ls (build x.lhs ms))
    {n : Nonterminal} {o : Bool} {ls : List Lexeme} {m : Meaning} (h : Grown n o ls m) :
    D n o ls m := by
  obtain ⟨t, ht, hsymbol, rfl, rfl, hmeaning⟩ := h
  induction ht generalizing n m with
  | leaf l => cases hsymbol
  | @branch p children hp hne hsymbols hnearest hchildren ih =>
      cases hsymbol
      obtain ⟨ms, hmeanings, rfl, hcount⟩ := meaning_branch_eq_ok.mp hmeaning
      have hparts := Parts.of_trees hnearest hmeanings fun t ht n m => ih t ht
      rw [hsymbols] at hparts
      exact step (productionAt_mem hp) hparts hcount

end NovaLang.Grammar
