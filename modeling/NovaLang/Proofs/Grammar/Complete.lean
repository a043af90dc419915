import NovaLang.Proofs.Grammar.Lexing
import NovaLang.Proofs.Grammar.States

namespace NovaLang.Grammar

/-! # Runs of the automaton are complete

Every proper tree is found: where its symbol leads from a state, a run that begins there
shifts its lexemes and reduces its branches, if what follows is accepted behind it. A
text that spells the lexemes of a program leads the automaton through such a run.
-/

/-! ## Productions -/

theorem rhs_ne_nil : ∀ p < productions.size, (productionAt p).lhs ≠ .program →
    (productionAt p).rhs ≠ [] := by
  decide

/-- The program is a part of the goal only. -/
theorem program_notMem : ∀ p < productions.size, p ≠ 0 →
    .nonterminal .program ∉ (productionAt p).rhs := by
  decide

theorem else_not_first : ∀ p < productions.size,
    (productionAt p).rhs.head? ≠ some (.terminal .kwElse) := by
  decide

/-- A bound on the number of reductions to single symbols that lead to a nonterminal. -/
def Nonterminal.rank : Nonterminal → Nat
  | .primary => 1
  | .call => 2
  | .unary => 3
  | .factor => 4
  | .term => 5
  | .comparison => 6
  | .equality => 7
  | .conjunction => 8
  | .disjunction => 9
  | .assignment => 10
  | .expression => 11
  | .arguments => 12
  | .statement | .forInit => 1
  | .declaration => 2
  | .declarationList => 3
  | .program => 4
  | _ => 0

/-- The rank of the nonterminal, or zero. -/
def Symbol.rank : Symbol → Nat
  | .terminal _ => 0
  | .nonterminal n => n.rank

theorem Symbol.rank_lt (s : Symbol) : s.rank < nonterminals.length := by
  cases s with
  | terminal => exact Nat.zero_lt_succ _
  | nonterminal n => cases n <;> decide

theorem rank_lt_of_single : ∀ p < productions.size, p ≠ 0 →
    ∀ s ∈ (productionAt p).rhs, (productionAt p).rhs.length = 1 →
      s.rank < (productionAt p).lhs.rank := by
  decide

/-! ## First lexemes -/

namespace Tree

/-- What a child of a tree can be. -/
theorem Proper.symbol_of_mem {p : Nat} {ts : List Tree} (hp : p < productions.size) (hne : p ≠ 0)
    (hsymbols : ts.map symbol = (productionAt p).rhs) :
    ∀ t ∈ ts, t.symbol ≠ .nonterminal .program := by
  intro t ht hprogram
  exact program_notMem p hp hne (hsymbols ▸ hprogram ▸ List.mem_map_of_mem ht)

/-- Only a program can be without lexemes. -/
theorem Proper.leaves_ne_nil {t : Tree} (ht : t.Proper)
    (hprogram : t.symbol ≠ .nonterminal .program) : t.leaves ≠ [] := by
  induction ht with
  | leaf l => simp
  | @branch p children hp hne hsymbols _ _ ih =>
      cases children with
      | nil => exact absurd hsymbols.symm (rhs_ne_nil p hp fun h => hprogram (congrArg _ h))
      | cons c cs =>
          have hc := ih c List.mem_cons_self (symbol_of_mem hp hne hsymbols c List.mem_cons_self)
          simp [hc]

/-- Where the symbol of a tree leads on, its first lexeme is accepted. It is an `else` only
where the tree is. -/
theorem Proper.first {a : Automaton} {cores : List (List Item)} (ha : a.checked cores = true)
    {t : Tree} (ht : t.Proper) (hprogram : t.symbol ≠ .nonterminal .program) {q r : Nat}
    (hq : Automaton.IsState cores q) (htarget : a.target? q t.symbol = some r) :
    ∃ l ls, t.leaves = l :: ls ∧ l.kind ∈ a.accepted q ∧
      (t.symbol ≠ .terminal .kwElse → l.kind ≠ .kwElse) := by
  induction ht generalizing r with
  | leaf l =>
      refine ⟨l, [], rfl, ?_, fun hl hk => hl (congrArg _ hk)⟩
      exact Automaton.mem_accepted ha hq (Automaton.target_terminal.mp htarget)
  | @branch p children hp hne hsymbols _ hchildren ih =>
      obtain ⟨s, hwalk, -⟩ := Automaton.passage ha hq hp htarget
      rw [← hsymbols] at hwalk
      cases children with
      | nil =>
          exact absurd hsymbols.symm (rhs_ne_nil p hp fun h => hprogram (congrArg _ h))
      | cons c cs =>
          obtain ⟨q', hfirst, -⟩ := Automaton.walk_cons.mp hwalk
          obtain ⟨l, ls, hleaves, haccepted, helse⟩ := ih c List.mem_cons_self
            (symbol_of_mem hp hne hsymbols c List.mem_cons_self) hfirst
          refine ⟨l, ls ++ leavesOf cs, by simp [hleaves], haccepted, fun _ => helse ?_⟩
          -- a production does not begin with an `else`, and neither does its first child
          have hhead := else_not_first p hp
          rw [← hsymbols, List.map_cons, List.head?_cons, ne_eq, Option.some_inj] at hhead
          exact hhead

end Tree

/-! ## Runs -/

/-- The kind of the first of some lexemes; behind the last one the input ends. -/
def front : List Lexeme → Kind
  | [] => .eof
  | l :: _ => l.kind

/-- A run from a stack in front of some lexemes to another one in front of the rest. -/
inductive Automaton.Runs (a : Automaton) : Stack → List Lexeme → Stack → List Lexeme → Prop where
  | refl {s : Stack} {ls : List Lexeme} : Runs a s ls s ls
  | reduce {es s s' : Stack} {ls rest : List Lexeme} {p r : Nat} :
      p < productions.size → p ≠ 0 → es ≠ [] →
      es.reverse.map (·.2.symbol) = (productionAt p).rhs →
      a.action? (Stack.state (es ++ s)) (front ls) = some (.reduce p) →
      a.goto? s.state (productionAt p).lhs = some r →
      Runs a ((r, .branch p (es.reverse.map (·.2))) :: s) ls s' rest → Runs a (es ++ s) ls s' rest
  | shift {s s' : Stack} {l : Lexeme} {ls rest : List Lexeme} {q : Nat} :
      a.action? s.state l.kind = some (.shift q) → Runs a ((q, .leaf l) :: s) ls s' rest →
      Runs a s (l :: ls) s' rest

namespace Automaton

variable {a : Automaton} {cores : List (List Item)}

theorem Runs.trans {s s' s'' : Stack} {ls ls' ls'' : List Lexeme} (h : a.Runs s ls s' ls')
    (h' : a.Runs s' ls' s'' ls'') : a.Runs s ls s'' ls'' := by
  induction h with
  | refl => exact h'
  | reduce hp hne hes hsymbols haction hgoto _ ih =>
      exact .reduce hp hne hes hsymbols haction hgoto (ih h')
  | shift haction _ ih => exact .shift haction (ih h')

/-- A run over a tree. -/
def RunsOver (a : Automaton) (cores : List (List Item)) (t : Tree) : Prop :=
  ∀ {s : Stack} {r : Nat} {rest : List Lexeme}, IsState cores s.state →
    a.target? s.state t.symbol = some r → front rest ∈ a.accepted r →
    (t.opens = true → front rest ≠ .kwElse) → a.Runs s (t.leaves ++ rest) ((r, t) :: s) rest

/-- A run over trees that stand side by side, each run over by itself. -/
theorem runs_over_all (ha : a.checked cores = true) {ts : List Tree}
    (hproper : ∀ t ∈ ts, t.Proper) (hprogram : ∀ t ∈ ts, t.symbol ≠ .nonterminal .program)
    (hnearest : Tree.Nearest ts) (hruns : ∀ t ∈ ts, RunsOver a cores t) {s : Stack} {z : Nat}
    {rest : List Lexeme} (hs : IsState cores s.state)
    (hwalk : a.walk? s.state (ts.map Tree.symbol) = some z) (hrest : front rest ∈ a.accepted z)
    (helse : Tree.lastOpens ts = true → front rest ≠ .kwElse) :
    ∃ es : Stack, es.reverse.map (·.2) = ts ∧ Stack.state (es ++ s) = z ∧
      a.Runs s (Tree.leavesOf ts ++ rest) (es ++ s) rest := by
  induction ts generalizing s with
  | nil => exact ⟨[], rfl, Option.some_inj.mp hwalk, .refl⟩
  | cons t us ih =>
      rw [List.map_cons] at hwalk
      obtain ⟨r, htarget, hwalk⟩ := walk_cons.mp hwalk
      have hr := isState_target ha hs htarget
      obtain ⟨ht, hproper⟩ := List.forall_mem_cons.mp hproper
      obtain ⟨-, hprogram⟩ := List.forall_mem_cons.mp hprogram
      obtain ⟨hrun, hruns⟩ := List.forall_mem_cons.mp hruns
      -- what follows the first tree is the first lexeme of the second one, or of the rest
      have hnext : front (Tree.leavesOf us ++ rest) ∈ a.accepted r ∧
          (t.opens = true → front (Tree.leavesOf us ++ rest) ≠ .kwElse) := by
        cases us with
        | nil =>
            cases hwalk
            exact ⟨hrest, helse⟩
        | cons u us =>
            rw [List.map_cons] at hwalk
            obtain ⟨r', htarget', -⟩ := walk_cons.mp hwalk
            obtain ⟨l, ls, hleaves, haccepted, hne⟩ := Tree.Proper.first ha
              (hproper u List.mem_cons_self) (hprogram u List.mem_cons_self) hr htarget'
            rw [Tree.leavesOf_cons, hleaves]
            exact ⟨haccepted, fun hopens => hne (hnearest.rel hopens)⟩
      have hlast : Tree.lastOpens us = true → front rest ≠ .kwElse := by
        cases us with
        | nil => exact fun h => absurd h (by decide)
        | cons u us => exact helse
      obtain ⟨es, hes, hstate, hrest'⟩ := ih hproper hprogram hnearest.of_cons hruns
        (s := (r, t) :: s) hr hwalk hlast
      refine ⟨es ++ [(r, t)], by simp [hes], by simpa using hstate, ?_⟩
      rw [Tree.leavesOf_cons, List.append_assoc, List.append_assoc]
      exact (hrun hs htarget hnext.1 hnext.2).trans hrest'

/-- Every proper tree of at least one lexeme is run over. -/
theorem runs_over (ha : a.checked cores = true) {t : Tree} (ht : t.Proper)
    (hleaves : t.leaves ≠ []) : RunsOver a cores t := by
  induction ht with
  | leaf l =>
      intro s r rest hs htarget hrest helse
      exact .shift (target_terminal.mp htarget) .refl
  | @branch p children hp hne hsymbols hnearest hchildren ih =>
      intro s r rest hs htarget hrest helse
      have hprogram := Tree.Proper.symbol_of_mem hp hne hsymbols
      obtain ⟨z, hwalk, haction⟩ := passage ha hs hp htarget
      rw [← hsymbols] at hwalk
      have hshort : (productionAt p).isShortIf = true → front rest ≠ .kwElse := by
        intro hshort
        exact helse (by rw [Tree.opens_branch, hshort, Bool.true_or])
      have hlast : Tree.lastOpens children = true → front rest ≠ .kwElse := by
        intro hlast
        exact helse (by rw [Tree.opens_branch, hlast, Bool.or_true])
      -- at the end of the production the state reduces it, whatever is accepted behind it
      have hreduce := haction _ hrest hshort
      have hz : IsState cores z := isState_walk ha hs hwalk
      have hruns : ∀ c ∈ children, RunsOver a cores c := by
        intro c hc
        exact ih c hc ((hchildren c hc).leaves_ne_nil (hprogram c hc))
      obtain ⟨es, hes, hstate, hrun⟩ := runs_over_all ha hchildren hprogram hnearest hruns hs hwalk
        (mem_accepted ha hz hreduce) hlast
      refine hrun.trans ?_
      rw [← hstate] at hreduce
      have hspelled : es.reverse.map (·.2.symbol) = (productionAt p).rhs := by
        rw [← hsymbols, ← hes, List.map_map]
        rfl
      have hes' : es ≠ [] := by
        rintro rfl
        subst hes
        exact hleaves rfl
      have hfinish := Runs.reduce hp hne hes' hspelled hreduce htarget .refl
      rwa [hes] at hfinish

/-! ## Offering tokens -/

/-- A bound on the reductions that can follow on a stack. -/
def potential (s : Stack) : Nat :=
  nonterminals.length * (s.length + 1) - (s.head?.map (·.2.symbol.rank)).getD 0

theorem potential_lt_bound (s : Stack) : potential s < s.bound := by
  have hpos : 0 < nonterminals.length := by decide
  simp only [potential, Stack.bound, Nat.mul_add]
  omega

/-- A reduction leaves less to be reduced. -/
theorem potential_reduce {es s : Stack} {p r : Nat} (hp : p < productions.size) (hne : p ≠ 0)
    (hes : es ≠ []) (hsymbols : es.reverse.map (·.2.symbol) = (productionAt p).rhs)
    (children : List Tree) :
    potential ((r, .branch p children) :: s) < potential (es ++ s) := by
  have hlhs : (Tree.branch p children).symbol = .nonterminal (productionAt p).lhs := rfl
  have hbound := Symbol.rank_lt (.nonterminal (productionAt p).lhs)
  cases es with
  | nil => exact absurd rfl hes
  | cons e es =>
      have hrank := e.2.symbol.rank_lt
      simp only [potential, List.cons_append, List.head?_cons, Option.map_some, Option.getD_some,
        List.length_cons, List.length_append, Nat.mul_add, Nat.mul_one, hlhs]
      cases es with
      | nil =>
          -- a single symbol gives way to one of a higher rank
          have hhigher := rank_lt_of_single p hp hne e.2.symbol
            (by rw [← hsymbols]; simp) (by rw [← hsymbols]; simp)
          have hlhsRank : (Symbol.nonterminal (productionAt p).lhs).rank = (productionAt p).lhs.rank :=
            rfl
          simp only [List.length_nil, Nat.mul_zero]
          omega
      | cons e' es =>
          -- the stack becomes shorter
          simp only [List.length_cons, Nat.mul_add, Nat.mul_one]
          omega

theorem reduce_append (a : Automaton) {es s : Stack} {p r : Nat}
    (hsymbols : es.reverse.map (·.2.symbol) = (productionAt p).rhs)
    (hgoto : a.goto? s.state (productionAt p).lhs = some r) :
    a.reduce? p (es ++ s) = some ((r, .branch p (es.reverse.map (·.2))) :: s) := by
  have hlength : (productionAt p).rhs.length = es.length := by
    rw [← hsymbols, List.length_map, List.length_reverse]
  rw [reduce?]
  simp only [hlength, List.drop_left, List.take_left, hgoto, Option.map_some, List.map_reverse]

theorem offer_reduce {k : Kind} {p : Nat} {s s' : Stack} (count : Nat)
    (haction : a.action? s.state k = some (.reduce p)) (hp : p ≠ 0)
    (hreduce : a.reduce? p s = some s') : a.offer k (count + 1) s = a.offer k count s' := by
  obtain ⟨p, rfl⟩ := Nat.exists_eq_succ_of_ne_zero hp
  simp only [offer, haction, hreduce]

theorem offer_shift {k : Kind} {q : Nat} {s : Stack} (count : Nat)
    (haction : a.action? s.state k = some (.shift q)) :
    a.offer k (count + 1) s = .shift s q := by
  simp only [offer, haction]

/-- The states on a stack are states of the automaton. -/
def Stands (cores : List (List Item)) (s : Stack) : Prop := ∀ e ∈ s, IsState cores e.1

theorem Stands.isState (ha : a.checked cores = true) {s : Stack} (hs : Stands cores s) :
    IsState cores s.state := by
  cases s with
  | nil => exact isState_zero ha
  | cons e s => exact hs e List.mem_cons_self

/-- What is offered at a stack that a run leads on from is shifted in the end. -/
theorem offer_of_runs (ha : a.checked cores = true) {s f : Stack} {l : Lexeme}
    {ls ls' rest : List Lexeme} {count : Nat} (h : a.Runs s ls' f rest) (hls : ls' = l :: ls)
    (hrest : rest = [])
    (hs : Stands cores s) (hcount : potential s < count) :
    ∃ s' q, a.offer l.kind count s = .shift s' q ∧ Stands cores ((q, .leaf l) :: s') ∧
      a.Runs ((q, .leaf l) :: s') ls f [] := by
  induction h generalizing count with
  | refl =>
      subst hrest
      cases hls
  | @reduce es s s' ls' rest p r hp hne hes hsymbols haction hgoto hrun ih =>
      subst hls
      obtain ⟨n, rfl⟩ : ∃ n, count = n + 1 := ⟨count - 1, by omega⟩
      have hless := potential_reduce (r := r) (s := s) hp hne hes hsymbols (es.reverse.map (·.2))
      have hbelow : Stands cores s := fun e he => hs e (List.mem_append_right _ he)
      have hr : IsState cores r :=
        isState_target ha (hbelow.isState ha) (s := .nonterminal (productionAt p).lhs) hgoto
      obtain ⟨s'', q, hoffer, hruns⟩ :=
        @ih n rfl hrest (List.forall_mem_cons.mpr ⟨hr, hbelow⟩) (by omega)
      refine ⟨s'', q, ?_, hruns⟩
      rw [← hoffer]
      exact offer_reduce n haction hne (reduce_append a hsymbols hgoto)
  | @shift s s' l' ls' rest q haction hrun ih =>
      cases hls
      subst hrest
      obtain ⟨n, rfl⟩ : ∃ n, count = n + 1 := ⟨count - 1, by omega⟩
      have hq := isState_target ha (hs.isState ha) (target_terminal.mpr haction)
      exact ⟨s, q, offer_shift n haction, List.forall_mem_cons.mpr ⟨hq, hs⟩, hrun⟩

/-- At the end of a run over a program its tree is found. -/
theorem offer_of_end {s f : Stack} {t : Tree} {r count : Nat} {ls rest : List Lexeme}
    (h : a.Runs s ls f rest) (hls : ls = []) (hf : f = [(r, t)])
    (hgoal : a.action? r .eof = some (.reduce 0)) (hcount : potential s < count) :
    a.offer .eof count s = .done t := by
  induction h generalizing count with
  | refl =>
      subst hf
      obtain ⟨n, rfl⟩ : ∃ n, count = n + 1 := ⟨count - 1, by omega⟩
      simp only [offer, Stack.state, hgoal]
  | @reduce es s s' ls' rest p r' hp hne hes hsymbols haction hgoto hrun ih =>
      subst hls
      obtain ⟨n, rfl⟩ : ∃ n, count = n + 1 := ⟨count - 1, by omega⟩
      have hless := potential_reduce (r := r') (s := s) hp hne hes hsymbols (es.reverse.map (·.2))
      rw [← @ih n rfl hf (by omega)]
      exact offer_reduce n haction hne (reduce_append a hsymbols hgoto)
  | shift => cases hls

/-! ## Texts -/

/-- The first step of a run asks for what comes next. -/
theorem mem_accepted_of_runs (ha : a.checked cores = true) {s f : Stack} {ls : List Lexeme}
    {l : Lexeme} (hs : IsState cores s.state) (h : a.Runs s (l :: ls) f []) :
    l.kind ∈ a.accepted s.state := by
  cases h with
  | reduce _ _ _ _ haction => exact mem_accepted ha hs haction
  | shift haction => exact mem_accepted ha hs haction

/-- A run over the lexemes that a text spells is what reading the text does. -/
theorem read_of_runs (ha : a.checked cores = true) {last line : Int} {count : Nat} {s : Stack}
    {t : Tree} {r : Nat} {ls : List Lexeme} {cs : List Char} (hs : Stands cores s)
    (hruns : a.Runs s ls [(r, t)] []) (hgoal : a.action? r .eof = some (.reduce 0))
    (hspells : Spells line cs ls) (hcount : ls.length < count) :
    a.read last count s line cs = .ok t := by
  induction ls generalizing s line cs count with
  | nil =>
      obtain ⟨n, rfl⟩ : ∃ n, count = n + 1 := ⟨count - 1, by simp at hcount; omega⟩
      rw [read, hspells.next_nil, offer_of_end hruns rfl rfl hgoal (potential_lt_bound s)]
  | cons l ls ih =>
      obtain ⟨n, rfl⟩ : ∃ n, count = n + 1 := ⟨count - 1, by simp at hcount; omega⟩
      have hstate := hs.isState ha
      -- the state accepts the next lexeme of the run, so that is the one that is cut
      obtain ⟨rest, hnext, hspells'⟩ := hspells.next (fun k hk => kind_of_accepted ha hstate hk)
        (mem_accepted_of_runs ha hstate hruns)
      obtain ⟨s', q, hoffer, hs', hruns'⟩ :=
        offer_of_runs ha hruns rfl rfl hs (potential_lt_bound s)
      simp only [read, hnext, hoffer]
      exact ih hs' hruns' hspells' (by simpa using hcount)

end Automaton

/-- The program without declarations is found where nothing but the end follows. -/
theorem Automaton.read_empty {a : Automaton} {cores : List (List Item)}
    (ha : a.checked cores = true) {last line : Int} {count p : Nat} {cs : List Char}
    (hp : p < productions.size) (hlhs : (productionAt p).lhs = .program)
    (hrhs : (productionAt p).rhs = []) (hspells : Spells line cs []) :
    a.read last (count + 1) [] line cs = .ok (.branch p []) := by
  obtain ⟨r, htarget, hgoal⟩ := goal_finished ha
  have hzero := isState_zero ha
  have heof := mem_accepted ha (isState_target ha hzero htarget) hgoal
  obtain ⟨z, hwalk, haction⟩ := passage ha hzero hp (r := r) (by rw [hlhs]; exact htarget)
  rw [hrhs] at hwalk
  cases hwalk
  have hreduce : a.reduce? p [] = some [(r, .branch p [])] :=
    @reduce_append a [] [] p r (by rw [hrhs]; rfl) (by rw [hlhs]; exact htarget)
  have hne : p ≠ 0 := by
    rintro rfl
    cases hrhs
  have hfirst : a.offer .eof 64 [] = a.offer .eof 63 [(r, .branch p [])] :=
    offer_reduce 63 (haction .eof heof fun _ => by decide) hne hreduce
  have hsecond : a.offer .eof 63 [(r, .branch p [])] = .done (.branch p []) := by
    simp only [offer, Stack.state, hgoal]
  have hbound : Stack.bound [] = 64 := rfl
  rw [read, hspells.next_nil, hbound, hfirst, hsecond]

/-- The tree of a program is found in every text that spells its lexemes. -/
theorem Tree.ofSource_complete {source : String} {t : Tree} (ht : t.Proper)
    (hprogram : t.symbol = .nonterminal .program) (hspells : Spells 1 source.toList t.leaves) :
    Tree.ofSource source = .ok t := by
  have hzero := Automaton.isState_zero lalr_checked
  obtain ⟨r, htarget, hgoal⟩ := Automaton.goal_finished lalr_checked
  have heof : Kind.eof ∈ lalr.accepted r :=
    Automaton.mem_accepted lalr_checked (Automaton.isState_target lalr_checked hzero htarget) hgoal
  have hcount := Nat.lt_succ_of_le hspells.length_le
  unfold Tree.ofSource
  -- only the empty program has no lexemes, and there is no run over what has none
  by_cases hleaves : t.leaves = []
  · rw [hleaves] at hspells
    cases ht with
    | leaf => cases hprogram
    | @branch p children hp hne hsymbols _ hchildren =>
        cases children with
        | nil =>
            exact Automaton.read_empty lalr_checked hp (Symbol.nonterminal.inj hprogram)
              hsymbols.symm hspells
        | cons c cs =>
            have hc := (hchildren c List.mem_cons_self).leaves_ne_nil
              (Proper.symbol_of_mem hp hne hsymbols c List.mem_cons_self)
            exact absurd (List.append_eq_nil_iff.mp hleaves).1 hc
  · have hrun : lalr.Runs [] (t.leaves ++ []) [(r, t)] [] :=
      Automaton.runs_over lalr_checked ht hleaves hzero (hprogram ▸ htarget) heof
        (fun _ => by decide)
    rw [List.append_nil] at hrun
    exact Automaton.read_of_runs lalr_checked nofun hrun hgoal hspells hcount

end NovaLang.Grammar
