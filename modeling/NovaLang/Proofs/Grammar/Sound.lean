import NovaLang.Proofs.Grammar.Lexing
import NovaLang.Proofs.Grammar.States

namespace NovaLang.Grammar

/-! # Runs of the automaton are sound

The trees on a stack spell, between them, the beginnings of the productions that the state
on top of it still awaits the rest of. So a reduction finds the parts of its production
on the stack, and the tree of a text is a proper one of its lexemes.
-/

namespace Stack

open Automaton

/-- The trees of a stack, from left to right. -/
def trees (s : Stack) : List Tree := (s.map (·.2)).reverse

/-- The trees of a stack, below and above a place in it. -/
theorem trees_drop_take (s : Stack) (n : Nat) :
    s.trees = trees (s.drop n) ++ trees (s.take n) := by
  rw [trees, trees, trees, ← List.reverse_append, ← List.map_append, List.take_append_drop]

/-- The tree on top comes last. -/
theorem trees_cons (q : Nat) (t : Tree) (s : Stack) :
    trees ((q, t) :: s) = s.trees ++ [t] := by
  simp [trees]

/-- The tree on top of a stack is followed by nothing it may not be followed by. -/
def Settled (s : Stack) (x : Symbol) : Prop :=
  ∀ e ∈ s.head?, e.2.opens → x ≠ .terminal .kwElse

/-- Only an `else` can be too late. -/
theorem settled_nonterminal (s : Stack) (n : Nonterminal) : s.Settled (.nonterminal n) := by
  rintro _ _ _ ⟨⟩

/-- A stack as runs of an automaton build them: a path of proper trees through its states. -/
inductive Sound (a : Automaton) : Stack → Prop where
  | nil : Sound a []
  | cons {s : Stack} {q : Nat} {t : Tree} :
      Sound a s → a.target? s.state t.symbol = some q → t.Proper → s.Settled t.symbol →
      Sound a ((q, t) :: s)

namespace Sound

variable {a : Automaton} {cores : List (List Item)}

/-- A sound stack is in a state that was checked. -/
theorem isState (ha : a.checked cores = true) {s : Stack} (h : s.Sound a) :
    IsState cores s.state := by
  induction h with
  | nil => exact isState_zero ha
  | cons _ htarget _ _ ih => exact isState_target ha ih htarget

/-- What is below stays sound. -/
theorem drop {s : Stack} (h : s.Sound a) (n : Nat) : Stack.Sound a (List.drop n s) := by
  induction h generalizing n with
  | nil => simpa using Sound.nil
  | cons hs htarget ht hsettled ih =>
      cases n with
      | zero => exact .cons hs htarget ht hsettled
      | succ n => exact ih n

/-- Its trees follow the productions, ... -/
theorem proper {s : Stack} (h : s.Sound a) : ∀ e ∈ s, e.2.Proper := by
  induction h with
  | nil => simp
  | cons _ _ ht _ ih => exact List.forall_mem_cons.mpr ⟨ht, ih⟩

/-- ... and each `else` belongs to the nearest `if`. -/
theorem nearest {s : Stack} (h : s.Sound a) : Tree.Nearest s.trees := by
  have hchain : s.IsChain fun e d => d.2.opens → e.2.symbol ≠ .terminal .kwElse := by
    induction h with
    | nil => exact .nil
    | @cons s q t _ _ _ hsettled ih =>
        cases s with
        | nil => exact .singleton _
        | cons e s => exact .cons_cons (hsettled e rfl) ih
  rw [Tree.Nearest, trees, List.isChain_reverse, List.isChain_map]
  exact hchain

/-- What stands in front of the dot of an item stands on top of the stack. -/
theorem spelled (ha : a.checked cores = true) {s : Stack} (h : s.Sound a) {p : Nat}
    {after : List Symbol} (hitem : HasItem cores s.state p after) :
    ∃ n ≤ s.length, (s.take n).reverse.map (·.2.symbol) ++ after = (productionAt p).rhs ∧
      (p = 0 → n = s.length) := by
  induction h generalizing after with
  | nil =>
      obtain ⟨rfl, rfl⟩ := hasItem_zero ha hitem
      exact ⟨0, Nat.le_refl _, rfl, fun _ => rfl⟩
  | @cons s q t hs htarget _ _ ih =>
      -- the dot has come over the top of the stack, from an item below or from the beginning
      obtain hback | ⟨hp, hrhs⟩ := item_of_target ha (hs.isState ha) htarget hitem
      · obtain ⟨n, hn, hspelled, hgoal⟩ := ih hback
        refine ⟨n + 1, Nat.succ_le_succ hn, ?_, fun hp => congrArg _ (hgoal hp)⟩
        simpa using hspelled
      · exact ⟨1, Nat.succ_le_succ (Nat.zero_le _), by simpa using hrhs.symm, fun h => absurd h hp⟩

/-- A reduction takes the parts of its production from the stack. -/
theorem reduce (ha : a.checked cores = true) {s s' : Stack} (h : s.Sound a) {k : Kind} {p : Nat}
    (haction : a.action? s.state k = some (.reduce p)) (hp : p ≠ 0)
    (hs' : a.reduce? p s = some s') :
    s'.Sound a ∧ Tree.leavesOf s'.trees = Tree.leavesOf s.trees ∧
      (s.Settled (.terminal k) → s'.Settled (.terminal k)) := by
  obtain ⟨hlt, hfinished, hshort⟩ := finished_of_reduce ha (h.isState ha) haction
  obtain ⟨q, hgoto, rfl⟩ := Option.map_eq_some_iff.mp hs'
  generalize hn : (productionAt p).rhs.length = n at hgoto ⊢
  -- the finished item is spelled by the top of the stack; an empty production needs no item
  have hparts : (s.take n).reverse.map (·.2.symbol) = (productionAt p).rhs := by
    obtain hitem | hempty := hfinished
    · obtain ⟨m, hm, hspelled, -⟩ := h.spelled ha hitem
      rw [List.append_nil] at hspelled
      have hlength := congrArg List.length hspelled
      rw [List.length_map, List.length_reverse, List.length_take, hn,
        Nat.min_eq_left hm] at hlength
      rwa [← hlength]
    · rw [hempty] at hn ⊢
      rw [← hn]
      rfl
  have hsplit := s.trees_drop_take n
  have hchildren : ((s.take n).map (·.2)).reverse = trees (s.take n) := rfl
  rw [hchildren]
  refine ⟨.cons (h.drop n) hgoto (.branch hlt hp ?_ ?_ ?_) (settled_nonterminal _ _), ?_, ?_⟩
  · rw [← hparts, trees, ← List.map_reverse, List.map_map]
    rfl
  · have hnearest := h.nearest
    rw [hsplit] at hnearest
    exact hnearest.right_of_append
  · intro t ht
    obtain ⟨e, he, rfl⟩ := List.mem_map.mp (List.mem_reverse.mp ht)
    exact h.proper e (List.mem_of_mem_take he)
  · rw [trees_cons, hsplit, Tree.leavesOf_append, Tree.leavesOf_append]
    simp
  · -- the new top ends in a short `if` itself, or its last part does, which was the old top
    rintro hsettled _ ⟨⟩ hopens
    rw [Tree.opens_branch, Bool.or_eq_true] at hopens
    obtain hif | hlast := hopens
    · exact fun hk => hshort hif (Symbol.terminal.inj hk)
    · cases n with
      | zero => cases hlast
      | succ n =>
          cases s with
          | nil => cases hlast
          | cons e s =>
              rw [List.take_succ_cons, trees_cons, Tree.lastOpens_concat] at hlast
              exact hsettled e rfl hlast

end Sound

section

variable {a : Automaton} {cores : List (List Item)}

/-- What comes of offering a kind of token to a stack of these lexemes. -/
def Answered (a : Automaton) (k : Kind) (ls : List Lexeme) : Offered → Prop
  | .shift s q =>
    s.Sound a ∧ s.Settled (.terminal k) ∧ a.target? s.state (.terminal k) = some q ∧
      Tree.leavesOf s.trees = ls
  | .done t => t.Proper ∧ t.symbol = .nonterminal .program ∧ t.leaves = ls
  | .refused => True

/-- Where the automaton is done, there is one tree, that of a program. -/
theorem Sound.goal (ha : a.checked cores = true) {s : Stack} (h : s.Sound a) {k : Kind}
    (haction : a.action? s.state k = some (.reduce 0)) :
    ∃ q t, s = [(q, t)] ∧ t.symbol = .nonterminal .program := by
  have hrhs : (productionAt 0).rhs = [.nonterminal .program] := rfl
  obtain ⟨-, hfinished, -⟩ := finished_of_reduce ha (h.isState ha) haction
  obtain ⟨n, -, hspelled, hn⟩ := h.spelled ha (hfinished.resolve_right (by simp [hrhs]))
  -- the item of the goal begins at the bottom of the stack, so there is nothing below
  rw [hn rfl, List.take_length, hrhs, List.append_nil, List.map_reverse,
    List.reverse_eq_cons_iff, List.reverse_nil, List.nil_append] at hspelled
  obtain ⟨⟨q, t⟩, rfl, ht⟩ := List.map_eq_singleton_iff.mp hspelled
  exact ⟨q, t, rfl, ht⟩

/-- Whatever the automaton answers to a kind, the leaves of the stack stay what was read. -/
theorem Sound.offer (ha : a.checked cores = true) {k : Kind} (count : Nat) {s : Stack}
    (h : s.Sound a) (hsettled : s.Settled (.terminal k)) :
    Answered a k (Tree.leavesOf s.trees) (a.offer k count s) := by
  -- on the number of reductions, each of which leaves the stack sound
  induction count generalizing s with
  | zero => trivial
  | succ count ih =>
      unfold Automaton.offer
      split
      · rename_i q haction
        exact ⟨h, hsettled, target_terminal.mpr haction, rfl⟩
      · rename_i haction
        obtain ⟨q, t, rfl, ht⟩ := h.goal ha haction
        exact ⟨h.proper (q, t) (List.mem_singleton.mpr rfl), ht, by simp [trees]⟩
      · rename_i p hp haction
        split
        · rename_i s' hs'
          obtain ⟨hsound, hleaves, hsettled'⟩ := h.reduce ha haction hp hs'
          rw [← hleaves]
          exact ih hsound (hsettled' hsettled)
        · trivial
      · trivial

end

end Stack

open Stack in
/-- A tree that a run from a sound stack finds is a derivation of a program from what is on
the stack and the lexemes that the rest is cut into. -/
theorem Automaton.read_sound {a : Automaton} {cores : List (List Item)}
    (ha : a.checked cores = true) {last : Int} {count : Nat} {s : Stack} {line : Int}
    {cs : List Char} {previous? : Option Kind} {t : Tree} (h : s.Sound a)
    (hleaf : ∀ e ∈ s.head?, e.2.opens = false)
    (hawaits : Awaits previous? (a.accepted s.state))
    (hread : a.read last count s line cs = .ok t) :
    ∃ ls, Cut previous? line cs ls ∧ t.Proper ∧ t.symbol = .nonterminal .program ∧
      t.leaves = Tree.leavesOf s.trees ++ ls := by
  induction count generalizing s line cs previous? with
  | zero => cases hread
  | succ count ih =>
      -- a lexeme has just been shifted, or nothing yet, so the top does not end in an `if`
      have hsettled : ∀ x, s.Settled x := by
        intro x e he hopens
        rw [hleaf e he] at hopens
        cases hopens
      rw [Automaton.read] at hread
      split at hread
      · cases hread
      · rename_i hnext
        have hanswer := h.offer ha s.bound (hsettled (.terminal .eof))
        split at hread
        · rename_i t' ht'
          cases hread
          rw [ht'] at hanswer
          obtain ⟨hproper, hsymbol, hleaves⟩ := hanswer
          exact ⟨[], .nil hnext, hproper, hsymbol, by rw [hleaves, List.append_nil]⟩
        · cases hread
      · rename_i l rest hnext
        have hanswer := h.offer ha s.bound (hsettled (.terminal l.kind))
        split at hread
        · rename_i s' q hoffer
          rw [hoffer] at hanswer
          obtain ⟨hsound, hsettled', htarget, hleaves⟩ := hanswer
          have hsound' : Stack.Sound a ((q, .leaf l) :: s') :=
            .cons hsound htarget (.leaf l) hsettled'
          have hleaf' : ∀ e ∈ ((q, Tree.leaf l) :: s').head?, e.2.opens = false := by
            rintro _ ⟨⟩
            rfl
          have hawaits' : Awaits (some l.kind) (a.accepted (Stack.state ((q, .leaf l) :: s'))) := by
            refine ⟨fun k hk => kind_of_accepted ha (hsound'.isState ha) hk, ?_⟩
            rintro _ ⟨⟩ hextensible k hk
            exact accepted_of_extensible ha (hsound.isState ha) hextensible htarget hk
          obtain ⟨ls, hcut, hproper, hsymbol, hleaves'⟩ := ih hsound' hleaf' hawaits' hread
          refine ⟨l :: ls, .cons hawaits hnext hcut, hproper, hsymbol, ?_⟩
          rw [hleaves', trees_cons, Tree.leavesOf_append, hleaves]
          simp
        · cases hread

/-- The tree of a source text is a proper derivation of a program from lexemes that the
text is cut into. -/
theorem Tree.ofSource_sound {source : String} {t : Tree} (h : Tree.ofSource source = .ok t) :
    t.Proper ∧ t.symbol = .nonterminal .program ∧ Cut none 1 source.toList t.leaves := by
  have hzero := Automaton.isState_zero lalr_checked
  have hawaits : Awaits none (lalr.accepted 0) :=
    ⟨fun k hk => Automaton.kind_of_accepted lalr_checked hzero hk, nofun⟩
  obtain ⟨ls, hcut, hproper, hsymbol, hleaves⟩ :=
    Automaton.read_sound lalr_checked Stack.Sound.nil nofun hawaits h
  rw [hleaves]
  exact ⟨hproper, hsymbol, hcut⟩

/-- A text may be cut into a keyword that the grammar reads as a name. -/
theorem grammar_reads_var_if :
    read "var if;" = .ok [.var (.scanned .identifier "if" .nil 1) .absent] := by
  decide +kernel

end NovaLang.Grammar
