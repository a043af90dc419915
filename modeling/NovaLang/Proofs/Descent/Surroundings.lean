import NovaLang.Proofs.Descent.Parallel
import NovaLang.Proofs.Descent.Resumption
import NovaLang.Proofs.Semicolons

namespace NovaLang.Descent

open Phrase

/-! # Reading up to a declaration

In front of a declaration the readers have passed what comes before it, in silence, and keep in
mind what is to come behind it.
-/

variable {α β γ : Type}

/-! ## Readers that look ahead only -/

/-- What the reader does depends on nothing but the tokens to come. -/
def Ahead (r : Reader α) : Prop := Parallel id (· = ·) r r

namespace Ahead

variable {r : Reader α}

/-- Reading nothing needs nothing of what is ahead. -/
theorem pure (a : α) : Ahead (pure a : Reader α) := Parallel.pure rfl

/-- Nor does one reader after another. -/
theorem bind {k : α → Reader β} (hr : Ahead r) (hk : ∀ a, Ahead (k a)) : Ahead (r >>= k) :=
  Parallel.bind hr fun a _ ha => ha ▸ hk a

/-- A token is asked for by its kind. -/
theorem consume {kind : Kind} (hkind : kind ≠ .eof) (m : Complaint) : Ahead (consume kind m) :=
  fun c c' htwins => (Parallel.consume .id hkind m c c' htwins).mono fun _ _ h => h.1

/-- The same if the token is not used. -/
theorem discard {k : Unit → Reader β} (hr : Ahead r) (hk : Ahead (k ())) :
    Ahead (discard r >>= k) := by
  rw [run_discard]
  exact hr.bind fun _ => hk

/-- Recovery, too, goes by what is ahead. -/
theorem recovering (hr : Ahead r) : Ahead (recovering r) := by
  refine fun c c' htwins => (Parallel.recovering .id hr c c' htwins).mono ?_
  rintro _ _ (⟨rfl⟩ | _)
  · rfl
  · rfl

end Ahead

/-- Without any token replaced, readers of the same steps look ahead only. -/
theorem Descends.ahead {m : Manner} {n d : Nat} {V : α → α → Prop} {r : Reader α}
    (h : Descends (.relabelled .id) m n d V r r) (hV : ∀ a a', V a a' → a = a') : Ahead r :=
  fun c c' htwins => (h.parallel .id c c' htwins).mono hV

/-- A tree whose tokens are replaced by themselves is the same tree. -/
theorem eq_of_relabel_id {e e' : Node} (h : e.relabel id = e') : e = e' := by
  rwa [Node.relabel_id] at h

/-- A statement behind a keyword is read by what is ahead. -/
theorem ifAfter_ahead {kind : Kind} (hkind : kind ≠ .eof) (bound : Nat) :
    Ahead (ifAfter kind (statementWithin bound)) := by
  have hstatement : Descends (.relabelled .id) .near 0 1 _ _ _ :=
    statementWithin_descends (.inl (rfl : bound = bound))
  have hread : Descends (.relabelled .id) .near 0 0 _ _ _ :=
    ifAfter_descends hkind hstatement (Likeness.stands _)
  exact hread.ahead fun e e' he => eq_of_relabel_id he.relabel

/-- Declarations descend as they do in a program or in a block. -/
theorem declarationsOf_descends {C : Likeness} {n bound₁ bound₁' bound₂ bound₂' count count' : Nat}
    (h₁ : C.Fits n bound₁ bound₁') (h₂ : C.Fits n bound₂ bound₂') (hcount : C.Fits n count count')
    (inBlock : Bool) :
    Descends C .safe n 0 (List.Forall₂ (C.statement .inSequence))
      (declarationsOf inBlock bound₁ bound₂ count)
      (declarationsOf inBlock bound₁' bound₂' count') := by
  have hread := (unguardedWithin_descends h₁ h₂).far
  cases inBlock with
  | true => exact declarationsToBrace_descends hread (Nat.le_refl n) hcount
  | false => exact declarationsToEnd_descends hread (Nat.le_refl n) hcount

/-- They are read by what is ahead. -/
theorem declarationsOf_ahead (inBlock : Bool) (bound bound' count : Nat) :
    Ahead (declarationsOf inBlock bound bound' count) := by
  have hread : Descends (.relabelled .id) .safe 0 0 _ _ _ :=
    declarationsOf_descends (.refl 0 bound) (.refl 0 bound') (.refl 0 count) inBlock
  refine hread.ahead fun ss ss' hss => ?_
  have hsame := relabel_forall₂ hss
  rwa [Node.relabelAll_eq, Node.relabel_id, List.map_id] at hsame

/-! ## Readers that wait for another one -/

/-- The reader runs another one first, of which it only needs what it does. It looks back only if
that one does. -/
structure Awaits (K : Reader α → Reader β) : Prop where
  run {r r' : Reader α} {c c' : Cursor} : r.run c = r'.run c' → (K r).run c = (K r').run c'
  ahead {r : Reader α} : Ahead r → Ahead (K r)

namespace Awaits

/-- A reader waits for itself. -/
protected theorem id : Awaits (fun r : Reader α => r) := ⟨fun h => h, fun h => h⟩

/-- What waits for something that waits. -/
theorem comp {K : Reader β → Reader γ} {L : Reader α → Reader β} (hK : Awaits K) (hL : Awaits L) :
    Awaits (fun r => K (L r)) :=
  ⟨fun hrun => hK.run (hL.run hrun), fun hr => hK.ahead (hL.ahead hr)⟩

/-- The first of two readers is waited for. -/
theorem bind {next : α → Reader β} (hnext : ∀ a, Ahead (next a)) :
    Awaits (fun r => r >>= next) where
  run hrun := by rw [run_bind, run_bind, hrun]
  ahead hr := hr.bind hnext

/-- Recovery waits for what it guards. -/
theorem recovering : Awaits (recovering : Reader α → Reader (Option α)) where
  run hrun := by rw [run_recovering, run_recovering, hrun]
  ahead hr := hr.recovering

/-- Where the inner reader leads, the outer one is led. -/
theorem leads {K : Reader α → Reader β} (hK : Awaits K) {r r' : Reader α} {ts rest : List Token}
    (hr : Leads r ts r' rest) : Leads (K r) ts (K r') rest :=
  fun before report => hK.run (hr before report)

end Awaits

/-! ## Lists of declarations -/

/-- With any number of rounds that the tokens do not exceed, the same is read. -/
theorem declarationsOf_counts {inBlock : Bool} {bound bound' count count' : Nat} {c : Cursor}
    (hview : c.view = c) (hcount : c.rest.length ≤ count) (hcount' : c.rest.length ≤ count') :
    (declarationsOf inBlock bound bound' count).run c =
      (declarationsOf inBlock bound bound' count').run c := by
  have hview' : ∀ {k}, c.rest.length ≤ k → (declarationsOf inBlock bound bound' k).run c =
      (((declarationsOf inBlock bound bound' count).run c).1,
        ((declarationsOf inBlock bound bound' count).run c).2.view) := by
    intro k hk
    have hread : Descends (.same True) .safe c.rest.length 0 _ _ _ :=
      declarationsOf_descends (.refl _ bound) (.refl _ bound') (.inr ⟨trivial, hcount, hk⟩) inBlock
    have hsteady := hread.steady c (length_upToEnd c.rest)
    have hrun := (hsteady.mono id (Nat.le_refl 0) fun _ _ => forall₂_eq).run_view
    rwa [hview] at hrun
  exact (hview' hcount).trans (hview' hcount').symm

/-! ## Reading up to a declaration -/

/-- A declaration that begins with no `var` is read as a statement. -/
theorem unguarded_statement {expression statement : Reader Node} {t : Token} {rest : List Token}
    (ht : t.kind ≠ .kwVar) :
    Leads (unguarded expression statement) [] statement (t :: rest) :=
  .accept_no (by decide) (by simpa using ht)

/-- The tokens in front of a statement are passed; the statement is read next, and then what
belongs behind it. -/
def Reaches (bound : Nat) (pre : List Token) : Prop :=
  ∃ (next : Node → Reader Node) (bound' : Nat), (∀ s, Ahead (next s)) ∧
    bound ≤ bound' + pre.length ∧
    ∀ rest, Leads (statementWithin bound) pre (statementWithin bound' >>= next) rest

/-- One more statement around the place. -/
theorem Reaches.step {bound : Nat} {front pre : List Token} {next : Node → Reader Node}
    (h : Reaches bound pre) (hnext : ∀ s, Ahead (next s)) (hfront : front ≠ [])
    (hleads : ∀ rest, Leads (statementWithin (bound + 1)) front
      (statementWithin bound >>= next) rest) :
    Reaches (bound + 1) (front ++ pre) := by
  rcases h with ⟨next', bound', hnext', hle, hmore⟩
  have hpos := List.length_pos_iff.mpr hfront
  refine ⟨fun s => next' s >>= next, bound', fun s => (hnext' s).bind hnext, ?_, fun rest => ?_⟩
  · rw [List.length_append]
    omega
  · rw [← bind_assoc]
    exact .trans (hleads _) ((Awaits.bind hnext).leads (hmore rest))

/-- What surrounds a statement in front of it is passed. -/
theorem setting_reaches {hole d : Bool} {pre post : List Token} (h : Setting hole d pre post)
    {bound : Nat} (hbound : pre.length ≤ bound) : Reaches bound pre := by
  induction h generalizing bound with
  | here =>
      refine ⟨pure, bound, .pure, Nat.le_refl _, fun rest => ?_⟩
      rw [bind_pure]
      exact .refl _ _
  -- the body of a `for` is read behind its parentheses, and then the tree is built
  | @forBody _ fr l s r is cs ns pre _ i c n hfor hl hi hc hs hn hr _ ih =>
      simp only [List.length_cons, List.length_append] at hbound
      obtain ⟨bound, rfl⟩ : ∃ n, bound = n + 1 := ⟨bound - 1, by omega⟩
      have hreaches : Reaches bound pre := ih (by omega)
      have hnext : ∀ body, Ahead (pure (forLoop i c n body)) := fun _ => .pure _
      have hfront : fr :: l :: (is ++ (cs ++ s :: (ns ++ [r]))) ≠ [] := List.cons_ne_nil _ _
      have hstep := hreaches.step hnext hfront fun rest => by
        refine .pass (for_leads hfor) (.pass (.discard_consume (by decide) hl) ?_)
        refine .trans (.bind (forInitializer_yields hi (by omega))) ?_
        refine .trans (.bind (unlessAt_yields (.inl rfl) hc (by omega) hs)) ?_
        refine .pass (.discard_consume (by decide) hs) ?_
        refine .trans (.bind (unlessAt_yields (.inr rfl) hn (by omega) hr)) ?_
        exact .discard_consume (by decide) hr
      simpa using hstep
  | @whileBody _ w l r cs pre _ c hw hl hc hr _ ih =>
      simp only [List.length_cons, List.length_append] at hbound
      obtain ⟨bound, rfl⟩ : ∃ n, bound = n + 1 := ⟨bound - 1, by omega⟩
      have hreaches : Reaches bound pre := ih (by omega)
      have hnext : ∀ body, Ahead (pure (Node.loop c body)) := fun _ => .pure _
      have hstep := hreaches.step hnext (List.cons_ne_nil w (l :: (cs ++ [r]))) fun rest => by
        refine .pass (while_leads hw) (.pass (.discard_consume (by decide) hl) ?_)
        refine .trans (.bind (expression_yields hc (by omega) (by rw [hr]; decide))) ?_
        exact .discard_consume (by decide) hr
      simpa using hstep
  | @ifAlone _ i l r cs pre _ c hi hl hc hr _ ih
  | @thenBranch _ i l r _ cs pre _ _ c _ hi hl hc hr _ _ _ ih =>
      simp only [List.length_cons, List.length_append] at hbound
      obtain ⟨bound, rfl⟩ : ∃ n, bound = n + 1 := ⟨bound - 1, by omega⟩
      have hreaches : Reaches bound pre := ih (by omega)
      have hnext : ∀ t, Ahead (ifAfter .kwElse (statementWithin bound) >>= fun e =>
          pure (Node.branch c t e)) :=
        fun t => (ifAfter_ahead (by decide) bound).bind fun e => .pure _
      have hstep := hreaches.step hnext (List.cons_ne_nil i (l :: (cs ++ [r]))) fun rest => by
        refine .pass (if_leads hi) (.pass (.discard_consume (by decide) hl) ?_)
        refine .trans (.bind (expression_yields hc (by omega) (by rw [hr]; decide))) ?_
        exact .discard_consume (by decide) hr
      simpa using hstep
  -- the branch before `else` is complete, so it does not take the `else`
  | @elseBranch _ i l r o cs ts pre _ c t hi hl hc hr ht ho _ ih =>
      simp only [List.length_cons, List.length_append] at hbound
      obtain ⟨bound, rfl⟩ : ∃ n, bound = n + 1 := ⟨bound - 1, by omega⟩
      have hreaches : Reaches bound pre := ih (by omega)
      have hnext : ∀ e, Ahead (pure (Node.branch c t e)) := fun _ => .pure _
      have hstep := hreaches.step hnext (List.cons_ne_nil i (l :: (cs ++ r :: (ts ++ [o]))))
        fun rest => by
          refine .pass (if_leads hi) (.pass (.discard_consume (by decide) hl) ?_)
          refine .trans (.bind (expression_yields hc (by omega) (by rw [hr]; decide))) ?_
          refine .pass (.discard_consume (by decide) hr) ?_
          refine .trans (.bind (stmt_completed ht bound o rest (by omega) (settled_false _))) ?_
          exact (Awaits.bind hnext).leads (ifAfter_yes (by decide) ho)
      simpa using hstep

/-- In front of a declaration in a block, what comes before it in the declaration that the block
stands in is passed. -/
theorem block_reaches {d : Bool} {l : Token} {pre post xs : List Token} {as : List Node}
    (hsetting : Setting false d pre post) (hl : l.kind = .leftBrace) (hxs : Program xs as)
    {bound : Nat} (hbound : (pre ++ l :: xs).length ≤ bound) :
    ∃ (K : Reader (List Node) → Reader (Option Node)) (bound₁ bound₂ count : Nat), Awaits K ∧
      (bound ≤ bound₁ + (pre ++ l :: xs).length ∧ bound ≤ bound₂ + (pre ++ l :: xs).length ∧
        bound ≤ count + (pre ++ l :: xs).length) ∧
      ∀ expression t rest, t.kind ≠ .kwElse →
        Leads (declarationWith expression (statementWithin bound)) (pre ++ l :: xs)
          (K (declarationsOf true bound₁ bound₂ count)) (t :: rest) := by
  rw [List.length_append, List.length_cons] at hbound ⊢
  rcases setting_reaches hsetting (show pre.length ≤ bound by omega) with
    ⟨next, bound', hnext, hle, hleads⟩
  have hK : Awaits fun r => r >>= next := .bind hnext
  obtain ⟨bound', rfl⟩ : ∃ n, bound' = n + 1 := ⟨bound' - 1, by omega⟩
  have hlength := length_of_program hxs
  obtain ⟨count, hcount⟩ : ∃ count, bound' = as.length + count := ⟨bound' - as.length, by omega⟩
  have hmore : Awaits fun r : Reader (List Node) => r >>= fun more => pure (as ++ more) :=
    .bind fun _ => .pure _
  have hclose : Awaits fun r : Reader (List Node) => r >>= fun ss =>
      discard (consume .rightBrace (.expected .braceAfterBlock)) >>= fun _ => pure ss :=
    .bind fun ss => (Ahead.consume (by decide) _).discard (.pure ss)
  have hblock : Awaits fun r : Reader (List Node) => r >>= fun ss => pure (Node.block ss) :=
    .bind fun _ => .pure _
  refine ⟨_, bound' + 1, bound', count,
    Awaits.recovering.comp (hK.comp (hblock.comp (hclose.comp hmore))), ⟨?_, ?_, ?_⟩, ?_⟩
  · omega
  · omega
  · omega
  intro expression t rest ht
  have hstart : l.kind ∈ stmtStarts .statement := by simp [stmtStarts, hl]
  obtain ⟨u, more, heq, hu⟩ := hsetting.first hstart xs (t :: rest)
  have hvar : u.kind ≠ .kwVar := fun h => absurd (h ▸ hu) (by decide)
  -- the statement, the block in it, and the declarations of the block in front of the last one
  have hstatement : Leads (unguarded expression (statementWithin bound)) [] (statementWithin bound)
      (pre ++ l :: xs ++ t :: rest) := by
    rw [heq]
    exact unguarded_statement hvar
  refine Awaits.recovering.leads (.look hstatement ?_)
  refine .trans (hleads _) (hK.leads (.pass (block_leads hl) (hblock.leads (hclose.leads ?_))))
  have hlead := @declarationsOf_lead true (bound' + 1) bound' _ _ hxs (by omega) (by omega) _ ht
    rest count
  rw [← hcount] at hlead
  exact hlead

/-- In front of some tokens and behind others, which are passed in silence, reading a program is
reading declarations, for the reader that waits for them. -/
structure Enters (bound : Nat) (xs : List Token) (K : Reader (List Node) → Reader (List Node))
    (inBlock : Bool) (bound₁ bound₂ count : Nat) : Prop where
  awaits : Awaits K
  inExpressions : bound ≤ bound₁ + xs.length
  inStatements : bound ≤ bound₂ + xs.length
  rounds : bound ≤ count + xs.length
  leads {t : Token} (ht : t.kind ≠ .kwElse) (rest : List Token) :
    Leads (declarationsToEnd (declarationWithin bound) bound) xs
      (K (declarationsOf inBlock bound₁ bound₂ count)) (t :: rest)

/-- The declarations around a declaration are entered. -/
theorem around_enters {xs ys : List Token} (h : Around xs ys) {bound : Nat}
    (hbound : xs.length ≤ bound) :
    ∃ K inBlock bound₁ bound₂ count, Enters bound xs K inBlock bound₁ bound₂ count := by
  induction h with
  | @program xs ys as bs hxs _ =>
      have hlength := length_of_program hxs
      obtain ⟨count, hcount⟩ : ∃ count, bound = as.length + count := ⟨bound - as.length, by omega⟩
      have hmore : Awaits fun r : Reader (List Node) => r >>= fun more => pure (as ++ more) :=
        .bind fun _ => .pure _
      refine ⟨_, false, bound, bound, count, hmore, by omega, by omega, by omega, ?_⟩
      intro t ht rest
      have hlead := @declarationsOf_lead false bound bound _ _ hxs hbound hbound _ ht rest count
      rw [← hcount] at hlead
      exact hlead
  | @block d l r xs ys pre post xs' ys' as bs _ hsetting hl hxs' _ _ ih =>
      rw [List.length_append] at hbound
      rcases ih (by omega) with ⟨K, inBlock, bound₁, bound₂, count, hK⟩
      have hrounds := hK.rounds
      have hinStatements := hK.inStatements
      obtain ⟨count, rfl⟩ : ∃ n, count = n + 1 := ⟨count - 1, by simp at hbound; omega⟩
      rcases block_reaches hsetting hl hxs' (show _ ≤ bound₂ by omega) with
        ⟨L, b₁, b₂, n, hL, ⟨h₁, h₂, h₃⟩, hleads⟩
      -- behind the block, the declarations around it are read on
      have hnext : Awaits fun r : Reader (Option Node) => r >>= fun first =>
          declarationsOf inBlock bound₁ bound₂ count >>= fun more => pure (first.toList ++ more) :=
        .bind fun first => (declarationsOf_ahead _ _ _ _).bind fun more => .pure _
      refine ⟨_, true, b₁, b₂, n, hK.awaits.comp (hnext.comp hL), ?_, ?_, ?_, ?_⟩
      · rw [List.length_append]; omega
      · rw [List.length_append]; omega
      · rw [List.length_append]; omega
      intro t ht rest
      have hstart : l.kind ∈ stmtStarts .statement := by simp [stmtStarts, hl]
      obtain ⟨u, more, heq, hu⟩ := hsetting.first hstart xs' (t :: rest)
      have hkind : ∀ k, k ∉ stmtStarts .statement → u.kind ≠ k := fun k hk h => hk (h ▸ hu)
      refine .trans (by rw [heq]; exact hK.leads (hkind _ (by decide)) more) (hK.awaits.leads ?_)
      refine .look ?_ (hnext.leads (hleads (expressionWithin bound₁) t rest ht))
      rw [heq]
      exact declarationsOf_next (hkind _ (by decide)) (hkind _ (by decide)) _ _ _ _ _

end NovaLang.Descent
