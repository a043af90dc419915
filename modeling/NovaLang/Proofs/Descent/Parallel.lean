import NovaLang.Proofs.Descent.Bounds
import NovaLang.Proofs.Eval.Relabelling
import NovaLang.Proofs.Phrase

namespace NovaLang

/-! # Readers do not look back

In front of the same tokens a reader does the same wherever it stands: it passes the same
tokens, reports the same errors and ends in the same way, whatever has been passed or reported
before. The tokens may even be replaced by others of the same kinds, lexemes and literals; what
is read and reported then has the other tokens in it.
-/

/-- The static error with its token replaced. -/
def Diagnostic.relabel (f : Token → Token) (d : Diagnostic) : Diagnostic :=
  match d.place with
  | .token t => { d with place := .token (f t) }
  | _ => d

/-- Tokens replaced by themselves leave an error as it is. -/
theorem Diagnostic.relabel_id : Diagnostic.relabel id = id := by
  funext d
  unfold Diagnostic.relabel
  split
  · rename_i t ht
    rcases d with ⟨place, complaint⟩
    obtain rfl : place = .token t := ht
    rfl
  · rfl

namespace Descent

/-! ## Runs side by side -/

/-- The second cursor stands in front of the same tokens as the first one, replaced. An end
token is to come, and whatever is done after a syntax error finds a token to look at. -/
structure Twins (f : Token → Token) (c c' : Cursor) : Prop where
  rest : c'.rest = c.rest.map f
  ready : c.Ready
  movable : c.Movable
  movable' : c'.Movable

/-- From two cursors the same tokens are passed and the same errors reported, and the same tokens
are left. -/
structure Abreast (f : Token → Token) (c c' c₁ c₁' : Cursor) (ts : List Token)
    (ds : List Diagnostic) : Prop where
  first : Moved c c₁ ts ds
  second : Moved c' c₁' (ts.map f) (ds.map (Diagnostic.relabel f))
  rest : c₁'.rest = c₁.rest.map f

/-- What comes of two readers side by side: results that are related, or the same syntax error. -/
inductive Outcomes {α : Type} (f : Token → Token) (V : α → α → Prop) (c c' : Cursor) :
    Except Stop α × Cursor → Except Stop α × Cursor → Prop
  | yields {a a' : α} {c₁ c₁' : Cursor} {ts : List Token} {ds : List Diagnostic} :
      V a a' → Abreast f c c' c₁ c₁' ts ds → Outcomes f V c c' (.ok a, c₁) (.ok a', c₁')
  | stops {m : Complaint} {c₁ c₁' : Cursor} {ts : List Token} {ds : List Diagnostic} :
      Abreast f c c' c₁ c₁' ts ds →
      Outcomes f V c c' (.error (.syntaxError m), c₁) (.error (.syntaxError m), c₁')

/-- From the two cursors the second reader does as the first one does. -/
def ParallelAt {α : Type} (f : Token → Token) (V : α → α → Prop) (c c' : Cursor)
    (r r' : Reader α) : Prop :=
  Twins f c c' → Outcomes f V c c' (r.run c) (r'.run c')

/-- In front of the same tokens, replaced, the second reader does as the first one does. -/
def Parallel {α : Type} (f : Token → Token) (V : α → α → Prop) (r r' : Reader α) : Prop :=
  ∀ c c', ParallelAt f V c c' r r'

variable {α β : Type} {f : Token → Token} {V : α → α → Prop} {W : β → β → Prop}
  {c c' c₁ c₁' : Cursor} {ts us : List Token} {ds es : List Diagnostic} {t : Token}
  {rest : List Token}

/-- Side by side there is a next token, on one side and, replaced, on the other. -/
theorem Twins.exists_cons (h : Twins f c c') :
    ∃ t rest, c.rest = t :: rest ∧ c'.rest = f t :: rest.map f := by
  rcases h.ready.exists_cons with ⟨t, rest, hrest⟩
  have hrest' := h.rest
  rw [hrest, List.map_cons] at hrest'
  exact ⟨t, rest, hrest, hrest'⟩

namespace Abreast

theorem refl (hrest : c'.rest = c.rest.map f) : Abreast f c c' c c' [] [] :=
  ⟨.refl c, .refl c', hrest⟩

theorem trans {c₂ c₂' : Cursor} (h : Abreast f c c' c₁ c₁' ts ds)
    (h' : Abreast f c₁ c₁' c₂ c₂' us es) : Abreast f c c' c₂ c₂' (ts ++ us) (ds ++ es) where
  first := h.first.trans h'.first
  second := by
    rw [List.map_append, List.map_append]
    exact h.second.trans h'.second
  rest := h'.rest

/-- A complaint about a token becomes one about its replacement. -/
theorem complain (hrest : c'.rest = c.rest.map f) (t : Token) (m : Complaint) :
    Abreast f c c' { c with report := c.report.atToken t m }
      { c' with report := c'.report.atToken (f t) m } [] [⟨.token t, m⟩] :=
  ⟨.complaint c t m, .complaint c' (f t) m, hrest⟩

/-- After the same steps the cursors still stand side by side. -/
theorem twins (h : Abreast f c c' c₁ c₁' ts ds) (htwins : Twins f c c') : Twins f c₁ c₁' :=
  ⟨h.rest, h.first.ready htwins.ready, h.first.movable htwins.movable,
    h.second.movable htwins.movable'⟩

end Abreast

/-- What came before the two readers is passed and reported first. -/
theorem Outcomes.after {o o' : Except Stop α × Cursor} (h : Outcomes f V c₁ c₁' o o')
    (habreast : Abreast f c c' c₁ c₁' ts ds) : Outcomes f V c c' o o' := by
  cases h with
  | yields hV h => exact .yields hV (habreast.trans h)
  | stops h => exact .stops (habreast.trans h)

protected theorem Outcomes.mono {V' : α → α → Prop} {o o' : Except Stop α × Cursor}
    (h : Outcomes f V c c' o o') (hV : ∀ a a', V a a' → V' a a') : Outcomes f V' c c' o o' := by
  cases h with
  | yields h habreast => exact .yields (hV _ _ h) habreast
  | stops habreast => exact .stops habreast

/-- The same errors are reported. -/
theorem Outcomes.reports {o o' : Except Stop α × Cursor} (h : Outcomes f V c c' o o') :
    ∃ ds, o.2.report = c.report.addAll ds ∧
      o'.2.report = c'.report.addAll (ds.map (Diagnostic.relabel f)) := by
  cases h with
  | yields _ h | stops h => exact ⟨_, h.first.report, h.second.report⟩

/-- A step from a token that is not the end passes it. -/
theorem Leads.advance {k : Unit → Reader α} (ht : t.kind ≠ .eof) :
    Leads (discard Descent.advance >>= k) [t] (k ()) rest := by
  intro before report
  rw [run_discard]
  exact run_bind_ok (run_advance_inside rfl ht)

namespace ParallelAt

variable {r r₁ r' r₁' : Reader α}

/-- First steps that pass nothing, and look at the next token only. -/
theorem look (hrest : c.rest = t :: rest) (hrest' : c'.rest = f t :: rest.map f)
    (hleads : Leads r [] r₁ (t :: rest)) (hleads' : Leads r' [] r₁' (f t :: rest.map f))
    (h : ParallelAt f V c c' r₁ r₁') : ParallelAt f V c c' r r' := by
  intro htwins
  rw [hleads.run_look hrest, hleads'.run_look hrest']
  exact h htwins

/-- First steps that pass one token, and look at no other. -/
theorem pass (hf : Token.Relabels f) (hrest : c.rest = t :: rest)
    (hrest' : c'.rest = f t :: rest.map f) (ht : t.kind ≠ .eof) (hleads : Leads r [t] r₁ rest)
    (hleads' : Leads r' [f t] r₁' (rest.map f))
    (h : ParallelAt f V (c.past t rest) (c'.past (f t) (rest.map f)) r₁ r₁') :
    ParallelAt f V c c' r r' := by
  intro htwins
  have habreast : Abreast f c c' (c.past t rest) (c'.past (f t) (rest.map f)) [t] [] :=
    ⟨.past hrest ht, .past hrest' (by rwa [hf.kind]), rfl⟩
  rw [hleads.run_pass hrest, hleads'.run_pass hrest']
  exact (h (habreast.twins htwins)).after habreast

/-- The number of tokens to come is the same. -/
theorem remaining {r r' : Nat → Reader α} (h : ∀ n, ParallelAt f V c c' (r n) (r' n)) :
    ParallelAt f V c c' (Descent.remaining >>= r) (Descent.remaining >>= r') := by
  intro htwins
  have hlength : c'.rest.length = c.rest.length := by rw [htwins.rest, List.length_map]
  rw [run_bind_ok (show Descent.remaining.run c = (.ok c.rest.length, c) from rfl),
    run_bind_ok (show Descent.remaining.run c' = (.ok c'.rest.length, c') from rfl), hlength]
  exact h c.rest.length htwins

end ParallelAt

namespace Parallel

variable {r r' : Reader α}

theorem pure {a a' : α} (h : V a a') : Parallel f V (pure a : Reader α) (pure a') :=
  fun _ _ htwins => .yields h (.refl htwins.rest)

/-- Readers side by side, and what is done with related results. -/
theorem bind {k k' : α → Reader β} (hr : Parallel f V r r')
    (hk : ∀ a a', V a a' → Parallel f W (k a) (k' a')) : Parallel f W (r >>= k) (r' >>= k') := by
  intro c c' htwins
  have hfirst := hr c c' htwins
  revert hfirst
  rcases hrun : r.run c with ⟨o, c₁⟩
  rcases hrun' : r'.run c' with ⟨o', c₁'⟩
  intro hfirst
  cases hfirst with
  | yields hV habreast =>
      rw [run_bind_ok hrun, run_bind_ok hrun']
      exact (hk _ _ hV c₁ c₁' (habreast.twins htwins)).after habreast
  | stops habreast =>
      rw [run_bind_error hrun, run_bind_error hrun']
      exact .stops habreast

/-- A syntax error stops both, and is reported at the token and at its replacement. -/
theorem fail (m : Complaint) :
    Parallel f V (Descent.fail m : Reader α) (Descent.fail m : Reader α) := by
  intro c c' htwins
  rcases htwins.exists_cons with ⟨t, rest, hrest, hrest'⟩
  rw [run_fail hrest, run_fail hrest']
  exact .stops (.complain htwins.rest t m)

theorem complain {t t' : Token} (ht : f t = t') (m : Complaint) :
    Parallel f (fun _ _ => True) (Descent.complain t m) (Descent.complain t' m) := by
  intro c c' htwins
  rw [← ht]
  exact .yields trivial (.complain htwins.rest t m)

theorem peek : Parallel f (fun t t' => f t = t') Descent.peek Descent.peek := by
  intro c c' htwins
  rcases htwins.exists_cons with ⟨t, rest, hrest, hrest'⟩
  rw [run_peek hrest, run_peek hrest']
  exact .yields rfl (.refl htwins.rest)

variable (hf : Token.Relabels f)

include hf

/-- A replacement has the same kind, so a look at the kind tells the same. -/
theorem check {kind : Kind} (hkind : kind ≠ .eof) :
    Parallel f (· = ·) (check kind) (check kind) := by
  intro c c' htwins
  rcases htwins.exists_cons with ⟨t, rest, hrest, hrest'⟩
  rw [run_check hrest hkind, run_check hrest' hkind, hf.kind]
  exact .yields rfl (.refl htwins.rest)

theorem isAtEnd : Parallel f (· = ·) isAtEnd isAtEnd := by
  intro c c' htwins
  rcases htwins.exists_cons with ⟨t, rest, hrest, hrest'⟩
  rw [run_isAtEnd hrest, run_isAtEnd hrest', hf.kind]
  exact .yields rfl (.refl htwins.rest)

/-- A token of the kind that is asked for is handed on, replaced on the other side. -/
theorem consume {kind : Kind} (hkind : kind ≠ .eof) (m : Complaint) :
    Parallel f (fun t t' => f t = t' ∧ t.kind = kind) (consume kind m) (consume kind m) := by
  intro c c' htwins
  rcases htwins.exists_cons with ⟨t, rest, hrest, hrest'⟩
  rw [run_consume hrest hkind, run_consume hrest' hkind, hf.kind]
  by_cases ht : t.kind = kind
  · have hstop : t.kind ≠ .eof := ht ▸ hkind
    rw [if_pos ht, if_pos ht]
    exact .yields ⟨rfl, ht⟩ ⟨.past hrest hstop, .past hrest' (by rwa [hf.kind]), rfl⟩
  · rw [if_neg ht, if_neg ht]
    exact .stops (.complain htwins.rest t m)

variable {kinds : List Kind} (hkinds : Kind.eof ∉ kinds) {no no' : Reader α}
  (hno : Parallel f V no no')

include hkinds hno

/-- The two readers decide alike about the next token. -/
theorem accept {yes yes' : Reader α} (hyes : Parallel f V yes yes') :
    Parallel f V (Descent.accept kinds >>= fun b => if b = true then yes else no)
      (Descent.accept kinds >>= fun b => if b = true then yes' else no') := by
  intro c c' htwins
  rcases htwins.exists_cons with ⟨t, rest, hrest, hrest'⟩
  by_cases ht : t.kind ∈ kinds
  · have hstop : t.kind ≠ .eof := fun heq => hkinds (heq ▸ ht)
    exact ParallelAt.pass hf hrest hrest' hstop (.accept_yes hkinds ht)
      (.accept_yes hkinds (hf.kind_mem ht)) (hyes _ _) htwins
  · exact ParallelAt.look hrest hrest' (.accept_no hkinds ht)
      (.accept_no hkinds (by rwa [hf.kind])) (hno c c') htwins

/-- An accepted token is the last one passed. -/
theorem accept_previous {k k' : Token → Reader α}
    (hyes : ∀ t, t.kind ∈ kinds → Parallel f V (k t) (k' (f t))) :
    Parallel f V (Descent.accept kinds >>= fun b => if b = true then previous >>= k else no)
      (Descent.accept kinds >>= fun b => if b = true then previous >>= k' else no') := by
  intro c c' htwins
  rcases htwins.exists_cons with ⟨t, rest, hrest, hrest'⟩
  by_cases ht : t.kind ∈ kinds
  · have hstop : t.kind ≠ .eof := fun heq => hkinds (heq ▸ ht)
    exact ParallelAt.pass hf hrest hrest' hstop (.accept_previous hkinds ht)
      (.accept_previous hkinds (hf.kind_mem ht)) (hyes t ht _ _) htwins
  · exact ParallelAt.look hrest hrest' (.accept_no hkinds ht)
      (.accept_no hkinds (by rwa [hf.kind])) (hno c c') htwins

end Parallel

/-! ## Going on after a syntax error -/

section

variable (hf : Token.Relabels f)

include hf

/-- Behind a token, or in front of the end token, the same tokens are skipped. -/
theorem skipToStatement_parallel (count : Nat) (hc : (∃ u ∈ c.before.head?,
      ∃ u' ∈ c'.before.head?, u'.kind = u.kind) ∨ ∃ t ∈ c.rest.head?, t.kind = .eof) :
    ParallelAt f (fun _ _ => True) c c' (skipToStatement count) (skipToStatement count) := by
  induction count generalizing c c' with
  | zero =>
      have hnone : Parallel f (fun _ _ => True) (skipToStatement 0) (skipToStatement 0) := by
        rw [skipToStatement, ← bind_pure (discard peek), run_discard]
        exact Parallel.peek.bind fun _ _ _ => .pure trivial
      exact hnone c c'
  | succ count ih =>
      intro htwins
      rcases htwins.exists_cons with ⟨t, rest, hrest, hrest'⟩
      have hhere : Outcomes f (fun _ _ => True) c c' ((pure () : Reader Unit).run c)
          ((pure () : Reader Unit).run c') := .yields trivial (.refl htwins.rest)
      rw [skipToStatement, run_bind_ok (run_isAtEnd hrest), run_bind_ok (run_isAtEnd hrest'),
        hf.kind]
      by_cases hend : t.kind = .eof
      · rw [if_pos (by simpa using hend)]
        exact hhere
      rw [if_neg (by simpa using hend)]
      -- the last tokens passed decide alike, unless it is the end that has come
      rcases hc with ⟨u, hu, u', hu', hkind⟩ | ⟨v, hv, hkind⟩
      · rcases List.head?_eq_some_iff.mp hu with ⟨before, hbefore⟩
        rcases List.head?_eq_some_iff.mp hu' with ⟨before', hbefore'⟩
        rw [run_bind_ok (run_previous hbefore), run_bind_ok (run_previous hbefore'), hkind]
        by_cases hclosed : u.kind = .semicolon
        · rw [if_pos (by simpa using hclosed)]
          exact hhere
        rw [if_neg (by simpa using hclosed),
          run_bind_ok (run_peek hrest), run_bind_ok (run_peek hrest'), hf.kind]
        by_cases hopens : startsStatement t.kind = true
        · rw [if_pos hopens]
          exact hhere
        -- the token is passed, and is the last one passed in the next round
        rw [if_neg hopens]
        exact ParallelAt.pass hf hrest hrest' hend (.advance hend)
          (.advance (by rwa [hf.kind])) (ih (.inl ⟨t, rfl, f t, rfl, hf.kind t⟩)) htwins
      · rw [hrest] at hv
        obtain rfl := Option.some.inj hv
        exact absurd hkind hend

/-- The same tokens are skipped, though the last ones passed before may differ in kind. -/
theorem synchronize_parallel : Parallel f (fun _ _ => True) synchronize synchronize := by
  intro c c' htwins
  rcases htwins.exists_cons with ⟨t, rest, hrest, hrest'⟩
  by_cases hend : t.kind = .eof
  · -- there is a last token passed on both sides, which need not be of the same kind
    have hend' : (f t).kind = .eof := hf.kind_eq hend
    have hbefore : c.before ≠ [] :=
      fun hnil => c.not_movable_of_end hrest hend hnil htwins.movable
    have hbefore' : c'.before ≠ [] :=
      fun hnil => c'.not_movable_of_end hrest' hend' hnil htwins.movable'
    rcases List.exists_cons_of_ne_nil hbefore with ⟨u, before, hu⟩
    rcases List.exists_cons_of_ne_nil hbefore' with ⟨u', before', hu'⟩
    rw [synchronize, run_discard,
      run_bind_ok ((run_advance_end hrest hend).trans (run_previous hu)),
      run_bind_ok ((run_advance_end hrest' hend').trans (run_previous hu'))]
    exact ParallelAt.remaining (fun n => skipToStatement_parallel hf n
      (.inr ⟨t, by rw [hrest]; rfl, hend⟩)) htwins
  · exact ParallelAt.pass hf hrest hrest' hend (.advance hend)
      (.advance (by rwa [hf.kind]))
      (.remaining fun n => skipToStatement_parallel hf n (.inl ⟨t, rfl, f t, rfl, hf.kind t⟩))
      htwins

/-- Where one reader is broken off, so is the other, and both go on alike. -/
theorem Parallel.recovering {r r' : Reader α} (hr : Parallel f V r r') :
    Parallel f (Option.Rel V) (recovering r) (recovering r') := by
  intro c c' htwins
  have hfirst := hr c c' htwins
  rw [run_recovering, run_recovering]
  revert hfirst
  rcases r.run c with ⟨o, c₁⟩
  rcases r'.run c' with ⟨o', c₁'⟩
  intro hfirst
  cases hfirst with
  | yields hV habreast => exact .yields (.some hV) habreast
  | stops habreast =>
      -- skipping is the same for both, and yields nothing
      have hgo : Parallel f (Option.Rel V) (synchronize >>= fun _ => (Pure.pure none))
          (synchronize >>= fun _ => Pure.pure none) :=
        (synchronize_parallel hf).bind fun _ _ _ => .pure .none
      exact (hgo c₁ c₁' (habreast.twins htwins)).after habreast

end

/-! ## Trees with other tokens -/

/-- A loop is built of its parts whatever their tokens are. -/
theorem forLoop_relabel (i c n b : Node) :
    (forLoop i c n b).relabel f =
      forLoop (i.relabel f) (c.relabel f) (n.relabel f) (b.relabel f) := by
  -- only whether a part is missing matters to how the loop is built
  have hrounds : (forRounds n b).map (Node.relabel f) =
      forRounds (n.relabel f) (b.relabel f) := by
    cases n <;> rfl
  have htest : (forTest c).relabel f = forTest (c.relabel f) := by
    cases c <;> rfl
  have hblock : ∀ loop, (forBlock i loop).relabel f =
      forBlock (i.relabel f) (loop.relabel f) := by
    intro loop
    cases i <;> rfl
  rw [forLoop_eq, forLoop_eq, hblock, Node.relabel, Node.relabel, Node.relabelAll_eq, hrounds,
    htest]

/-- Only what is missing is replaced by what is missing. -/
theorem relabel_absent {e e' : Node} (h : e.relabel f = e') : e = .absent ↔ e' = .absent := by
  rw [← h]
  cases e <;> simp [Node.relabel]

/-- A list of trees is replaced one by one. -/
theorem relabel_forall₂ {as as' : List Node}
    (h : List.Forall₂ (fun e e' => e.relabel f = e') as as') : Node.relabelAll f as = as' := by
  rw [Node.relabelAll_eq]
  exact forall₂_eq (List.forall₂_map_left_iff.mpr h)

/-- Parts that may be missing are replaced like others. -/
theorem IfPresent.relabel {e e' : Node} (h : IfPresent (fun e e' => e.relabel f = e') e e') :
    e.relabel f = e' := by
  by_cases he : e = .absent
  · rw [he, h.1.mp he]
    rfl
  · exact h.2 he

/-- What is alike is the same with its tokens replaced. -/
def Likeness.relabelled (hf : Token.Relabels f) : Likeness where
  token t t' := f t = t'
  expression _ e e' := e.relabel f = e'
  statement _ s s' := s.relabel f = s'
  elastic := False
  literal _ := rfl
  constant h := by rw [← h, Node.relabel, hf.literal]
  reference h _ := by rw [← h, Node.relabel]
  grouping h := by rw [← h, Node.relabel]
  call hg hp _ has := by rw [← hg, ← hp, ← relabel_forall₂ has, Node.relabel]
  unary ho _ he := by rw [← ho, ← he, Node.relabel]
  join {l} _ _ _ _ _ _ ha ho _ hb := by
    rw [← ha, ← ho, ← hb]
    cases l <;> rfl
  assign he hv := ⟨_, he.symm, by rw [← hv, Node.relabel]⟩
  name {e} n' h := by
    cases e <;> cases h
    exact ⟨_, rfl⟩
  looser _ h := h
  there := relabel_absent
  evaluated h := by rw [← h, Node.relabel]
  printed h := by rw [← h, Node.relabel]
  declared hn _ he := by rw [← hn, ← he.relabel, Node.relabel]
  block hss := by rw [← relabel_forall₂ hss, Node.relabel]
  branch hc hs he := by rw [← hc, ← hs, ← he.relabel, Node.relabel]
  loop hc hs := by rw [← hc, ← hs, Node.relabel]
  inSequence h := h
  stands := relabel_absent

/-- Readers of the same steps do the same in front of the same tokens, replaced. -/
theorem Descends.parallel {m : Manner} {n d : Nat} (hf : Token.Relabels f) {r r' : Reader α}
    (h : Descends (.relabelled hf) m n d V r r') : Parallel f V r r' := by
  induction h with
  | pure hV => exact .pure hV
  | bind _ _ ih ihf => exact ih.bind ihf
  | weaken _ _ _ hV ih => exact fun c c' htwins => (ih c c' htwins).mono hV
  | far _ ih => exact ih
  -- the bounds are equal, so none is used up first
  | blind helastic => exact helastic.elim
  | peek => exact .peek
  | complain complaint ht => exact .complain ht complaint
  | fail complaint _ => exact .fail complaint
  | check hkind => exact .check hf hkind
  | consume complaint _ hkind => exact .consume hf hkind complaint
  | accept hkinds _ _ ihyes ihno => exact .accept hf hkinds ihno ihyes
  | acceptPrevious hkinds _ _ ihyes ihno =>
      exact .accept_previous hf hkinds ihno fun t ht => ihyes t (f t) rfl ht
  | acceptBrace _ _ ihyes ihno => exact .accept hf (by decide) ihno ihyes
  | remaining _ _ ih => exact fun c c' => .remaining fun b => ih 0 b b (.inl rfl) c c'
  | recovering _ ih => exact ih.recovering hf
  -- both see whether the end has come
  | next _ hb _ ih ihf =>
      refine (Parallel.isAtEnd hf).bind fun ended _ hended => ?_
      obtain rfl := hended
      split
      · exact .pure hb
      · exact (ih.recovering hf).bind ihf

/-! ## Programs -/

/-- A program is read to the same statements, with their tokens replaced. -/
theorem program_parallel (hf : Token.Relabels f) :
    Parallel f (fun ss ss' => ss.map (Node.relabel f) = ss') program program := by
  intro c c' htwins
  refine ((program_descends (.relabelled hf) 0).parallel hf c c' htwins).mono fun ss ss' hss => ?_
  rw [← Node.relabelAll_eq]
  exact relabel_forall₂ hss

/-- What is read in front of an end token is nothing. -/
theorem read_end {rest : List Token} (ht : t.kind = .eof) (r : Report) :
    read (t :: rest) r = ([], r) := by
  have hrun : program.run ⟨[], t :: rest, r⟩ = (.ok [], ⟨[], t :: rest, r⟩) := by
    refine (run_bind_ok (show remaining.run _ = (.ok (rest.length + 1), _) from rfl)).trans ?_
    refine (run_bind_ok (run_isAtEnd rfl)).trans ?_
    rw [ht]
    rfl
  rw [read, hrun]

/-- Tokens that have been replaced are read as they were, with the other tokens in what is read
and in what is reported. -/
theorem read_relabel (hf : Token.Relabels f) {tokens : List Token}
    (hend : ∃ t ∈ tokens, t.kind = .eof) (r : Report) :
    ∃ ds, (read tokens r).2 = r.addAll ds ∧
      read (tokens.map f) r =
        ((read tokens r).1.map (Node.relabel f), r.addAll (ds.map (Diagnostic.relabel f))) := by
  rcases tokens with _ | ⟨t, rest⟩
  · rcases hend with ⟨t, hmem, -⟩
    cases hmem
  -- in front of an end token nothing could be skipped, but nothing is read either
  by_cases ht : t.kind = .eof
  · rw [List.map_cons, read_end ht, read_end (hf.kind_eq ht)]
    exact ⟨[], rfl, rfl⟩
  have hmove : (⟨[], t :: rest, r⟩ : Cursor).Movable := .inr (by simpa using ht)
  have hmove' : (⟨[], (t :: rest).map f, r⟩ : Cursor).Movable := .inr (by simpa [hf.kind] using ht)
  have htwins : Twins f ⟨[], t :: rest, r⟩ ⟨[], (t :: rest).map f, r⟩ := ⟨rfl, hend, hmove, hmove'⟩
  have houtcomes := program_parallel hf _ _ htwins
  unfold read
  -- a reader that stops leaves no statements, and the same errors
  revert houtcomes
  rcases program.run ⟨[], t :: rest, r⟩ with ⟨o, c⟩
  rcases program.run ⟨[], (t :: rest).map f, r⟩ with ⟨o', c'⟩
  rintro (⟨hss, habreast⟩ | ⟨habreast⟩)
  · exact ⟨_, habreast.first.report, Prod.ext hss.symm habreast.second.report⟩
  · exact ⟨_, habreast.first.report, Prod.ext rfl habreast.second.report⟩

end Descent

end NovaLang
