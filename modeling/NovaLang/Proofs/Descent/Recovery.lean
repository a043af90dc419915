import NovaLang.Proofs.Descent.Complete
import NovaLang.Proofs.Descent.Locality
import NovaLang.Proofs.Descent.Termination

namespace NovaLang.Descent

open Phrase

/-! # Broken statements

A broken statement does not disturb its neighbours. Whatever stands around it, the same
errors are reported for it, the statements in front of it have been read, and those behind
its semicolon are read as if it were not there.
-/

/-! ## Fragments -/

/-- The tokens hold no block and no end token, only the last one may be a semicolon, and only
the first one may begin a statement. They end in a semicolon or in front of an end token. -/
structure Fragment (ts rest : List Token) : Prop where
  inner : ∀ t ∈ ts, t.kind ≠ .leftBrace ∧ t.kind ≠ .eof
  starts : ∀ t ∈ ts.tail, startsStatement t.kind = false
  semicolons : ∀ t ∈ ts.dropLast, t.kind ≠ .semicolon
  more : rest ≠ []
  last : (∀ t ∈ ts.getLast?, t.kind = .semicolon) ∨ ∀ t ∈ rest.head?, t.kind = .eof

theorem Fragment.of_append {xs ys rest : List Token} (h : Fragment (xs ++ ys) rest)
    (hys : ys ≠ []) : Fragment ys rest where
  inner t ht := h.inner t (List.mem_append_right xs ht)
  starts t ht := by
    refine h.starts t ?_
    cases xs with
    | nil => exact ht
    | cons x xs => exact List.mem_append_right xs (List.mem_of_mem_tail ht)
  semicolons t ht := by
    refine h.semicolons t ?_
    rw [List.dropLast_append_of_ne_nil hys]
    exact List.mem_append_right xs ht
  more := h.more
  last := by
    have hlast := h.last
    rcases List.eq_nil_or_concat ys with rfl | ⟨ys, y, rfl⟩
    · exact absurd rfl hys
    · simpa [← List.append_assoc] using hlast

/-- From behind the first token of a fragment, tokens are skipped up to its end. -/
theorem run_skip {t : Token} {ts rest : List Token} (h : Fragment (t :: ts) rest) :
    ∀ (count : Nat) (before : List Token) (r : Report), ts.length ≤ count →
      (skipToStatement count).run ⟨t :: before, ts ++ rest, r⟩ =
        (.ok (), ⟨ts.reverse ++ t :: before, rest, r⟩) := by
  induction ts generalizing t with
  | nil =>
      intro count before r _
      rcases List.exists_cons_of_ne_nil h.more with ⟨u, more, rfl⟩
      cases count with
      | zero => rfl
      | succ count =>
          rw [skipToStatement, run_bind_ok (run_isAtEnd rfl)]
          by_cases hu : u.kind = .eof
          · rw [if_pos (by simpa using hu)]
            rfl
          · -- the fragment is not followed by an end token, so its last token is a semicolon
            have ht : t.kind = .semicolon := by
              rcases h.last with hlast | hend
              · exact hlast t rfl
              · exact absurd (hend u rfl) hu
            rw [if_neg (by simpa using hu), run_bind_ok (run_previous rfl)]
            rw [if_pos (by simpa using ht)]
            rfl
  | cons u ts ih =>
      intro count before r hcount
      rcases count with _ | count
      · cases hcount
      have hu := (h.inner u (by simp)).2
      have ht : t.kind ≠ .semicolon := h.semicolons t (by simp)
      have hstart : startsStatement u.kind = false := h.starts u List.mem_cons_self
      have hmore : Fragment (u :: ts) rest :=
        Fragment.of_append (show Fragment ([t] ++ u :: ts) rest from h) (by simp)
      rw [List.cons_append, skipToStatement, run_bind_ok (run_isAtEnd rfl)]
      rw [if_neg (by simpa using hu), run_bind_ok (run_previous rfl)]
      rw [if_neg (by simpa using ht), run_bind_ok (run_peek rfl)]
      rw [if_neg (by simp [hstart]), run_discard, run_bind_ok (run_advance_inside rfl hu)]
      rw [List.reverse_cons, List.append_assoc]
      exact ih hmore count (t :: before) r (Nat.le_of_succ_le_succ hcount)

/-- After a syntax error within a fragment, reading goes on at its end. -/
theorem run_synchronize_fragment {t : Token} {ts rest : List Token} (h : Fragment (t :: ts) rest)
    (before : List Token) (r : Report) :
    synchronize.run ⟨before, t :: ts ++ rest, r⟩ =
      (.ok (), ⟨ts.reverse ++ t :: before, rest, r⟩) := by
  have ht := (h.inner t List.mem_cons_self).2
  have hlength : (ts ++ rest).length = ts.length + rest.length := List.length_append
  rw [synchronize, run_discard, run_bind_ok (run_advance_inside rfl ht)]
  refine (run_bind_ok (a := (ts ++ rest).length) rfl).trans ?_
  exact run_skip h _ before r (by omega)

/-! ## Broken declarations -/

/-- A declaration of a program, before anything is done about a syntax error. -/
def attempt (bound : Nat) : Reader Node :=
  unguarded (expressionWithin bound) (statementWithin bound)

theorem declarationWithin_eq (bound : Nat) : declarationWithin bound = recovering (attempt bound) :=
  rfl

theorem attempt_local (bound : Nat) : Local (attempt bound) := unguardedWithin_local bound bound

theorem declarationsToEnd_reports (bound count : Nat) (c : Cursor) :
    ReportsAt (declarationsToEnd (declarationWithin bound) count) c := by
  have hattempt : Descends (.same False) .near 0 1 _ (attempt bound) (attempt bound) :=
    unguardedWithin_descends (.refl 0 bound) (.refl 0 bound)
  have hall := declarationsToEnd_descends hattempt.far (Nat.le_refl 0) (.refl 0 count)
  exact (hall.local c).looks

section

variable {bound : Nat} {c c' : Cursor}

theorem run_declarations_inside (hc : c.Inside) (hrest : c.rest ≠ []) (count : Nat) :
    (declarationsToEnd (declarationWithin bound) (count + 1)).run c = (do
      let first ← declarationWithin bound
      let more ← declarationsToEnd (declarationWithin bound) count
      return first.toList ++ more : Reader (List Node)).run c := by
  rcases List.exists_cons_of_ne_nil hrest with ⟨t, rest, hrest⟩
  have ht := hc t (by rw [hrest]; rfl)
  exact (run_bind_ok (run_isAtEnd hrest)).trans (by rw [if_neg (by simpa using ht)])

theorem run_declarations_end {t : Token} {rest : List Token} (hrest : c.rest = t :: rest)
    (ht : t.kind = .eof) (count : Nat) :
    (declarationsToEnd (declarationWithin bound) count).run c = (.ok [], c) := by
  cases count with
  | zero =>
      rw [declarationsToEnd, run_discard, run_bind_ok (run_peek hrest)]
      rfl
  | succ count =>
      refine (run_bind_ok (run_isAtEnd hrest)).trans ?_
      rw [if_pos (by simpa using ht)]
      rfl

/-- Where a program is read without any statement, its first declaration is broken, and the
error that it stops at is one of those reported. -/
theorem first_broken {count : Nat} {ds : List Diagnostic} (hc : c.Inside) (hrest : c.rest ≠ [])
    (hrun : (declarationsToEnd (declarationWithin bound) (count + 1)).run c = (.ok [], c'))
    (hreport : c'.report = c.report.addAll ds) :
    ∃ m c₁ ts es, (attempt bound).run c = (.error (.syntaxError m), c₁) ∧
      Near (attempt bound) c ts es ∧ ∃ t ∈ c₁.rest.head?, ⟨.token t, m⟩ ∈ ds := by
  rw [run_declarations_inside hc hrest] at hrun
  rcases run_bind_eq_ok.mp hrun with ⟨first, c₂, hfirst, hrun⟩
  rcases run_bind_eq_ok.mp hrun with ⟨more, c₃, hmore, hlast⟩
  rcases Prod.mk.inj hlast with ⟨hresult, rfl⟩
  rcases List.append_eq_nil_iff.mp (Except.ok.inj hresult) with ⟨hnone, -⟩
  obtain rfl : first = none := Option.toList_eq_nil_iff.mp hnone
  rw [declarationWithin_eq, run_recovering] at hfirst
  rcases attempt_local bound c with ⟨ts, es, hnear⟩
  have hmoved := hnear.moved
  have hblames := @hnear.blames
  rcases hattempt : (attempt bound).run c with ⟨(m | fault) | s, c₁⟩
  · rw [hattempt] at hfirst hmoved hblames
    rcases hblames rfl with ⟨t, ht, hmem⟩
    refine ⟨m, c₁, ts, es, rfl, hnear, t, ht, ?_⟩
    -- what is reported later does not take away what has been reported
    have hsynchronize : ReportsAt synchronize c₁ :=
      .of_steady (synchronize_steady (d := 0) (Nat.zero_le 1) nofun)
    rcases hsynchronize.bind fun _ c _ => (Local.pure (none : Option Node) c).reports with
      ⟨us, fs, hgo⟩
    rcases declarationsToEnd_reports bound count c₂ with ⟨vs, gs, hon⟩
    have hmoved' := hgo.moved
    have hmoved'' := hon.moved
    rw [show (synchronize >>= _ : Reader (Option Node)).run c₁ = _ from hfirst] at hmoved'
    rw [hmore] at hmoved''
    have hall := (hmoved.trans (hmoved'.trans hmoved'')).report
    rw [Report.addAll_inj (hreport.symm.trans hall)]
    exact List.mem_append_left _ hmem
  · rw [hattempt] at hfirst
    cases hfirst
  · rw [hattempt] at hfirst
    cases hfirst

end

/-- A token that is no end token, and that none stands in front of, is in front of the first one. -/
theorem exists_split_before_end {ts us xs more : List Token} {stop t : Token}
    (h : ts ++ stop :: us = xs ++ t :: more) (hstop : stop.kind = .eof)
    (hxs : ∀ u ∈ xs, u.kind ≠ .eof) (ht : t.kind ≠ .eof) : ∃ ys, ts = xs ++ t :: ys := by
  rcases List.append_eq_append_iff.mp h with ⟨zs, rfl, hend⟩ | ⟨zs, rfl, hend⟩
  · cases zs with
    | nil =>
        obtain ⟨rfl, -⟩ := List.cons.inj hend
        exact absurd hstop ht
    | cons z zs =>
        obtain ⟨rfl, -⟩ := List.cons.inj hend
        exact absurd hstop (hxs stop (by simp))
  · cases zs with
    | nil =>
        obtain ⟨rfl, -⟩ := List.cons.inj hend
        exact absurd hstop ht
    | cons z zs =>
        obtain ⟨rfl, -⟩ := List.cons.inj hend
        exact ⟨zs, rfl⟩

/-- A fragment that yields no statement and no error at an end token when it is read alone is
skipped wherever it stands, and the same errors are reported for it. -/
theorem fragment_broken {bound : Nat} {ts us : List Token} {stop : Token} {r : Report}
    {ds : List Diagnostic} (hts : ts ≠ []) (hfragment : Fragment ts (stop :: us))
    (hstop : stop.kind = .eof) (hbound : (ts ++ stop :: us).length ≤ bound)
    (hends : Ends (ts ++ stop :: us) r (.ok [], ⟨ts.reverse, stop :: us, r.addAll ds⟩))
    (hds : ∀ d ∈ ds, ∀ t, d.place = .token t → t.kind ≠ .eof)
    {rest : List Token} (hrest : Fragment ts rest) (before : List Token) :
    (declarationWithin bound).run ⟨before, ts ++ rest, r⟩ =
      (.ok none, ⟨ts.reverse ++ before, rest, r.addAll ds⟩) := by
  have hrun := hends.2 bound hbound
  obtain ⟨count, rfl⟩ : ∃ n, bound = n + 1 := ⟨bound - 1, by simp at hbound; omega⟩
  have hinside : (⟨[], ts ++ stop :: us, r⟩ : Cursor).Inside := by
    rcases List.exists_cons_of_ne_nil hts with ⟨t, ts, rfl⟩
    exact Cursor.inside_of_cons rfl (hfragment.inner t List.mem_cons_self).2
  rcases first_broken hinside (by simp) hrun rfl with
    ⟨m, c₁, xs, es, hattempt, hnear, t, ht, hmem⟩
  have hteof : t.kind ≠ .eof := hds _ hmem t rfl
  have hmoved := hnear.moved
  have hsame := hnear.same
  rw [hattempt] at hmoved hsame
  -- the token that the error is reported at is one of the fragment
  obtain ⟨ys, rfl⟩ : ∃ ys, ts = xs ++ t :: ys := by
    have hsplit : ts ++ stop :: us = xs ++ t :: c₁.rest.tail :=
      hmoved.rest.trans (congrArg (xs ++ ·) (List.eq_cons_of_mem_head? ht))
    exact exists_split_before_end hsplit hstop hmoved.inner hteof
  have hskip : ∀ before rest, Fragment (xs ++ t :: ys) rest →
      (declarationWithin (count + 1)).run ⟨before, xs ++ t :: ys ++ rest, r⟩ =
        (.ok none, ⟨(xs ++ t :: ys).reverse ++ before, rest, c₁.report⟩) := by
    intro before rest hrest
    have hnone : ∀ u ∈ xs, u.kind ≠ .leftBrace := fun u hu =>
      (hfragment.inner u (List.mem_append_left _ hu)).1
    have hfails := hsame hnone t ht before (ys ++ rest)
    rw [declarationWithin_eq, run_recovering, List.append_assoc, List.cons_append, hfails]
    have hgo := run_synchronize_fragment (Fragment.of_append hrest (by simp)) (xs.reverse ++ before)
      c₁.report
    refine (run_bind_ok hgo).trans ?_
    rw [List.reverse_append, List.reverse_cons, List.append_assoc, List.append_assoc]
    rfl
  -- reading the fragment alone, nothing is reported after it has been skipped
  have hreport : c₁.report = r.addAll ds := by
    rw [run_declarations_inside hinside (by simp), run_bind_ok (hskip [] _ hfragment),
      run_bind_ok (run_declarations_end rfl hstop count)] at hrun
    exact congrArg (fun o => o.2.report) hrun
  rw [← hreport]
  exact hskip before rest hrest

/-! ## Programs around a broken statement -/

/-- The declarations of a block, or of a program. -/
def declarationsOf (inBlock : Bool) (bound bound' count : Nat) : Reader (List Node) :=
  if inBlock then
    declarationsToBrace (declarationWith (expressionWithin bound) (statementWithin bound')) count
  else
    declarationsToEnd (declarationWith (expressionWithin bound) (statementWithin bound')) count

/-- In front of a declaration, that is read first. -/
theorem declarationsOf_next {t : Token} (heof : t.kind ≠ .eof) (hbrace : t.kind ≠ .rightBrace)
    (inBlock : Bool) (bound bound' count : Nat) (rest : List Token) :
    Leads (declarationsOf inBlock bound bound' (count + 1)) [] (do
      let first ← declarationWith (expressionWithin bound) (statementWithin bound')
      let more ← declarationsOf inBlock bound bound' count
      return first.toList ++ more) (t :: rest) := by
  have heof' : (t.kind == .eof) = false := beq_eq_false_iff_ne.mpr heof
  cases inBlock with
  | true =>
      refine .look (.check_no (by decide) hbrace) (.look .isAtEnd ?_)
      rw [heof']
      exact .refl _ _
  | false =>
      refine .look .isAtEnd ?_
      rw [heof']
      exact .refl _ _

/-- The statements of a program are read, whatever is read behind them, unless it begins
with an `else`. -/
theorem declarationsOf_lead {inBlock : Bool} {bound bound' : Nat} {ts : List Token}
    {ss : List Node} (h : Program ts ss) (hbound : ts.length ≤ bound) (hbound' : ts.length ≤ bound')
    {t : Token} (ht : t.kind ≠ .kwElse) (rest : List Token) (count : Nat) :
    Leads (declarationsOf inBlock bound bound' (ss.length + count)) ts (do
      let more ← declarationsOf inBlock bound bound' count
      return ss ++ more) (t :: rest) := by
  rw [Program] at h
  generalize hp : Part.declarations = p, hd : false = d, hn : Node.list ss = n at h
  induction h generalizing ss with
  | none =>
      cases hn
      intro before report
      simp
  | @cons d xs ys s ss' hs hss _ ih =>
      cases hn
      obtain ⟨u, us, rfl, hu⟩ := hs.first (by simp)
      have hkind : ∀ k, k ∉ stmtStarts .declaration → u.kind ≠ k := fun k hk h => hk (h ▸ hu)
      simp only [List.length_append, List.length_cons] at hbound hbound'
      obtain ⟨v, more, heq, hsettled⟩ := declarations_settle hss ht rest
      have hfirst := stmt_completed hs bound bound' v more (by simp; omega) (by simp; omega)
        (hsettled d)
      rw [← heq] at hfirst
      have hmore := ih (by omega) (by omega) rfl rfl rfl
      rw [List.length_cons, Nat.add_right_comm]
      refine .look (declarationsOf_next (hkind _ (by decide)) (hkind _ (by decide)) inBlock bound
        bound' _ _) ?_
      refine .trans (.bind hfirst) ?_
      intro before report
      have hrun := hmore before report
      rw [run_bind, hrun, run_bind, run_bind]
      rcases (declarationsOf inBlock bound bound' count).run _ with ⟨_ | _, c⟩
      · rfl
      · rfl
  | exprStmt | printStmt | forLoop | whileLoop | ifAlone | ifElse | block | varDecl | statement =>
      cases hp

theorem declarations_lead {bound : Nat} {ts : List Token} {ss : List Node} (h : Program ts ss)
    (hbound : ts.length ≤ bound) {t : Token} (ht : t.kind ≠ .kwElse) (rest : List Token)
    (count : Nat) :
    Leads (declarationsToEnd (declarationWithin bound) (ss.length + count)) ts (do
      let more ← declarationsToEnd (declarationWithin bound) count
      return ss ++ more) (t :: rest) :=
  @declarationsOf_lead false _ _ _ _ h hbound hbound _ ht rest count

theorem length_of_program {ts : List Token} {ss : List Node} (h : Program ts ss) :
    ss.length ≤ ts.length := by
  rw [Program] at h
  generalize hp : Part.declarations = p, hd : false = d, hn : Node.list ss = n at h
  induction h generalizing ss with
  | none =>
      cases hn
      exact Nat.le_refl 0
  | cons hs _ _ ih =>
      cases hn
      obtain ⟨t, us, rfl, -⟩ := hs.first (by simp)
      have hmore := ih rfl rfl rfl
      simp only [List.length_append, List.length_cons]
      omega
  | exprStmt | printStmt | forLoop | whileLoop | ifAlone | ifElse | block | varDecl | statement =>
      cases hp

theorem run_program {ts : List Token} {ss : List Node} {stop : Token} (h : Program ts ss)
    (hstop : stop.kind = .eof) (us : List Token) (r : Report) :
    ∃ c, program.run ⟨[], ts ++ stop :: us, r⟩ = (.ok ss, c) ∧ c.report = r := by
  have hlength : ts.length ≤ (ts ++ stop :: us).length := by simp
  refine ⟨⟨ts.reverse ++ [], stop :: us, r⟩, ?_, rfl⟩
  exact (run_bind_ok rfl).trans
    ((stmt_completed h ss rfl).2 _ _ stop us hlength hlength hstop [] r)

/-- Two programs, and tokens between them that are skipped, are read as the two programs. -/
theorem run_around {ps ts qs us : List Token} {as cs : List Node} {stop : Token} {r r' : Report}
    (hps : Program ps as) (hqs : Program qs cs) (hts : ts ≠ [])
    (hfirst : ∀ t ∈ ts.head?, t.kind ≠ .kwElse ∧ t.kind ≠ .eof) (hstop : stop.kind = .eof)
    (hskip : ∀ bound before, (ps ++ (ts ++ (qs ++ stop :: us))).length ≤ bound →
      (declarationWithin bound).run ⟨before, ts ++ (qs ++ stop :: us), r⟩ =
        (.ok none, ⟨ts.reverse ++ before, qs ++ stop :: us, r'⟩)) :
    ∃ c, program.run ⟨[], ps ++ (ts ++ (qs ++ stop :: us)), r⟩ = (.ok (as ++ cs), c) ∧
      c.report = r' := by
  rcases List.exists_cons_of_ne_nil hts with ⟨t, ts, rfl⟩
  rcases hfirst t rfl with ⟨helse, heof⟩
  have hlength := length_of_program hps
  have hskip := hskip _ (ps.reverse ++ []) (Nat.le_refl _)
  have hprogram : program.run ⟨[], ps ++ (t :: ts ++ (qs ++ stop :: us)), r⟩ =
      (declarationsToEnd (declarationWithin _) _).run ⟨[], _, r⟩ := run_bind_ok rfl
  generalize hbound : (ps ++ (t :: ts ++ (qs ++ stop :: us))).length = bound at hskip hprogram
  simp only [List.length_append, List.length_cons] at hbound
  -- one round for each statement of the first program, one for what is skipped, and the others
  obtain ⟨count, hcount⟩ : ∃ count, bound = as.length + (count + 1) :=
    ⟨bound - as.length - 1, by omega⟩
  have hlead := declarations_lead hps (show ps.length ≤ bound by omega) helse
    (ts ++ (qs ++ stop :: us)) (count + 1) [] r
  have hmore := (stmt_completed hqs cs rfl).2 bound count stop us (by omega) (by omega) hstop
    ((t :: ts).reverse ++ (ps.reverse ++ [])) r'
  have hinside : (⟨ps.reverse ++ [], t :: ts ++ (qs ++ stop :: us), r⟩ : Cursor).Inside :=
    Cursor.inside_of_cons rfl heof
  have hrest : (declarationsToEnd (declarationWithin bound) (count + 1)).run _ = _ :=
    run_declarations_inside hinside (by simp) count
  rw [run_bind_ok hskip, run_bind_ok hmore] at hrest
  refine ⟨⟨qs.reverse ++ ((t :: ts).reverse ++ (ps.reverse ++ [])), stop :: us, r'⟩, ?_, rfl⟩
  rw [← hcount] at hlead
  exact hprogram.trans (hlead.trans (run_bind_ok hrest))

/-! ## Broken statements in programs -/

/-- The tokens of a broken statement up to its semicolon: no semicolon and no block, no
`else` at their beginning, and no beginning of a statement behind the first token. -/
structure Broken (ts : List Token) : Prop where
  inner : ∀ t ∈ ts, t.kind ≠ .semicolon ∧ t.kind ≠ .leftBrace
  first : ∀ t ∈ ts.head?, t.kind ≠ .kwElse
  starts : ∀ t ∈ ts.tail, startsStatement t.kind = false

theorem Broken.fragment {ts rest : List Token} {semicolon : Token} (h : Broken ts)
    (hsemicolon : semicolon.kind = .semicolon) (hts : ∀ t ∈ ts, t.kind ≠ .eof) (hrest : rest ≠ []) :
    Fragment (ts ++ [semicolon]) rest where
  inner := by
    simp only [List.forall_mem_append, List.forall_mem_singleton]
    exact ⟨fun t ht => ⟨(h.inner t ht).2, hts t ht⟩, by simp [hsemicolon]⟩
  starts := by
    cases ts with
    | nil => exact nofun
    | cons t ts =>
        rw [List.cons_append, List.tail_cons, List.forall_mem_append, List.forall_mem_singleton]
        exact ⟨h.starts, by rw [hsemicolon]; rfl⟩
  semicolons := by
    rw [List.dropLast_concat]
    exact fun t ht => (h.inner t ht).1
  more := hrest
  last := .inl (by simp [hsemicolon])

/-- In front of an end token the statement ends there. -/
theorem Broken.fragment_end {xs ys us : List Token} {stop : Token} (h : Broken (xs ++ ys))
    (hxs : ∀ t ∈ xs, t.kind ≠ .eof) (hstop : stop.kind = .eof) : Fragment xs (stop :: us) where
  inner t ht := ⟨(h.inner t (List.mem_append_left ys ht)).2, hxs t ht⟩
  starts t ht := by
    refine h.starts t ?_
    cases xs with
    | nil => cases ht
    | cons x xs => exact List.mem_append_left ys ht
  semicolons t ht := (h.inner t (List.mem_append_left ys ((List.dropLast_sublist xs).subset ht))).1
  more := by simp
  last := .inr (by simpa using hstop)

/-- Reading up to an end token ends in only one way. -/
theorem ends_of_read {ts us : List Token} {stop : Token} {r : Report} {ss : List Node}
    {ds : List Diagnostic} (hts : ∀ t ∈ ts, t.kind ≠ .eof) (hstop : stop.kind = .eof)
    (h : read (ts ++ stop :: us) r = (ss, r.addAll ds)) :
    Ends (ts ++ stop :: us) r (.ok ss, ⟨ts.reverse, stop :: us, r.addAll ds⟩) := by
  rcases ends_at_end hts hstop r with ⟨ss', ds', hends⟩
  have hrun := (hends us).1
  rw [read, hrun] at h
  rcases Prod.mk.inj h with ⟨rfl, hreport⟩
  rw [← hreport]
  exact hends us

theorem exists_first_end {ts : List Token} (h : ∃ t ∈ ts, t.kind = .eof) :
    ∃ xs stop ys, ts = xs ++ stop :: ys ∧ (∀ t ∈ xs, t.kind ≠ .eof) ∧ stop.kind = .eof := by
  induction ts with
  | nil => simp at h
  | cons t ts ih =>
      by_cases ht : t.kind = .eof
      · exact ⟨[], t, ts, rfl, nofun, ht⟩
      · obtain ⟨xs, stop, ys, rfl, hxs, hstop⟩ := ih (by simpa [ht] using h)
        exact ⟨t :: xs, stop, ys, rfl, List.forall_mem_cons.mpr ⟨ht, hxs⟩, hstop⟩

/-- A broken statement between two programs. If reading it alone, it yields no statement and
no error at an end token, then the statements of both programs are read, and nothing is
reported but the errors that are when it is read alone. If there is an end token in it,
what stands behind that is not read. -/
theorem read_around_broken {ps bs qs : List Token} {as cs : List Node}
    {semicolon stop stop' : Token} {r : Report} {ds : List Diagnostic} (hps : Program ps as)
    (hqs : Program qs cs) (hbs : Broken bs) (hsemicolon : semicolon.kind = .semicolon)
    (hstop : stop.kind = .eof) (hstop' : stop'.kind = .eof)
    (halone : read (bs ++ [semicolon, stop]) r = ([], r.addAll ds))
    (hds : ∀ d ∈ ds, ∀ t, d.place = .token t → t.kind ≠ .eof) :
    ∃ c, program.run ⟨[], ps ++ bs ++ semicolon :: qs ++ [stop'], r⟩ =
        (.ok (as ++ if ∃ t ∈ bs, t.kind = .eof then [] else cs), c) ∧
      c.report = r.addAll ds := by
  by_cases hend : ∃ t ∈ bs, t.kind = .eof
  · rw [if_pos hend]
    obtain ⟨xs, stop, ys, rfl, hxs, hstop⟩ := exists_first_end hend
    have hall : ps ++ (xs ++ stop :: ys) ++ semicolon :: qs ++ [stop'] =
        ps ++ (xs ++ ([] ++ stop :: (ys ++ semicolon :: qs ++ [stop']))) := by simp
    rw [List.append_assoc, List.cons_append] at halone
    have hends := ends_of_read hxs hstop halone
    rw [hall]
    cases xs with
    | nil =>
        -- alone there is nothing to read, so nothing is reported
        have hnothing := (hends.2 _ (Nat.le_refl _)).symm.trans
          (run_declarations_end rfl hstop _)
        have hreport : r.addAll ds = r := congrArg (fun o => o.2.report) hnothing
        rw [hreport, List.append_nil]
        exact run_program hps hstop _ r
    | cons x xs =>
        have hfragment : ∀ us, Fragment (x :: xs) (stop :: us) :=
          fun us => hbs.fragment_end hxs hstop
        refine run_around hps .none (by simp) ?_ hstop fun bound before hbound => ?_
        · simpa using ⟨hbs.first x rfl, hxs x List.mem_cons_self⟩
        · refine fragment_broken (by simp) (hfragment _) hstop ?_ hends hds (hfragment _) before
          simp only [List.length_append, List.length_cons, List.length_nil] at hbound ⊢
          omega
  · rw [if_neg hend]
    have hinner : ∀ t ∈ bs, t.kind ≠ .eof := fun t ht heof => hend ⟨t, ht, heof⟩
    have hfragment : ∀ rest, rest ≠ [] → Fragment (bs ++ [semicolon]) rest :=
      fun rest hrest => hbs.fragment hsemicolon hinner hrest
    have halone' : read (bs ++ [semicolon] ++ [stop]) r = ([], r.addAll ds) := by simpa using halone
    have hends := ends_of_read (fun t ht => ((hfragment [stop] (by simp)).inner t ht).2) hstop
      halone'
    have hall : ps ++ bs ++ semicolon :: qs ++ [stop'] =
        ps ++ (bs ++ [semicolon] ++ (qs ++ [stop'])) := by simp
    rw [hall]
    refine run_around hps hqs (by simp) ?_ hstop' fun bound before hbound => ?_
    · cases bs with
      | nil => simp [hsemicolon]
      | cons b bs => simpa using ⟨hbs.first b rfl, hinner b List.mem_cons_self⟩
    · refine fragment_broken (by simp) (hfragment _ (by simp)) hstop ?_ hends hds
        (hfragment _ (by simp)) before
      simp only [List.length_append, List.length_cons, List.length_nil] at hbound ⊢
      omega

/-- The tokens of a name and a semicolon. -/
def nameStatement (name : String) : List Token :=
  [.scanned .identifier name .nil 1, .scanned .semicolon ";" .nil 1]

theorem nameStatement_program (name : String) : Program (nameStatement name)
    [.expression (.reference (.scanned .identifier name .nil 1))] := by
  have hname : Expr .unary [Token.scanned .identifier name .nil 1] _ :=
    .call (.primary (.name rfl))
  have hterm : Expr (.level .term) [Token.scanned .identifier name .nil 1] _ :=
    .operand (.operand hname)
  have hexpression : Expr .expression [Token.scanned .identifier name .nil 1] _ :=
    .whole (.disjunction (.operand (.operand (.operand (.operand hterm)))))
  exact .cons (.statement (.exprStmt (.expression hexpression rfl))) .none

/-- The tokens of a parenthesis that is not closed, and a name. -/
def openGroup : List Token :=
  [.scanned .leftParen "(" .nil 1, .scanned .identifier "b" .nil 1]

theorem read_around_openGroup :
    let semicolon := Token.scanned .semicolon ";" .nil 1
    let stop := Token.scanned .eof "" .nil 1
    let ds := [⟨.token semicolon, .expected .parenAfterExpression⟩]
    Broken openGroup ∧ read (openGroup ++ [semicolon, stop]) {} = ([], Report.addAll {} ds) ∧
      (∀ d ∈ ds, ∀ t, d.place = .token t → t.kind ≠ .eof) ∧
      ∃ c, program.run ⟨[], nameStatement "a" ++ openGroup ++ semicolon :: nameStatement "c" ++
          [stop], {}⟩ = (.ok [.expression (.reference (.scanned .identifier "a" .nil 1)),
            .expression (.reference (.scanned .identifier "c" .nil 1))], c) ∧
        c.report = Report.addAll {} ds := by
  intro semicolon stop ds
  have hbroken : Broken openGroup := ⟨by decide, by decide, by decide⟩
  have halone : read (openGroup ++ [semicolon, stop]) {} = ([], Report.addAll {} ds) := rfl
  have hds : ∀ d ∈ ds, ∀ t, d.place = .token t → t.kind ≠ .eof := by
    intro d hd t ht
    obtain rfl := List.mem_singleton.mp hd
    obtain rfl := Place.token.inj ht
    decide
  have hstop : stop.kind = .eof := rfl
  have hread := read_around_broken (nameStatement_program "a") (nameStatement_program "c") hbroken
    rfl hstop hstop halone hds
  rw [if_neg (by decide)] at hread
  exact ⟨hbroken, halone, hds, hread⟩

/-- An end token in place of a broken statement ends the program there, and what stands
behind it is lost. -/
theorem read_around_end_token :
    let semicolon := Token.scanned .semicolon ";" .nil 1
    let stop := Token.scanned .eof "" .nil 1
    ¬ ∀ (ps bs qs : List Token) (as cs : List Node) (ds : List Diagnostic), Program ps as →
      Program qs cs → Broken bs → read (bs ++ [semicolon, stop]) {} = ([], Report.addAll {} ds) →
      (∀ d ∈ ds, ∀ t, d.place = .token t → t.kind ≠ .eof) →
      read (ps ++ bs ++ semicolon :: qs ++ [stop]) {} = (as ++ cs, Report.addAll {} ds) := by
  intro semicolon stop h
  have hbroken : Broken [stop] := ⟨by decide, by decide, by decide⟩
  have halone : read ([stop] ++ [semicolon, stop]) {} = ([], {}) := rfl
  have hlost : read ([stop] ++ semicolon :: nameStatement "a" ++ [stop]) {} = ([], {}) := rfl
  have hquiet : ∀ d ∈ ([] : List Diagnostic), ∀ t, d.place = .token t → t.kind ≠ .eof :=
    fun d hd => absurd hd List.not_mem_nil
  have hread := h [] [stop] (nameStatement "a") [] _ [] .none (nameStatement_program "a") hbroken
    halone hquiet
  exact List.cons_ne_nil _ _ (congrArg Prod.fst (hread.symm.trans hlost))

end NovaLang.Descent
