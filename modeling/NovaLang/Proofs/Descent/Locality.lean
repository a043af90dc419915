import NovaLang.Proofs.Descent.Bounds

namespace NovaLang.Descent

/-! # What readers look at

A reader looks at the tokens it passes and at the one behind them, and at no others. Where
these are the same it does the same, whatever stands before and behind. If it stops at a
syntax error, that is reported at the token behind those it has passed. Blocks are left
out: in one of them a reader goes on after a syntax error, and looks back.
-/

variable {α β : Type}

/-- From the cursor the reader passes the tokens and reports the errors. If it stops at a
syntax error, that is among them, and lies at the next token. -/
structure Reports (r : Reader α) (c : Cursor) (ts : List Token) (ds : List Diagnostic) :
    Prop where
  moved : Moved c (r.run c).2 ts ds
  blames {m : Complaint} : (r.run c).1 = .error (.syntaxError m) →
    ∃ t ∈ (r.run c).2.rest.head?, ⟨.token t, m⟩ ∈ ds

/-- The reader does the same wherever it finds the tokens that it passes from the cursor,
with no block among them, and the one behind them. -/
structure Near (r : Reader α) (c : Cursor) (ts : List Token) (ds : List Diagnostic) : Prop
    extends Reports r c ts ds where
  same : (∀ t ∈ ts, t.kind ≠ .leftBrace) → ∀ t ∈ (r.run c).2.rest.head?, ∀ before rest,
    r.run ⟨before, ts ++ t :: rest, c.report⟩ =
      ((r.run c).1, ⟨ts.reverse ++ before, t :: rest, (r.run c).2.report⟩)

/-- From the cursor the reader goes forward, and reports what it stops at. -/
def ReportsAt (r : Reader α) (c : Cursor) : Prop := ∃ ts ds, Reports r c ts ds

/-- From the cursor the reader looks only at what is near. -/
def LocalAt (r : Reader α) (c : Cursor) : Prop := ∃ ts ds, Near r c ts ds

/-- The reader looks only at what is near, wherever it is. -/
def Local (r : Reader α) : Prop := ∀ c, LocalAt r c

/-- A reader that looks at what is near reports what it stops at. -/
theorem LocalAt.reports {r : Reader α} {c : Cursor} (h : LocalAt r c) : ReportsAt r c := by
  rcases h with ⟨ts, ds, hnear⟩
  exact ⟨ts, ds, hnear.toReports⟩

variable {r r' : Reader α} {f : α → Reader β} {c c' : Cursor} {t : Token}
  {ts us rest : List Token} {ds es : List Diagnostic}

/-! ## Steps in a row -/

/-- What the second reader stops at is reported by it, at its next token. -/
theorem Reports.bind {a : α} (hrun : r.run c = (.ok a, c')) (h : Reports r c ts ds)
    (h' : Reports (f a) c' us es) : Reports (r >>= f) c (ts ++ us) (ds ++ es) := by
  have hmoved := h.moved
  rw [hrun] at hmoved
  have hbind := run_bind_ok (f := f) hrun
  constructor
  · rw [hbind]
    exact hmoved.trans h'.moved
  · intro m hstop
    rw [hbind] at hstop ⊢
    rcases h'.blames hstop with ⟨t, ht, hmem⟩
    exact ⟨t, ht, List.mem_append_right ds hmem⟩

/-- Where the first reader stops, so does the sequence. -/
theorem Reports.bind_error {e : Stop} (hrun : r.run c = (.error e, c')) (h : Reports r c ts ds) :
    Reports (r >>= f) c ts ds := by
  have hbind := run_bind_error (f := f) hrun
  have hmoved := h.moved
  have hblames := @h.blames
  rw [hrun] at hmoved hblames
  constructor
  · rw [hbind]
    exact hmoved
  · intro m hstop
    rw [hbind] at hstop ⊢
    exact hblames (congrArg Except.error (Except.error.inj hstop))

/-- A first step that is known, and reports nothing. -/
theorem Reports.after (hrun : r.run c = r'.run c') (hmoved : Moved c c' us [])
    (h : Reports r' c' ts ds) : Reports r c (us ++ ts) ds := by
  constructor
  · rw [hrun]
    exact hmoved.trans h.moved
  · rw [hrun]
    exact h.blames

theorem ReportsAt.bind (h : ReportsAt r c)
    (hf : ∀ a c', r.run c = (.ok a, c') → ReportsAt (f a) c') : ReportsAt (r >>= f) c := by
  rcases h with ⟨ts, ds, h⟩
  rcases hrun : r.run c with ⟨e | a, c'⟩
  · exact ⟨ts, ds, h.bind_error hrun⟩
  · rcases hf a c' hrun with ⟨us, es, h'⟩
    exact ⟨_, _, h.bind hrun h'⟩

theorem LocalAt.bind (h : LocalAt r c) (hf : ∀ a c', r.run c = (.ok a, c') → LocalAt (f a) c') :
    LocalAt (r >>= f) c := by
  rcases h with ⟨ts, ds, h⟩
  have hsame := h.same
  rcases hrun : r.run c with ⟨e | a, c'⟩
  · refine ⟨ts, ds, h.bind_error hrun, ?_⟩
    rw [run_bind_error hrun]
    rw [hrun] at hsame
    exact fun hts t ht before rest => run_bind_error (hsame hts t ht before rest)
  · rcases hf a c' hrun with ⟨us, es, h'⟩
    refine ⟨_, _, h.bind hrun h'.toReports, ?_⟩
    rw [run_bind_ok hrun]
    rw [hrun] at hsame
    intro hnone t ht before rest
    -- the first reader ends in front of what the second one passes, or of where that ends
    obtain ⟨u, more, hmore, hu⟩ : ∃ u more, us ++ t :: rest = u :: more ∧ u ∈ c'.rest.head? := by
      rw [h'.moved.rest]
      cases us with
      | nil => exact ⟨t, rest, rfl, ht⟩
      | cons u us => exact ⟨u, us ++ t :: rest, rfl, rfl⟩
    have hfirst := hsame (fun v hv => hnone v (List.mem_append_left us hv)) u hu before more
    rw [← hmore] at hfirst
    rw [List.append_assoc, run_bind_ok hfirst, List.reverse_append, List.append_assoc]
    exact h'.same (fun v hv => hnone v (List.mem_append_right ts hv)) t ht _ rest

/-- What is near the second reader is near the first one or passed by it. -/
theorem Local.bind (h : Local r) (hf : ∀ a, Local (f a)) : Local (r >>= f) :=
  fun c => (h c).bind fun a c' _ => hf a c'

theorem Local.discard {f : Unit → Reader β} (h : Local r) (hf : Local (f ())) :
    Local (discard r >>= f) := by
  rw [run_discard]
  exact h.bind fun _ => hf

/-! ## Single steps -/

theorem Local.pure (a : α) : Local (pure a : Reader α) :=
  fun c => ⟨[], [], ⟨.refl c, nofun⟩, fun _ _ _ _ _ => rfl⟩

/-- With no tokens left there is no token behind those passed. -/
theorem LocalAt.of_looks (hc : c.rest = []) (h : Looks r) : LocalAt r c := by
  refine ⟨[], [], ⟨?_, ?_⟩, ?_⟩
  · rw [h c hc]
    exact .refl c
  · rw [h c hc]
    exact nofun
  · rw [h c hc, hc]
    exact nofun

/-- A first step that passes nothing, and looks at the next token only. -/
theorem LocalAt.look (hrest : c.rest = t :: rest) (hleads : ∀ rest, Leads r [] r' (t :: rest))
    (h : LocalAt r' c) : LocalAt r c := by
  rcases h with ⟨ts, ds, h⟩
  have hrun : ∀ before more report,
      r.run ⟨before, t :: more, report⟩ = r'.run ⟨before, t :: more, report⟩ :=
    fun before more report => hleads more before report
  have hc : r.run c = r'.run c := (hleads rest).run_look hrest
  refine ⟨ts, ds, .after hc (.refl c) h.toReports, ?_⟩
  rw [hc]
  intro hnone u hu before rest'
  have hsame := h.same hnone u hu before rest'
  have hsplit := hrest.symm.trans h.moved.rest
  -- the next token is the first one passed, or the one behind those passed
  cases ts with
  | nil =>
      rw [List.nil_append] at hsplit
      rw [← hsplit] at hu
      obtain rfl : t = u := Option.some.inj hu
      exact (hrun before rest' c.report).trans hsame
  | cons v ts =>
      obtain ⟨rfl, -⟩ := List.cons.inj hsplit
      exact (hrun before (ts ++ u :: rest') c.report).trans hsame

/-- A first step that passes one token, and looks at no other. -/
theorem LocalAt.pass (hrest : c.rest = t :: rest) (ht : t.kind ≠ .eof)
    (hleads : ∀ rest, Leads r [t] r' rest) (h : LocalAt r' (c.past t rest)) : LocalAt r c := by
  rcases h with ⟨ts, ds, h⟩
  have hc : r.run c = r'.run (c.past t rest) := (hleads rest).run_pass hrest
  refine ⟨t :: ts, ds, .after hc (.past hrest ht) h.toReports, ?_⟩
  rw [hc]
  intro hnone u hu before rest'
  have hsame := h.same (fun v hv => hnone v (List.mem_cons_of_mem t hv)) u hu (t :: before) rest'
  rw [List.reverse_cons, List.append_assoc]
  exact (hleads (ts ++ u :: rest') before c.report).trans hsame

theorem Local.peek : Local peek := by
  intro c
  cases hrest : c.rest with
  | nil => exact .of_looks hrest .peek
  | cons t rest =>
      refine .look hrest (fun rest => ?_) (Local.pure t c)
      exact fun before report => run_peek rfl

/-- The complaint is of the next token, wherever that is. -/
theorem LocalAt.fail (m : Complaint) : LocalAt (fail m : Reader α) c := by
  cases hrest : c.rest with
  | nil => exact .of_looks hrest (.fail m)
  | cons t rest =>
      have hrun := run_fail (α := α) hrest m
      refine ⟨[], [⟨.token t, m⟩], ⟨?_, ?_⟩, ?_⟩
      · rw [hrun]
        exact .complaint c t m
      · rw [hrun]
        intro m' hm
        cases hm
        exact ⟨t, by simp [hrest], List.mem_singleton_self _⟩
      · rw [hrun]
        intro _ u hu before rest'
        rw [hrest] at hu
        obtain rfl : t = u := Option.some.inj hu
        exact run_fail rfl m

theorem Local.complain (t : Token) (m : Complaint) : Local (complain t m) :=
  fun c => ⟨[], [⟨.token t, m⟩], ⟨.complaint c t m, nofun⟩, fun _ _ _ _ _ => rfl⟩

theorem Local.check (kind : Kind) : Local (check kind) := peek.bind fun _ => pure _

theorem Local.isAtEnd : Local isAtEnd := peek.bind fun _ => pure _

/-- To accept a token takes a look at it. -/
theorem Local.accept {kind : Kind} {kinds : List Kind} (hkinds : Kind.eof ∉ kind :: kinds) :
    Local (accept (kind :: kinds)) := by
  intro c
  cases hrest : c.rest with
  | nil => exact .of_looks hrest (.accept kind kinds)
  | cons t rest =>
      by_cases ht : t.kind ∈ kind :: kinds
      · -- what is accepted is passed, and then nothing more is looked at
        refine .pass hrest (fun heq => hkinds (heq ▸ ht)) ?_
          (Local.pure true _)
        exact fun _ => Leads.run_accept_yes hkinds ht
      · refine .look hrest (fun rest => ?_) (Local.pure false c)
        exact fun before report => (run_accept rfl hkinds).trans (if_neg ht)

/-- To ask for a token takes a look at it as well. -/
theorem Local.consume {kind : Kind} (hkind : kind ≠ .eof) (m : Complaint) :
    Local (consume kind m) := by
  intro c
  cases hrest : c.rest with
  | nil => exact .of_looks hrest (.consume kind m)
  | cons t rest =>
      by_cases ht : t.kind = kind
      · refine .pass hrest (ht ▸ hkind) (fun rest => ?_) (Local.pure t _)
        exact fun before report => (run_consume rfl hkind m).trans (if_pos ht)
      · -- otherwise it is the token complained of
        refine .look hrest (fun rest => ?_) (.fail m)
        exact fun before report =>
          ((run_consume rfl hkind m).trans (if_neg ht)).trans (run_fail rfl m).symm

/-! ## Going on after a syntax error -/

/-- A reader that goes on after a syntax error stops at none. -/
theorem ReportsAt.of_steady {d : Nat} {V : α → α → Prop} (h : SteadyAt False d V c r r') :
    ReportsAt r c := by
  have hwent := h.went
  rcases hrun : r.run c with ⟨o, c'⟩
  rw [hrun] at hwent
  cases hwent with
  | @yields a _ ts ds hmoved => exact ⟨ts, ds, by rwa [hrun], by rw [hrun]; exact nofun⟩
  | stops hfalse => exact hfalse.elim
  | @faults _ _ ts ds hmoved => exact ⟨ts, ds, by rwa [hrun], by rw [hrun]; exact nofun⟩

/-- What is skipped is passed, and what was reported before stays reported. -/
theorem recovering_reports (h : ReportsAt r c) : ReportsAt (recovering r) c := by
  rcases h with ⟨ts, ds, hreports⟩
  have hmoved := hreports.moved
  have hrecover := run_recovering r c
  -- of the three outcomes only a syntax error is gone on from
  rcases hrun : r.run c with ⟨(m | fault) | a, c'⟩
  · rw [hrun] at hrecover hmoved
    have hgo : ReportsAt (synchronize >>= fun _ => pure (none : Option α)) c' := by
      refine .bind (.of_steady (synchronize_steady (d := 0) (Nat.zero_le 1) nofun)) ?_
      exact fun _ c' _ => (Local.pure none c').reports
    rcases hgo with ⟨us, es, hgo⟩
    refine ⟨ts ++ us, ds ++ es, ?_, ?_⟩
    · rw [hrecover]
      exact hmoved.trans hgo.moved
    · rw [hrecover]
      intro m' hm
      rcases hgo.blames hm with ⟨t, ht, hmem⟩
      exact ⟨t, ht, List.mem_append_right ds hmem⟩
  all_goals
    rw [hrun] at hrecover hmoved
    exact ⟨ts, ds, by rwa [hrecover], by rw [hrecover]; exact nofun⟩

/-! ## Readers of a manner -/

/-- What a reader of the manner looks at: where it may have gone on after a syntax error, that is
not bounded. -/
def LocalIn (m : Manner) (r : Reader α) (c : Cursor) : Prop :=
  match m with
  | .near => LocalAt r c
  | .far | .safe => ReportsAt r c

/-- At the cursor the reader looks at what it may, and what it yields has the property. -/
structure LocalTo (m : Manner) (post : α → Prop) (r : Reader α) (c : Cursor) : Prop where
  looks : LocalIn m r c
  post {a : α} {c' : Cursor} : r.run c = (.ok a, c') → post a

variable {m : Manner} {P : α → Prop} {Q : β → Prop}

/-- Whatever its manner, a reader reports what it stops at. -/
theorem LocalIn.reports (h : LocalIn m r c) : ReportsAt r c := by
  cases m with
  | near => exact LocalAt.reports h
  | far | safe => exact h

/-- A reader that looks at what is near may be one of any manner. -/
theorem LocalIn.of_local (h : LocalAt r c) : LocalIn m r c := by
  cases m with
  | near => exact h
  | far | safe => exact h.reports

/-- Readers of one manner in a row are a reader of that manner. -/
theorem LocalIn.bind (h : LocalIn m r c)
    (hf : ∀ a c', r.run c = (.ok a, c') → LocalIn m (f a) c') : LocalIn m (r >>= f) c := by
  cases m with
  | near => exact LocalAt.bind h hf
  | far | safe => exact ReportsAt.bind h hf

namespace LocalTo

protected theorem mono {P' : α → Prop} (h : LocalTo m P r c) (hpost : ∀ a, P a → P' a) :
    LocalTo m P' r c :=
  ⟨h.looks, fun hrun => hpost _ (h.post hrun)⟩

/-- With no tokens left nothing is yielded. -/
theorem of_looks (hc : c.rest = []) (h : Looks r) : LocalTo m P r c := by
  refine ⟨.of_local (.of_looks hc h), fun hrun => ?_⟩
  rw [h c hc] at hrun
  cases hrun

/-- A look at the next token, in a reader of any manner. -/
theorem look (hrest : c.rest = t :: rest) (hleads : ∀ rest, Leads r [] r' (t :: rest))
    (h : LocalTo m P r' c) : LocalTo m P r c := by
  have hrun := (hleads rest).run_look hrest
  refine ⟨?_, fun hok => h.post (hrun ▸ hok)⟩
  cases m with
  | near => exact LocalAt.look hrest hleads h.looks
  | far | safe =>
      rcases h.looks with ⟨ts, ds, hreports⟩
      exact ⟨ts, ds, .after hrun (.refl c) hreports⟩

/-- A step past the next token, in a reader of any manner. -/
theorem pass (hrest : c.rest = t :: rest) (ht : t.kind ≠ .eof)
    (hleads : ∀ rest, Leads r [t] r' rest) (h : LocalTo m P r' (c.past t rest)) :
    LocalTo m P r c := by
  have hrun := (hleads rest).run_pass hrest
  refine ⟨?_, fun hok => h.post (hrun ▸ hok)⟩
  cases m with
  | near => exact LocalAt.pass hrest ht hleads h.looks
  | far | safe =>
      rcases h.looks with ⟨ts, ds, hreports⟩
      exact ⟨t :: ts, ds, .after hrun (.past hrest ht) hreports⟩

theorem pure {a : α} (h : P a) : LocalTo m P (pure a : Reader α) c := by
  refine ⟨.of_local (Local.pure a c), ?_⟩
  rintro _ _ ⟨⟩
  exact h

/-- The second reader starts from a result that has the property. -/
theorem bind (h : LocalTo m P r c) (hf : ∀ a, P a → ∀ c', LocalTo m Q (f a) c') :
    LocalTo m Q (r >>= f) c := by
  refine ⟨h.looks.bind fun a c' hrun => (hf a (h.post hrun) c').looks, fun hrun => ?_⟩
  rcases run_bind_eq_ok.mp hrun with ⟨a, c', hfirst, hsecond⟩
  exact (hf a (h.post hfirst) c').post hsecond

/-- A reader that decides between two, and is local whatever the manner. -/
theorem choose {b : Reader Bool} {yes no : Reader β} (hb : LocalAt b c)
    (hyes : ∀ c, LocalTo m Q yes c) (hno : ∀ c, LocalTo m Q no c) :
    LocalTo m Q (b >>= fun b => if b = true then yes else no) c := by
  have hfirst : LocalTo m (fun _ => True) b c := ⟨.of_local hb, fun _ => trivial⟩
  -- either branch may be taken, so both are local
  refine hfirst.bind fun found _ c' => ?_
  split
  · exact hyes c'
  · exact hno c'

theorem fail (complaint : Complaint) : LocalTo m P (fail complaint : Reader α) c := by
  refine ⟨.of_local (.fail complaint), fun hrun => ?_⟩
  cases hrest : c.rest with
  | nil =>
      rw [Looks.fail complaint c hrest] at hrun
      cases hrun
  | cons t rest =>
      rw [run_fail hrest] at hrun
      cases hrun

/-- What is asked for has its kind. -/
theorem consume {kind : Kind} (hkind : kind ≠ .eof) (complaint : Complaint) :
    LocalTo m (fun t => t.kind = kind) (consume kind complaint) c := by
  refine ⟨.of_local (Local.consume hkind complaint c), fun hrun => ?_⟩
  cases hrest : c.rest with
  | nil =>
      rw [Looks.consume kind complaint c hrest] at hrun
      cases hrun
  | cons t rest =>
      rw [run_consume hrest hkind] at hrun
      by_cases ht : t.kind = kind
      · rw [if_pos ht] at hrun
        cases hrun
        exact ht
      · rw [if_neg ht] at hrun
        cases hrun

/-- An accepted token is the last one passed. -/
theorem accept_previous {kind : Kind} {kinds : List Kind} {f : Token → Reader β} {no : Reader β}
    (hkinds : Kind.eof ∉ kind :: kinds)
    (hyes : ∀ t : Token, t.kind ∈ kind :: kinds → ∀ c, LocalTo m Q (f t) c)
    (hno : LocalTo m Q no c) :
    LocalTo m Q
      (Descent.accept (kind :: kinds) >>= fun b => if b = true then previous >>= f else no) c := by
  cases hrest : c.rest with
  | nil => exact of_looks hrest ((Looks.accept kind kinds).bind _)
  | cons t rest =>
      by_cases ht : t.kind ∈ kind :: kinds
      · have hstop : t.kind ≠ .eof := fun heq => hkinds (heq ▸ ht)
        exact pass hrest hstop (fun _ => .accept_previous hkinds ht) (hyes t ht _)
      · exact look hrest (fun _ => .accept_no hkinds ht) hno

/-- What follows an opening brace may look anywhere. -/
theorem accept_brace {yes no : Reader β} (hyes : ∀ c, LocalTo .far Q yes c)
    (hno : LocalTo .near Q no c) :
    LocalTo .near Q (Descent.accept [.leftBrace] >>= fun b => if b = true then yes else no) c := by
  cases hrest : c.rest with
  | nil => exact of_looks hrest ((Looks.accept _ _).bind _)
  | cons t rest =>
      by_cases ht : t.kind ∈ [Kind.leftBrace]
      · have hbrace := List.mem_singleton.mp ht
        have hrun : (accept [.leftBrace] >>= fun b => if b = true then yes else no).run c =
            yes.run (c.past t rest) := (Leads.accept_yes (by decide) ht).run_pass hrest
        refine ⟨?_, fun hok => (hyes _).post (hrun ▸ hok)⟩
        -- the brace is among the tokens passed, so nothing is claimed of what is near
        rcases (hyes (c.past t rest)).looks with ⟨ts, ds, hreports⟩
        have hpast := Moved.past hrest (by simp [hbrace])
        exact ⟨t :: ts, ds, .after hrun hpast hreports,
          fun hnone => absurd hbrace (hnone t List.mem_cons_self)⟩
      · exact look hrest (fun _ => .accept_no (by decide) ht) hno

/-- All tokens to come are looked at. -/
theorem remaining {r : Nat → Reader α} (hm : m ≠ .near) (h : ∀ n, LocalTo m P (r n) c) :
    LocalTo m P (remaining >>= r) c := by
  have hrun : (Descent.remaining >>= r).run c = (r c.rest.length).run c := run_bind_ok rfl
  refine ⟨?_, fun hok => (h _).post (hrun ▸ hok)⟩
  rcases (h c.rest.length).looks.reports with ⟨ts, ds, hreports⟩
  cases m with
  | near => exact absurd rfl hm
  | far | safe => exact ⟨ts, ds, .after hrun (.refl c) hreports⟩

/-- Without a result nothing is claimed of it. -/
theorem recovering {V : α → α → Prop} (h : LocalTo .far (fun a => ∃ a', V a a') r c) :
    LocalTo .safe (fun a? => ∃ a'?, Option.Rel V a? a'?) (recovering r) c := by
  refine ⟨recovering_reports h.looks, fun hrun => ?_⟩
  rw [run_recovering] at hrun
  rcases hfirst : r.run c with ⟨(_ | _) | a, c₁⟩
  · rw [hfirst] at hrun
    rcases run_bind_eq_ok.mp hrun with ⟨_, _, -, hnone⟩
    cases hnone
    exact ⟨none, .none⟩
  · rw [hfirst] at hrun
    cases hrun
  · rw [hfirst] at hrun
    cases hrun
    rcases h.post hfirst with ⟨a', hV⟩
    exact ⟨some a', .some hV⟩

end LocalTo

/-- Readers of the same steps look at what the steps look at. -/
theorem Descends.local {n d : Nat} {V : α → α → Prop} (h : Descends (.same False) m n d V r r') :
    ∀ c, LocalTo m (fun a => ∃ a', V a a') r c := by
  induction h with
  | pure hV => exact fun c => .pure ⟨_, hV⟩
  | bind _ _ ih ihf => exact fun c => (ih c).bind fun a ⟨a', hV⟩ => ihf a a' hV
  | weaken _ _ _ hV ih => exact fun c => (ih c).mono fun a ⟨a', h⟩ => ⟨a', hV a a' h⟩
  | far _ ih => exact fun c => ⟨(ih c).looks.reports, (ih c).post⟩
  -- bounds are equal here, so none is used up in sight of tokens
  | blind helastic => exact helastic.elim
  | peek => exact fun c => ⟨.of_local (Local.peek c), fun _ => ⟨_, rfl⟩⟩
  | complain complaint _ =>
      exact fun c => ⟨.of_local (Local.complain _ complaint c), fun _ => ⟨(), trivial⟩⟩
  | fail complaint _ => exact fun c => .fail complaint
  | check hkind => exact fun c => ⟨.of_local (Local.check _ c), fun _ => ⟨_, rfl⟩⟩
  | consume complaint _ hkind =>
      exact fun c => (LocalTo.consume hkind complaint).mono fun t ht => ⟨t, rfl, ht⟩
  | accept hkinds _ _ ihyes ihno => exact fun c => .choose (Local.accept hkinds c) ihyes ihno
  | acceptPrevious hkinds _ _ ihyes ihno =>
      exact fun c => .accept_previous hkinds (fun t ht => ihyes t t rfl ht) (ihno c)
  | acceptBrace _ _ ihyes ihno => exact fun c => .accept_brace ihyes (ihno c)
  -- how many tokens are left depends on all of them, which the manner allows for
  | remaining hm _ ih => exact fun c => .remaining hm fun b => ih 0 b b (.inl rfl) c
  | recovering _ ih => exact fun c => (ih c).recovering
  | next _ hb _ ih ihf =>
      refine fun c => .choose (Local.isAtEnd c) (fun _ => .pure ⟨_, hb⟩) fun c' => ?_
      exact (ih c').recovering.bind fun a ⟨a', hV⟩ => ihf a a' hV

/-- A declaration, up to its first block, is read by what is near. -/
theorem unguardedWithin_local (bound bound' : Nat) :
    Local (unguarded (expressionWithin bound) (statementWithin bound')) := by
  have hread : Descends (.same False) .near 0 1 _ _ _ :=
    unguardedWithin_descends (.refl 0 bound) (.refl 0 bound')
  exact fun c => (hread.local c).looks

end NovaLang.Descent
