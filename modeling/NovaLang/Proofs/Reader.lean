import NovaLang.Descent.Cursor

namespace NovaLang

/-! # What readers do

Two ways to speak of a reader of tokens. `Passes` says what a reader may do from a
cursor in front of an end token: it never looks beyond that token, it only adds to the
report, it stops only after a complaint, and what it yields without a complaint has a
given property. `Yields` says what a reader does with tokens that are known: it passes
them, yields a result and reports nothing. Each comes with one rule for each step a
reader is made of.
-/

namespace Report

/-- A report with some static errors added. -/
def addAll (r : Report) (ds : List Diagnostic) : Report := ds.foldl addStatic r

@[simp] theorem addAll_nil (r : Report) : r.addAll [] = r := rfl

/-- Errors added in two goes. -/
theorem addAll_append (r : Report) (ds es : List Diagnostic) :
    r.addAll (ds ++ es) = (r.addAll ds).addAll es :=
  List.foldl_append

/-- The errors stand at the end of the report, in their order. -/
theorem entries_addAll (r : Report) (ds : List Diagnostic) :
    (r.addAll ds).entries = r.entries ++ ds.map .static := by
  induction ds generalizing r with
  | nil => simp
  | cons d ds ih =>
      change ((r.addStatic d).addAll ds).entries = _
      rw [ih]
      simp

/-- What was added can be told from the report. -/
theorem addAll_inj {r : Report} {ds es : List Diagnostic} (h : r.addAll ds = r.addAll es) :
    ds = es := by
  have hentries := congrArg Report.entries h
  rw [entries_addAll, entries_addAll] at hentries
  exact (List.map_inj_right fun _ _ => Entry.static.inj).mp (List.append_cancel_left hentries)

@[simp] theorem errorCount_addAll (r : Report) (ds : List Diagnostic) :
    (r.addAll ds).errorCount = r.errorCount + ds.length := by
  induction ds generalizing r with
  | nil => rfl
  | cons d ds ih =>
      change ((r.addStatic d).addAll ds).errorCount = _
      rw [ih, errorCount_addStatic, List.length_cons]
      omega

/-- A report that stays as it is has had nothing added. -/
theorem addAll_eq_self {r : Report} {ds : List Diagnostic} : r.addAll ds = r ↔ ds = [] := by
  constructor
  · intro h
    -- as many errors are counted as were added
    have hcount := congrArg Report.errorCount h
    rw [errorCount_addAll] at hcount
    exact List.length_eq_zero_iff.mp (by omega)
  · rintro rfl
    rfl

end Report

namespace Descent

variable {α β : Type}

/-! ## Running the steps of readers -/

/-- A sequence of readers: the second starts where the first ends, if that yields anything. -/
theorem run_bind (r : Reader α) (f : α → Reader β) (c : Cursor) :
    (r >>= f).run c = match r.run c with
      | (.ok a, c') => (f a).run c'
      | (.error e, c') => (.error e, c') := by
  change (ExceptT.bindCont f (r.run c).1).run (r.run c).2 = _
  obtain ⟨outcome, c'⟩ := r.run c
  cases outcome <;> rfl

theorem run_bind_ok {r : Reader α} {f : α → Reader β} {c c' : Cursor} {a : α}
    (h : r.run c = (.ok a, c')) : (r >>= f).run c = (f a).run c' := by
  rw [run_bind, h]

theorem run_bind_error {r : Reader α} {f : α → Reader β} {c c' : Cursor} {e : Stop}
    (h : r.run c = (.error e, c')) : (r >>= f).run c = (.error e, c') := by
  rw [run_bind, h]

/-- A sequence yields exactly when both of its readers do. -/
theorem run_bind_eq_ok {r : Reader α} {f : α → Reader β} {b : β} {c c' : Cursor} :
    (r >>= f).run c = (.ok b, c') ↔
      ∃ a c₁, r.run c = (.ok a, c₁) ∧ (f a).run c₁ = (.ok b, c') := by
  rw [run_bind]
  rcases r.run c with ⟨e | a, c₁⟩
  · exact ⟨nofun, fun ⟨_, _, h, _⟩ => by cases h⟩
  · refine ⟨fun h => ⟨a, c₁, rfl, h⟩, ?_⟩
    rintro ⟨_, _, h, hf⟩
    cases h
    exact hf

/-- A result that is not looked at. -/
theorem run_discard (r : Reader α) (f : Unit → Reader β) :
    (discard r >>= f) = (r >>= fun _ => f ()) := by
  rw [discard, map_const, Function.comp_apply, ← bind_pure_comp, bind_assoc]
  rfl

theorem run_map (f : α → β) (r : Reader α) (c : Cursor) :
    (f <$> r).run c = match r.run c with
      | (.ok a, c') => (.ok (f a), c')
      | (.error e, c') => (.error e, c') := by
  rw [← bind_pure_comp, run_bind]
  rfl

/-- A handler starts where the reader stopped: what was passed and reported is not undone. -/
theorem run_tryCatch (r : Reader α) (handler : Stop → Reader α) (c : Cursor) :
    (tryCatch r handler).run c = match r.run c with
      | (.ok a, c') => (.ok a, c')
      | (.error e, c') => (handler e).run c' := by
  rw [ExceptT.run_tryCatch]
  rcases h : r.run c with ⟨_ | _, c'⟩
  · simp only [bind, StateT.bind, h]
  · simp only [bind, StateT.bind, h]
    rfl

/-- Only a syntax error is recovered from, and it leaves no result. -/
theorem run_recovering (r : Reader α) (c : Cursor) :
    (recovering r).run c = match r.run c with
      | (.ok a, c') => (.ok (some a), c')
      | (.error (.syntaxError _), c') => (synchronize >>= fun _ => pure none).run c'
      | (.error (.fault f), c') => (.error (.fault f), c') := by
  rw [recovering, run_tryCatch, run_map]
  rcases r.run c with ⟨(_ | _) | _, c'⟩ <;> rfl

/-- The cursor after one more token. -/
def Cursor.past (c : Cursor) (t : Token) (rest : List Token) : Cursor :=
  ⟨t :: c.before, rest, c.report⟩

variable {c : Cursor} {t : Token} {rest : List Token}

theorem run_peek (h : c.rest = t :: rest) : peek.run c = (.ok t, c) := by
  obtain ⟨before, _, report⟩ := c
  obtain rfl := h
  rfl

theorem run_step (h : c.rest = t :: rest) : step.run c = (.ok (), c.past t rest) := by
  obtain ⟨before, _, report⟩ := c
  obtain rfl := h
  rfl

theorem run_previous {before : List Token} (h : c.before = t :: before) :
    previous.run c = (.ok t, c) := by
  obtain ⟨_, rest, report⟩ := c
  obtain rfl := h
  rfl

/-- There is no token before the first one. -/
theorem run_previous_start (h : c.before = []) :
    previous.run c = (.error (.fault (.beforeStart c.position)), c) := by
  obtain ⟨_, rest, report⟩ := c
  obtain rfl := h
  rfl

theorem run_isAtEnd (h : c.rest = t :: rest) : isAtEnd.run c = (.ok (t.kind == .eof), c) := by
  rw [isAtEnd, run_bind, run_peek h]
  rfl

/-- Looking at the next token changes nothing. -/
theorem run_check (h : c.rest = t :: rest) {kind : Kind} (hkind : kind ≠ .eof) :
    (check kind).run c = (.ok (t.kind == kind), c) := by
  rw [check, run_bind, run_peek h]
  -- the end token is ruled out twice, by the test and by the kind asked for
  have : (t.kind != .eof && t.kind == kind) = (t.kind == kind) := by
    by_cases ht : t.kind = kind <;> simp_all
  simp only [this]
  rfl

/-- A token of the kinds is passed and any other is left. -/
theorem run_accept (h : c.rest = t :: rest) {kinds : List Kind} (hkinds : Kind.eof ∉ kinds) :
    (accept kinds).run c =
      if t.kind ∈ kinds then (.ok true, c.past t rest) else (.ok false, c) := by
  cases kinds with
  | nil => rfl
  | cons k kinds =>
      rw [accept, if_neg (by simp), run_bind, run_peek h]
      -- the test also rules out the end token, which is none of the kinds
      by_cases ht : t.kind ∈ k :: kinds
      · have hstop : t.kind ≠ .eof := fun heq => hkinds (heq ▸ ht)
        have htest : (t.kind != .eof && (k :: kinds).contains t.kind) = true := by
          simpa [hstop] using ht
        simp only [htest, if_true, if_pos ht, run_bind, run_step h]
        rfl
      · have htest : (t.kind != .eof && (k :: kinds).contains t.kind) = false := by
          simpa using fun _ => by simpa using ht
        simp only [htest, if_neg ht]
        rfl

/-- Going on from a token that is not the end passes it. -/
theorem run_advance_inside (h : c.rest = t :: rest) (ht : t.kind ≠ .eof) :
    advance.run c = (.ok t, c.past t rest) := by
  have hstep : (step >>= fun _ => previous).run c = (.ok t, c.past t rest) :=
    (run_bind_ok (run_step h)).trans (run_previous rfl)
  refine (run_bind_ok (run_isAtEnd h)).trans ?_
  simpa [ht] using hstep

/-- Going on from the end passes nothing, and yields what came last. -/
theorem run_advance_end (h : c.rest = t :: rest) (ht : t.kind = .eof) :
    advance.run c = previous.run c := by
  refine (run_bind_ok (run_isAtEnd h)).trans ?_
  simp [ht]

/-- A complaint is reported at the next token. -/
theorem run_fail (h : c.rest = t :: rest) (complaint : Complaint) :
    (fail complaint : Reader α).run c =
      (.error (.syntaxError complaint), { c with report := c.report.atToken t complaint }) := by
  rw [fail, run_bind, run_peek h]
  rfl

/-- A token of the kind is passed, and any other is complained of. -/
theorem run_consume (h : c.rest = t :: rest) {kind : Kind} (hkind : kind ≠ .eof)
    (complaint : Complaint) :
    (consume kind complaint).run c =
      if t.kind = kind then (.ok t, c.past t rest)
      else (.error (.syntaxError complaint),
        { c with report := c.report.atToken t complaint }) := by
  rw [consume, run_bind, run_check h hkind]
  by_cases ht : t.kind = kind
  · simp only [ht, beq_self_eq_true, if_true, run_bind, run_peek h, run_step h]
    rfl
  · simp only [beq_eq_false_iff_ne.mpr ht, if_neg ht]
    exact run_fail h complaint

/-! ## What a reader may do -/

/-- An end token is still to come. -/
def Cursor.Ready (c : Cursor) : Prop := ∃ t ∈ c.rest, t.kind = .eof

/-- From one cursor to another some tokens are passed, none of them an end token, and
some static errors are reported. -/
structure Moved (c c' : Cursor) (ts : List Token) (ds : List Diagnostic) : Prop where
  rest : c.rest = ts ++ c'.rest
  before : c'.before = ts.reverse ++ c.before
  inner : ∀ t ∈ ts, t.kind ≠ .eof
  report : c'.report = c.report.addAll ds

/-- What comes of a reader at a cursor: tokens passed and errors reported, and either a
result, which has the property `post` unless something was reported, or a syntax error,
which was reported. -/
inductive Outcome (r : Reader α) (c : Cursor) (post : List Token → α → List Token → Prop) : Prop
  | yields {ts : List Token} {ds : List Diagnostic} {a : α} {c' : Cursor} :
      r.run c = (.ok a, c') → Moved c c' ts ds → (ds = [] → post ts a c'.rest) → Outcome r c post
  | stops {ts : List Token} {ds : List Diagnostic} {complaint : Complaint} {c' : Cursor} :
      r.run c = (.error (.syntaxError complaint), c') → Moved c c' ts ds → ds ≠ [] →
      Outcome r c post

/-- A reader at a cursor in front of an end token does nothing but what it may do. The
property relates the tokens passed, the result and the tokens left. -/
def Passes (r : Reader α) (c : Cursor) (post : List Token → α → List Token → Prop) : Prop :=
  c.Ready → Outcome r c post

/-- A cursor in front of an end token has a next token. -/
theorem Cursor.Ready.exists_cons {c : Cursor} (h : c.Ready) : ∃ t rest, c.rest = t :: rest := by
  obtain ⟨t, ht, -⟩ := h
  exact List.exists_cons_of_ne_nil (List.ne_nil_of_mem ht)

namespace Moved

variable {c c' c'' : Cursor} {ts us : List Token} {ds es : List Diagnostic}

theorem refl (c : Cursor) : Moved c c [] [] := ⟨rfl, rfl, by simp, rfl⟩

theorem trans (h : Moved c c' ts ds) (h' : Moved c' c'' us es) :
    Moved c c'' (ts ++ us) (ds ++ es) where
  rest := by rw [h.rest, h'.rest, List.append_assoc]
  before := by rw [h'.before, h.before, List.reverse_append, List.append_assoc]
  inner t ht := (List.mem_append.mp ht).elim (h.inner t) (h'.inner t)
  report := by rw [h'.report, h.report, Report.addAll_append]

theorem past {t : Token} {rest : List Token} (h : c.rest = t :: rest) (ht : t.kind ≠ .eof) :
    Moved c (c.past t rest) [t] [] where
  rest := h
  before := rfl
  inner := by simpa using ht
  report := rfl

theorem complaint (c : Cursor) (t : Token) (m : Complaint) :
    Moved c { c with report := c.report.atToken t m } [] [⟨.token t, m⟩] :=
  ⟨rfl, rfl, by simp, rfl⟩

/-- The end token is not passed, so it is still to come. -/
theorem ready (h : Moved c c' ts ds) (hc : c.Ready) : c'.Ready := by
  obtain ⟨t, ht, hstop⟩ := hc
  rw [h.rest, List.mem_append] at ht
  -- an end token is not among the tokens passed
  exact ⟨t, ht.resolve_left fun hts => h.inner t hts hstop, hstop⟩

theorem length_rest (h : Moved c c' ts ds) : c.rest.length = ts.length + c'.rest.length := by
  rw [h.rest, List.length_append]

end Moved

namespace Passes

variable {r : Reader α} {f : α → Reader β} {c : Cursor}
  {P : List Token → α → List Token → Prop} {Q : List Token → β → List Token → Prop}

protected theorem mono {P' : List Token → α → List Token → Prop} (h : Passes r c P)
    (hpost : ∀ ts a rest, P ts a rest → P' ts a rest) : Passes r c P' := by
  intro hc
  cases h hc with
  | yields hrun hmoved hP => exact .yields hrun hmoved fun hds => hpost _ _ _ (hP hds)
  | stops hrun hmoved hds => exact .stops hrun hmoved hds

theorem pure {a : α} (h : P [] a c.rest) : Passes (pure a : Reader α) c P :=
  fun _ => .yields rfl (.refl c) fun _ => h

/-- A result comes from both readers, so its property may use what the first one passed. -/
theorem bind (h : Passes r c P)
    (hf : ∀ ts ds a c', Moved c c' ts ds →
      Passes (f a) c' fun us b rest => P ts a (us ++ rest) → Q (ts ++ us) b rest) :
    Passes (r >>= f) c Q := by
  intro hc
  cases h hc with
  | @yields ts ds a c' hrun hmoved hP =>
      cases hf ts ds a c' hmoved (hmoved.ready hc) with
      | yields hrun' hmoved' hQ =>
          -- without a complaint from both of them there is none from either
          refine .yields ((run_bind_ok hrun).trans hrun') (hmoved.trans hmoved') fun hds => ?_
          obtain ⟨hds, hes⟩ := List.append_eq_nil_iff.mp hds
          exact hQ hes (hmoved'.rest ▸ hP hds)
      | stops hrun' hmoved' hes =>
          exact .stops ((run_bind_ok hrun).trans hrun') (hmoved.trans hmoved')
            fun hds => hes (List.append_eq_nil_iff.mp hds).2
  | stops hrun hmoved hds => exact .stops (run_bind_error hrun) hmoved hds

/-- A step that is known yields its result and leaves the rest to what follows. -/
theorem bind_run {c' : Cursor} {ts : List Token} {a : α} (hrun : c.Ready → r.run c = (.ok a, c'))
    (hmoved : c.Ready → Moved c c' ts [])
    (h : Passes (f a) c' fun us b rest => Q (ts ++ us) b rest) : Passes (r >>= f) c Q := by
  intro hc
  -- the known step reports nothing, so the errors are those of the rest
  have hbind := run_bind_ok (f := f) (hrun hc)
  cases h ((hmoved hc).ready hc) with
  | yields hrun' hmoved' hQ => exact .yields (hbind.trans hrun') ((hmoved hc).trans hmoved') hQ
  | stops hrun' hmoved' hes => exact .stops (hbind.trans hrun') ((hmoved hc).trans hmoved') hes

/-- The next token exists, whatever it is. -/
theorem peek {f : Token → Reader β}
    (h : ∀ t rest, c.rest = t :: rest → Passes (f t) c Q) : Passes (peek >>= f) c Q := by
  intro hc
  obtain ⟨t, rest, hrest⟩ := hc.exists_cons
  exact bind_run (fun _ => run_peek hrest) (fun _ => .refl c) (h t rest hrest) hc

theorem previous {f : Token → Reader β} {t : Token} {before : List Token}
    (hbefore : c.before = t :: before) (h : Passes (f t) c Q) : Passes (previous >>= f) c Q :=
  bind_run (fun _ => run_previous hbefore) (fun _ => .refl c) h

/-- A reader that complains yields nothing, so it may promise anything. -/
theorem fail (m : Complaint) : Passes (fail m : Reader α) c P := by
  intro hc
  obtain ⟨t, rest, hrest⟩ := hc.exists_cons
  exact .stops (run_fail hrest m) (.complaint c t m) (by simp)

/-- An end token is still to come, so there are no cursors in front of nothing. -/
theorem of_nothing (h : c.rest.length ≤ 0) : Passes r c P := by
  intro hc
  obtain ⟨t, rest, hrest⟩ := hc.exists_cons
  rw [hrest] at h
  cases h

/-- After a complaint nothing is promised of the result. -/
theorem complain {f : Unit → Reader β} {t : Token} {m : Complaint}
    (h : Passes (f ()) { c with report := c.report.atToken t m } fun _ _ _ => True) :
    Passes (complain t m >>= f) c Q := by
  intro hc
  have hmoved := Moved.complaint c t m
  cases h (hmoved.ready hc) with
  | yields hrun' hmoved' _ => exact .yields hrun' (hmoved.trans hmoved') (by simp)
  | stops hrun' hmoved' _ => exact .stops hrun' (hmoved.trans hmoved') (by simp)

/-- A look at the kind of the next token decides which way it goes. -/
theorem check {kind : Kind} (hkind : kind ≠ .eof) {yes no : Reader β}
    (hyes : ∀ t rest, c.rest = t :: rest → t.kind = kind → Passes yes c Q)
    (hno : ∀ t rest, c.rest = t :: rest → t.kind ≠ kind → Passes no c Q) :
    Passes (check kind >>= fun b => if b = true then yes else no) c Q := by
  intro hc
  obtain ⟨t, rest, hrest⟩ := hc.exists_cons
  refine bind_run (fun _ => run_check hrest hkind) (fun _ => .refl c) ?_ hc
  by_cases ht : t.kind = kind
  · simpa [ht] using hyes t rest hrest ht
  · simpa [ht] using hno t rest hrest ht

/-- A token that is accepted is one of the tokens passed. -/
theorem accept {kinds : List Kind} (hkinds : Kind.eof ∉ kinds) {yes no : Reader β}
    (hyes : ∀ t rest, c.rest = t :: rest → t.kind ∈ kinds →
      Passes yes (c.past t rest) fun ts b rest => Q (t :: ts) b rest)
    (hno : ∀ t rest, c.rest = t :: rest → t.kind ∉ kinds → Passes no c Q) :
    Passes (accept kinds >>= fun b => if b = true then yes else no) c Q := by
  intro hc
  obtain ⟨t, rest, hrest⟩ := hc.exists_cons
  -- the two branches start at different cursors
  have hrun := run_accept hrest hkinds
  by_cases ht : t.kind ∈ kinds
  · rw [if_pos ht] at hrun
    exact bind_run (fun _ => hrun) (fun _ => .past hrest fun h => hkinds (h ▸ ht))
      (hyes t rest hrest ht) hc
  · rw [if_neg ht] at hrun
    exact bind_run (fun _ => hrun) (fun _ => .refl c) (by simpa using hno t rest hrest ht) hc

/-- A token that is asked for is passed, or the reader stops after a complaint. -/
theorem consume {kind : Kind} (hkind : kind ≠ .eof) {m : Complaint} {f : Token → Reader β}
    (h : ∀ t rest, c.rest = t :: rest → t.kind = kind →
      Passes (f t) (c.past t rest) fun ts b rest => Q (t :: ts) b rest) :
    Passes (consume kind m >>= f) c Q := by
  intro hc
  obtain ⟨t, rest, hrest⟩ := hc.exists_cons
  have hrun := run_consume hrest hkind m
  by_cases ht : t.kind = kind
  · rw [if_pos ht] at hrun
    exact bind_run (fun _ => hrun) (fun _ => .past hrest (ht ▸ hkind)) (h t rest hrest ht) hc
  · rw [if_neg ht] at hrun
    exact .stops (run_bind_error hrun) (.complaint c t m) (by simp)

theorem discard_consume {kind : Kind} (hkind : kind ≠ .eof) {m : Complaint} {f : Unit → Reader β}
    (h : ∀ t rest, c.rest = t :: rest → t.kind = kind →
      Passes (f ()) (c.past t rest) fun ts b rest => Q (t :: ts) b rest) :
    Passes (discard (Descent.consume kind m) >>= f) c Q := by
  rw [run_discard]
  exact consume hkind h

end Passes

/-! ## Readers in front of a bounded number of tokens -/

/-- What a reader may do from each cursor with so many tokens to come. -/
def Within (bound : Nat) (r : Reader α) (post : List Token → α → List Token → Prop) : Prop :=
  ∀ c : Cursor, c.rest.length ≤ bound → Passes r c post

namespace Within

variable {b : Nat} {r : Reader α} {f : α → Reader β}
  {P : List Token → α → List Token → Prop} {Q : List Token → β → List Token → Prop}

/-- A property of a cursor with many tokens holds of one with fewer. -/
theorem weaken {n : Nat} (h : Within n r P) (hbn : b ≤ n) : Within b r P :=
  fun c hc => h c (Nat.le_trans hc hbn)

protected theorem mono {P' : List Token → α → List Token → Prop} (h : Within b r P)
    (hpost : ∀ ts a rest, P ts a rest → P' ts a rest) : Within b r P' :=
  fun c hc => (h c hc).mono hpost

theorem pure {a : α} (h : ∀ rest, P [] a rest) : Within b (pure a : Reader α) P :=
  fun c _ => Passes.pure (h c.rest)

/-- The second reader starts with no more tokens than the first. -/
theorem bind (h : Within b r P)
    (hf : ∀ ts a, Within b (f a) fun us b rest => P ts a (us ++ rest) → Q (ts ++ us) b rest) :
    Within b (r >>= f) Q := by
  intro c hc
  refine (h c hc).bind fun ts _ a c' hmoved => hf ts a c' ?_
  have := hmoved.length_rest
  omega

theorem check {kind : Kind} (hkind : kind ≠ .eof) {yes no : Reader β}
    (hyes : Within b yes Q) (hno : Within b no Q) :
    Within b (check kind >>= fun b => if b = true then yes else no) Q :=
  fun c hc => Passes.check hkind (fun _ _ _ _ => hyes c hc) (fun _ _ _ _ => hno c hc)

/-- What follows an accepted token has one token less in front of it. -/
theorem accept {kinds : List Kind} (hkinds : Kind.eof ∉ kinds) {yes no : Reader β}
    (hyes : ∀ t, t.kind ∈ kinds → Within (b - 1) yes fun ts b rest => Q (t :: ts) b rest)
    (hno : Within b no Q) :
    Within b (accept kinds >>= fun b => if b = true then yes else no) Q := by
  intro c hc
  refine Passes.accept hkinds (fun t rest hrest ht => ?_) (fun _ _ _ _ => hno c hc)
  rw [hrest, List.length_cons] at hc
  exact hyes t ht (c.past t rest) (Nat.le_sub_one_of_lt hc)

/-- What follows a token that is asked for has no more tokens in front of it. -/
theorem consume {kind : Kind} (hkind : kind ≠ .eof) {m : Complaint} {f : Token → Reader β}
    (h : ∀ t, t.kind = kind → Within b (f t) fun ts b rest => Q (t :: ts) b rest) :
    Within b (consume kind m >>= f) Q := by
  intro c hc
  refine Passes.consume hkind fun t rest hrest ht => h t ht (c.past t rest) ?_
  rw [hrest, List.length_cons] at hc
  exact Nat.le_of_succ_le hc

theorem discard_consume {kind : Kind} (hkind : kind ≠ .eof) {m : Complaint} {f : Unit → Reader β}
    (h : ∀ t, t.kind = kind → Within b (f ()) fun ts b rest => Q (t :: ts) b rest) :
    Within b (discard (Descent.consume kind m) >>= f) Q := by
  rw [run_discard]
  exact consume hkind h

end Within

/-! ## Going on after a syntax error -/

/-- The last token passed can be looked at, or a token can be passed. -/
def Cursor.Movable (c : Cursor) : Prop :=
  c.before ≠ [] ∨ ∀ t ∈ c.rest.head?, t.kind ≠ .eof

/-- A token that was passed can be looked at again. -/
theorem Moved.movable {c c' : Cursor} {ts : List Token} {ds : List Diagnostic}
    (h : Moved c c' ts ds) (hc : c.Movable) : c'.Movable := by
  cases ts with
  | nil =>
      have hrest : c'.rest = c.rest := by simpa using h.rest.symm
      have hbefore : c'.before = c.before := by simpa using h.before
      rwa [Cursor.Movable, hrest, hbefore]
  | cons t ts => exact .inl (by simp [h.before])

/-! ## What a reader does with known tokens -/

/-- With some tokens in front of others, one reader passes them in silence and goes on
as another. -/
def Leads (r : Reader α) (ts : List Token) (r' : Reader α) (rest : List Token) : Prop :=
  ∀ before report, r.run ⟨before, ts ++ rest, report⟩ = r'.run ⟨ts.reverse ++ before, rest, report⟩

/-- With some tokens in front of others, a reader passes them in silence and yields a
result. -/
def Yields (r : Reader α) (ts : List Token) (a : α) (rest : List Token) : Prop :=
  Leads r ts (pure a) rest

namespace Leads

variable {r r' r'' : Reader α} {f : α → Reader β} {xs ys rest : List Token} {t : Token}

theorem refl (r : Reader α) (rest : List Token) : Leads r [] r rest :=
  fun _ _ => rfl

/-- What one reader leads to may lead on. -/
theorem trans (h : Leads r xs r' (ys ++ rest)) (h' : Leads r' ys r'' rest) :
    Leads r (xs ++ ys) r'' rest := by
  intro before report
  rw [List.append_assoc, h, h', List.reverse_append, List.append_assoc]

/-- A first step that passes nothing. -/
theorem look (h : Leads r [] r' (ys ++ rest)) (h' : Leads r' ys r'' rest) :
    Leads r ys r'' rest :=
  trans h h'

/-- A first step that passes one token. -/
theorem pass (h : Leads r [t] r' (ys ++ rest)) (h' : Leads r' ys r'' rest) :
    Leads r (t :: ys) r'' rest :=
  trans h h'

/-- What a look at the next token decides, at a cursor. -/
theorem run_look {c : Cursor} (h : Leads r [] r' (t :: rest)) (hrest : c.rest = t :: rest) :
    r.run c = r'.run c := by
  obtain ⟨before, _, report⟩ := c
  obtain rfl := hrest
  exact h before report

/-- What passing the next token leads to, at a cursor. -/
theorem run_pass {c : Cursor} (h : Leads r [t] r' rest) (hrest : c.rest = t :: rest) :
    r.run c = r'.run (c.past t rest) := by
  obtain ⟨before, _, report⟩ := c
  obtain rfl := hrest
  exact h before report

/-- A last step that passes nothing. -/
theorem settle (h : Leads r xs r' rest) (h' : Leads r' [] r'' rest) : Leads r xs r'' rest :=
  fun before report => (h before report).trans (h' (xs.reverse ++ before) report)

/-- A reader that yields leads to what is done with its result. -/
theorem bind {a : α} (h : Yields r xs a rest) : Leads (r >>= f) xs (f a) rest :=
  fun before report => run_bind_ok (h before report)

theorem peek {f : Token → Reader β} : Leads (peek >>= f) [] (f t) (t :: rest) :=
  fun _ _ => run_bind_ok (run_peek rfl)

theorem isAtEnd {f : Bool → Reader β} :
    Leads (isAtEnd >>= f) [] (f (t.kind == .eof)) (t :: rest) :=
  fun _ _ => run_bind_ok (run_isAtEnd rfl)

theorem check_yes {kind : Kind} (hkind : kind ≠ .eof) (ht : t.kind = kind) {yes no : Reader β} :
    Leads (check kind >>= fun b => if b = true then yes else no) [] yes (t :: rest) := by
  intro before report
  rw [List.nil_append, run_bind_ok (run_check rfl hkind)]
  simp [ht]

theorem check_no {kind : Kind} (hkind : kind ≠ .eof) (ht : t.kind ≠ kind) {yes no : Reader β} :
    Leads (check kind >>= fun b => if b = true then yes else no) [] no (t :: rest) := by
  intro before report
  rw [List.nil_append, run_bind_ok (run_check rfl hkind)]
  simp [ht]

theorem run_accept_yes {kinds : List Kind} (hkinds : Kind.eof ∉ kinds) (ht : t.kind ∈ kinds)
    (before : List Token) (report : Report) :
    (accept kinds).run ⟨before, [t] ++ rest, report⟩ =
      (.ok true, ⟨[t].reverse ++ before, rest, report⟩) := by
  rw [run_accept rfl hkinds, if_pos ht]
  rfl

/-- A token of the kinds leads to the first branch, behind it. -/
theorem accept_yes {kinds : List Kind} (hkinds : Kind.eof ∉ kinds) (ht : t.kind ∈ kinds)
    {yes no : Reader β} :
    Leads (accept kinds >>= fun b => if b = true then yes else no) [t] yes rest :=
  fun before report => run_bind_ok (run_accept_yes hkinds ht before report)

/-- The token accepted is the one that is looked at afterwards. -/
theorem accept_previous {kinds : List Kind} (hkinds : Kind.eof ∉ kinds) (ht : t.kind ∈ kinds)
    {f : Token → Reader β} {no : Reader β} :
    Leads (accept kinds >>= fun b => if b = true then previous >>= f else no) [t] (f t) rest :=
  fun before report =>
    (run_bind_ok (run_accept_yes hkinds ht before report)).trans (run_bind_ok (run_previous rfl))

/-- A token of no such kind leads to the second branch, in front of it. -/
theorem accept_no {kinds : List Kind} (hkinds : Kind.eof ∉ kinds) (ht : t.kind ∉ kinds)
    {yes no : Reader β} :
    Leads (accept kinds >>= fun b => if b = true then yes else no) [] no (t :: rest) := by
  intro before report
  have hrun := run_accept (c := ⟨before, t :: rest, report⟩) rfl hkinds
  rw [if_neg ht] at hrun
  exact run_bind_ok hrun

/-- A token that is not accepted is left to what is tried next. -/
theorem decline {kinds : List Kind} (hkinds : Kind.eof ∉ kinds) (ht : t.kind ∉ kinds)
    {yes no : Reader β} {r' : Reader β} (h : Leads no (t :: ys) r' rest) :
    Leads (accept kinds >>= fun b => if b = true then yes else no) (t :: ys) r' rest :=
  look (accept_no hkinds ht) h

/-- A token of the kind that is asked for is handed on. -/
theorem consume {kind : Kind} (hkind : kind ≠ .eof) {m : Complaint} (ht : t.kind = kind)
    {f : Token → Reader β} : Leads (consume kind m >>= f) [t] (f t) rest := by
  intro before report
  have hrun := run_consume (c := ⟨before, t :: rest, report⟩) rfl hkind m
  rw [if_pos ht] at hrun
  exact run_bind_ok hrun

theorem discard_consume {kind : Kind} (hkind : kind ≠ .eof) {m : Complaint} (ht : t.kind = kind)
    {f : Unit → Reader β} : Leads (discard (Descent.consume kind m) >>= f) [t] (f ()) rest := by
  rw [run_discard]
  exact consume hkind ht

theorem discard_peek {f : Unit → Reader β} :
    Leads (discard Descent.peek >>= f) [] (f ()) (t :: rest) := by
  rw [run_discard]
  exact peek

end Leads

/-- Where nothing goes wrong there is nothing to recover from. -/
theorem Yields.recovering {r : Reader α} {ts rest : List Token} {a : α} (h : Yields r ts a rest) :
    Yields (recovering r) ts (some a) rest := by
  intro before report
  rw [run_recovering, h before report]
  rfl

end Descent

end NovaLang
