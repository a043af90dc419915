import NovaLang.Proofs.Descent.Locality
import NovaLang.Proofs.Descent.Termination
import NovaLang.Proofs.Relaxed

namespace NovaLang

/-! # The course of a reader up to its first abort

A reader either passes tokens that are what it is to read, or there is a first place where
it aborts a statement. The tokens passed up to there begin something that it is to read, and
the token there is blamed. What stands behind that token makes no difference, although
reading may go on there.
-/

/-- The complaint aborts the statement that it is about. -/
def Complaint.aborts : Complaint → Bool
  | .invalidTarget | .tooManyArguments => false
  | _ => true

/-- The static error aborts the statement that it is about. -/
def Diagnostic.aborts (d : Diagnostic) : Bool := d.complaint.aborts

namespace Descent

open Ebnf

variable {α β : Type}

/-! ## Reports that grow -/

/-- The reader takes nothing back that has been reported. -/
def Grows (r : Reader α) : Prop := ∀ c, ∃ ds, (r.run c).2.report = c.report.addAll ds

/-- A reader that adds to its reports in front of each text only adds to them. -/
theorem Grows.of_reports {r : Reader α} (h : ∀ c, ReportsAt r c) : Grows r := by
  intro c
  rcases h c with ⟨ts, ds, hreports⟩
  exact ⟨ds, hreports.moved.report⟩

/-- A reader that is local only adds to the report. -/
theorem Local.grows {r : Reader α} (h : Local r) : Grows r := .of_reports fun c => (h c).reports

/-- One after the other, readers only add to the report. -/
theorem Grows.bind {r : Reader α} {f : α → Reader β} (h : Grows r) (hf : ∀ a, Grows (f a)) :
    Grows (r >>= f) := by
  intro c
  rcases h c with ⟨ds, hds⟩
  rw [run_bind]
  revert hds
  rcases r.run c with ⟨e | a, c'⟩
  · exact fun hds => ⟨ds, hds⟩
  · intro hds
    rcases hf a c' with ⟨es, hes⟩
    exact ⟨ds ++ es, by rw [Report.addAll_append, ← hds]; exact hes⟩

/-- A complaint is one more report. -/
theorem Grows.complain (t : Token) (m : Complaint) : Grows (complain t m) :=
  fun _ => ⟨[⟨.token t, m⟩], rfl⟩

/-- What is done after a syntax error. -/
theorem Grows.synchronize : Grows (synchronize >>= fun _ => (pure none : Reader (Option α))) :=
  Grows.bind (.of_reports fun _ => .of_steady (synchronize_steady (d := 0) (Nat.zero_le 1) nofun))
    fun _ => (Local.pure none).grows

/-- What recovery reports is added as well. -/
theorem Grows.recovering {r : Reader α} (h : Grows r) : Grows (recovering r) := by
  intro c
  rcases h c with ⟨ds, hds⟩
  rw [run_recovering]
  revert hds
  rcases r.run c with ⟨(m | fault) | a, c'⟩
  · intro hds
    rcases Grows.synchronize (α := α) c' with ⟨es, hes⟩
    exact ⟨ds ++ es, by rw [Report.addAll_append, ← hds]; exact hes⟩
  · exact fun hds => ⟨ds, hds⟩
  · exact fun hds => ⟨ds, hds⟩

/-! ## Courses -/

/-- None of the errors aborts a statement. -/
def Mild (ds : List Diagnostic) : Prop := ∀ d ∈ ds, d.aborts = false

/-- No reports abort nothing. -/
theorem Mild.nil : Mild [] := fun _ hd => absurd hd List.not_mem_nil

/-- Reports that do not abort may follow each other. -/
theorem Mild.append {ds es : List Diagnostic} (h : Mild ds) (h' : Mild es) : Mild (ds ++ es) :=
  fun d hd => (List.mem_append.mp hd).elim (h d) (h' d)

/-- What becomes of a reader that is to read what has the property `P`. Whether it yields a
result or breaks off, what stands behind the token `t` makes no difference. -/
inductive Course (r : Reader α) (c : Cursor) (P : List Token → Prop) : Prop
  | yields {ts : List Token} {t : Token} {rest : List Token} {ds : List Diagnostic} {a : α} :
      c.rest = ts ++ t :: rest → (∀ u ∈ ts, u.kind ≠ .eof) → Mild ds → P ts →
      (∀ rest, r.run ⟨c.before, ts ++ t :: rest, c.report⟩ =
        (.ok a, ⟨ts.reverse ++ c.before, t :: rest, c.report.addAll ds⟩)) → Course r c P
  | breaks {ts us : List Token} {t : Token} {rest : List Token} {ds : List Diagnostic}
      {m : Complaint} :
      c.rest = ts ++ t :: rest → Mild ds → m.aborts = true → P (ts ++ us) →
      (∀ rest, ∃ es, (r.run ⟨c.before, ts ++ t :: rest, c.report⟩).2.report =
        c.report.addAll (ds ++ ⟨.token t, m⟩ :: es)) → Course r c P

namespace Course

variable {r r' : Reader α} {f : α → Reader β} {c : Cursor} {P Q : List Token → Prop} {t : Token}
  {rest : List Token}

/-- What has been read may be told with less precision. -/
protected theorem mono (h : Course r c P) (hPQ : ∀ ts, P ts → Q ts) : Course r c Q := by
  cases h with
  | yields hrest hinner hmild hP hrun => exact .yields hrest hinner hmild (hPQ _ hP) hrun
  | breaks hrest hmild hm hP hrun => exact .breaks hrest hmild hm (hPQ _ hP) hrun

/-- The token in front of which a reader stands is the first of those that it passes, or the
one behind them. -/
theorem exists_head {u : Token} {ts more : List Token} (h : t :: rest = ts ++ u :: more)
    (rest' : List Token) : ∃ more', ts ++ u :: rest' = t :: more' := by
  cases ts with
  | nil =>
      obtain ⟨rfl, -⟩ := List.cons.inj h
      exact ⟨rest', rfl⟩
  | cons v ts =>
      obtain ⟨rfl, -⟩ := List.cons.inj h
      exact ⟨ts ++ u :: rest', rfl⟩

/-- A first step that passes nothing, and looks at the next token only. -/
theorem look (hrest : c.rest = t :: rest) (hleads : ∀ rest, Leads r [] r' (t :: rest))
    (h : Course r' c P) : Course r c P := by
  -- where the reader stops, what is behind does not matter, so only the next token is used
  have hrun : ∀ {ts more : List Token} {u : Token}, c.rest = ts ++ u :: more → ∀ rest',
      r.run ⟨c.before, ts ++ u :: rest', c.report⟩ =
        r'.run ⟨c.before, ts ++ u :: rest', c.report⟩ := by
    intro ts more u hsplit rest'
    rcases exists_head (hrest.symm.trans hsplit) rest' with ⟨more', hmore⟩
    rw [hmore]
    exact hleads more' c.before c.report
  cases h with
  | yields hsplit hinner hmild hP hsame =>
      exact .yields hsplit hinner hmild hP fun rest' => (hrun hsplit rest').trans (hsame rest')
  | breaks hsplit hmild hm hP hsame =>
      exact .breaks hsplit hmild hm hP fun rest' => by rw [hrun hsplit]; exact hsame rest'

/-- A first step that passes one token, and looks at no other. -/
theorem pass (hrest : c.rest = t :: rest) (ht : t.kind ≠ .eof)
    (hleads : ∀ rest, Leads r [t] r' rest) (h : Course r' (c.past t rest) fun ts => P (t :: ts)) :
    Course r c P := by
  -- the token is behind the cursor now, whatever follows it
  have hrun : ∀ rest, r.run ⟨c.before, t :: rest, c.report⟩ =
      r'.run ⟨t :: c.before, rest, c.report⟩ := fun rest => hleads rest c.before c.report
  cases h with
  | @yields ts u more ds a hsplit hinner hmild hP hsame =>
      have hsplit' : c.rest = (t :: ts) ++ u :: more := hrest.trans (congrArg (t :: ·) hsplit)
      have hinner' : ∀ v ∈ t :: ts, v.kind ≠ .eof := List.forall_mem_cons.mpr ⟨ht, hinner⟩
      refine .yields (a := a) hsplit' hinner' hmild hP fun rest' => ?_
      rw [List.cons_append, hrun, List.reverse_cons, List.append_assoc]
      exact hsame rest'
  | @breaks ts us u more ds m hsplit hmild hm hP hsame =>
      have hsplit' : c.rest = (t :: ts) ++ u :: more := hrest.trans (congrArg (t :: ·) hsplit)
      refine .breaks hsplit' hmild hm hP fun rest' => ?_
      rw [List.cons_append, hrun]
      exact hsame rest'

/-- A reader that reads nothing has come to where it stands. -/
theorem pure (hc : c.Ready) (h : P []) (a : α) : Course (pure a : Reader α) c P := by
  rcases hc.exists_cons with ⟨t, rest, hrest⟩
  exact .yields (show c.rest = [] ++ t :: rest from hrest) nofun .nil h fun _ => rfl

/-- A reader that breaks off at once has read a front of what it looks for. -/
theorem fail (hc : c.Ready) {m : Complaint} (hm : m.aborts = true) (h : ∃ us, P us) :
    Course (fail m : Reader α) c P := by
  rcases hc.exists_cons with ⟨t, rest, hrest⟩
  rcases h with ⟨us, hus⟩
  refine .breaks (show c.rest = [] ++ t :: rest from hrest) .nil hm hus fun rest' => ⟨[], ?_⟩
  rw [List.nil_append, run_fail rfl]
  rfl

/-- A complaint that aborts nothing. -/
theorem complain {f : Unit → Reader β} {u : Token} {m : Complaint} (hm : m.aborts = false)
    (h : Course (f ()) { c with report := c.report.atToken u m } P) :
    Course (complain u m >>= f) c P := by
  have hrun : ∀ c : Cursor, (Descent.complain u m >>= f).run c =
      (f ()).run { c with report := c.report.atToken u m } := fun _ => run_bind_ok rfl
  have hmild : ∀ {ds}, Mild ds → Mild (⟨.token u, m⟩ :: ds) :=
    fun hds => List.forall_mem_cons.mpr ⟨hm, hds⟩
  cases h with
  | yields hsplit hinner hds hP hsame =>
      exact .yields hsplit hinner (hmild hds) hP fun rest' => (hrun _).trans (hsame rest')
  | breaks hsplit hds hm' hP hsame =>
      exact .breaks hsplit (hmild hds) hm' hP fun rest' => by rw [hrun]; exact hsame rest'

/-- After a first reader has yielded a result, another one goes on with what belongs behind
it; some such tokens there have to be. -/
theorem bind (hc : c.Ready) (h : Course r c P) (hgrows : ∀ a, Grows (f a))
    (hmore : ∀ ts, P ts → ∃ us, Q (ts ++ us))
    (hf : ∀ ts a c', c.rest = ts ++ c'.rest → c'.Ready → P ts →
      Course (f a) c' fun us => Q (ts ++ us)) : Course (r >>= f) c Q := by
  cases h with
  | @breaks ts us t rest ds m hsplit hmild hm hP hsame =>
      rcases hmore _ hP with ⟨vs, hvs⟩
      rw [List.append_assoc] at hvs
      -- the first reader may have gone on, so that the second one is run and reports more
      refine .breaks hsplit hmild hm hvs fun rest' => ?_
      rcases hsame rest' with ⟨es, hes⟩
      rw [run_bind]
      revert hes
      rcases r.run ⟨c.before, ts ++ t :: rest', c.report⟩ with ⟨e | a, c'⟩
      · exact fun hes => ⟨es, hes⟩
      · intro hes
        rcases hgrows a c' with ⟨fs, hfs⟩
        refine ⟨es ++ fs, hfs.trans ?_⟩
        rw [hes, ← Report.addAll_append, List.append_assoc, List.cons_append]
  | @yields ts t rest ds a hsplit hinner hmild hP hsame =>
      have hready : Cursor.Ready ⟨ts.reverse ++ c.before, t :: rest, c.report.addAll ds⟩ := by
        rcases hc with ⟨u, hu, heof⟩
        rw [hsplit] at hu
        exact ⟨u, (List.mem_append.mp hu).resolve_left fun hmem => hinner u hmem heof, heof⟩
      -- the first reader ends in front of what the second one passes, or of where that ends
      have hfirst : ∀ {us more : List Token} {u : Token}, t :: rest = us ++ u :: more → ∀ rest',
          (r >>= f).run ⟨c.before, ts ++ us ++ u :: rest', c.report⟩ =
            (f a).run ⟨ts.reverse ++ c.before, us ++ u :: rest', c.report.addAll ds⟩ := by
        intro us more u hsplit' rest'
        rcases exists_head hsplit' rest' with ⟨more', hmore'⟩
        rw [List.append_assoc, hmore']
        exact run_bind_ok (hsame more')
      have hwhole : ∀ {us more : List Token} {u : Token}, t :: rest = us ++ u :: more →
          c.rest = ts ++ us ++ u :: more := by
        intro us more u hsplit'
        rw [hsplit, List.append_assoc]
        exact congrArg (ts ++ ·) hsplit'
      cases hf ts a ⟨_, t :: rest, c.report.addAll ds⟩ hsplit hready hP with
      | @yields us u more es b hsplit' hinner' hmild' hQ hsame' =>
          have hinner'' : ∀ v ∈ ts ++ us, v.kind ≠ .eof := fun v hv =>
            (List.mem_append.mp hv).elim (hinner v) (hinner' v)
          refine .yields (a := b) (hwhole hsplit') hinner'' (hmild.append hmild') hQ fun rest' => ?_
          rw [hfirst hsplit' rest', hsame' rest', Report.addAll_append, List.reverse_append,
            List.append_assoc]
      | @breaks us vs u more es m hsplit' hmild' hm hQ hsame' =>
          have hQ' : Q (ts ++ us ++ vs) := by rwa [List.append_assoc]
          refine .breaks (hwhole hsplit') (hmild.append hmild') hm hQ' fun rest' => ?_
          rcases hsame' rest' with ⟨fs, hfs⟩
          refine ⟨fs, ?_⟩
          rw [hfirst hsplit' rest', List.append_assoc, Report.addAll_append]
          exact hfs

/-- To go on after a statement has been aborted does not change where the first one was. -/
theorem recovering (h : Course r c P) : Course (recovering r) c P := by
  cases h with
  | @yields _ _ _ _ a hsplit hinner hmild hP hsame =>
      refine .yields (a := some a) hsplit hinner hmild hP fun rest' => ?_
      rw [run_recovering, hsame]
  | @breaks ts us t rest ds m hsplit hmild hm hP hsame =>
      -- what is skipped, and complained about on the way, comes after the first abort
      refine .breaks hsplit hmild hm hP fun rest' => ?_
      rcases hsame rest' with ⟨es, hes⟩
      rw [run_recovering]
      revert hes
      rcases r.run ⟨c.before, ts ++ t :: rest', c.report⟩ with ⟨(m' | fault) | a, c'⟩
      · intro hes
        rcases Grows.synchronize (α := α) c' with ⟨fs, hfs⟩
        refine ⟨es ++ fs, hfs.trans ?_⟩
        rw [show c'.report = _ from hes, ← Report.addAll_append, List.append_assoc,
          List.cons_append]
      · exact fun hes => ⟨es, hes⟩
      · exact fun hes => ⟨es, hes⟩

end Course

/-! ## Readers of expressions of the notation -/

/-- In front of so many tokens, the reader reads what the expression stands for in the relaxed
grammar. -/
structure Reads (b : Nat) (r : Reader α) (e : Ebnf) : Prop where
  grows : Grows r
  course : ∀ c : Cursor, c.Ready → c.rest.length ≤ b → Course r c (e.Holds Relaxed)

namespace Reads

variable {b : Nat} {r : Reader α} {f : α → Reader β} {e e' : Ebnf} {es : List Ebnf}

/-- A bound on the text may be lowered. -/
theorem weaken {n : Nat} (h : Reads n r e) (hb : b ≤ n) : Reads b r e :=
  ⟨h.grows, fun c hc hlength => h.course c hc (Nat.le_trans hlength hb)⟩

protected theorem mono (h : Reads b r e) (hsub : ∀ ts, e.Holds Relaxed ts → e'.Holds Relaxed ts) :
    Reads b r e' :=
  ⟨h.grows, fun c hc hlength => (h.course c hc hlength).mono hsub⟩

/-- A body of a rule is read as the rule. -/
theorem of_body {q : Rule} (h : Reads b r q.relaxed) : Reads b r (.rule q) :=
  h.mono fun _ => Relaxed.of_body

/-- There are no cursors in front of nothing. -/
theorem of_nothing (h : Grows r) : Reads 0 r e := by
  refine ⟨h, fun c hc hlength => ?_⟩
  rcases hc.exists_cons with ⟨t, rest, hrest⟩
  rw [hrest] at hlength
  cases hlength

theorem pure (h : e.Holds Relaxed []) (a : α) : Reads b (pure a : Reader α) e :=
  ⟨(Local.pure a).grows, fun _ hc _ => .pure hc h a⟩

theorem fail {m : Complaint} (hm : m.aborts = true) (he : ∃ us, e.Holds Relaxed us) :
    Reads b (fail m : Reader α) e :=
  ⟨Local.grows fun _ => .fail m, fun _ hc _ => .fail hc hm he⟩

/-- One reader after another. What the first one passes is not counted again. -/
theorem thenAfter {n : Nat} (h : Reads b r e) (hf : ∀ a, Reads n (f a) (sequence es))
    (hes : (sequence es).productive (fun _ => true) = true)
    (hn : ∀ ts, e.Holds Relaxed ts → b ≤ n + ts.length) :
    Reads b (r >>= f) (sequence (e :: es)) := by
  refine ⟨h.grows.bind fun a => (hf a).grows, fun c hc hlength => ?_⟩
  refine (h.course c hc hlength).bind hc (fun a => (hf a).grows) (fun ts hts => ?_) ?_
  · rcases Relaxed.exists_phrase hes with ⟨us, hus⟩
    exact ⟨us, ts, us, rfl, hts, hus⟩
  · intro ts a c' hsplit hc' hts
    have hle := hn ts hts
    rw [hsplit, List.length_append] at hlength
    exact ((hf a).course c' hc' (by omega)).mono fun us hus => ⟨ts, us, rfl, hts, hus⟩

/-- One reader after another. -/
theorem andThen (h : Reads b r e) (hf : ∀ a, Reads b (f a) (sequence es))
    (hes : (sequence es).productive (fun _ => true) = true) :
    Reads b (r >>= f) (sequence (e :: es)) :=
  h.thenAfter hf hes fun _ _ => Nat.le_add_right b _

/-- What passes nothing behind a reader changes nothing about what that is to read. -/
theorem last (h : Reads b r e) (hf : ∀ a, Reads b (f a) .empty) : Reads b (r >>= f) e := by
  have hread : Reads b (r >>= f) (sequence [e]) := h.andThen hf rfl
  exact hread.mono fun _ => holds_sequence_single.mp

/-- Nothing is read where nothing is looked for. -/
theorem done (a : α) : Reads b (Pure.pure a : Reader α) .empty :=
  .pure (e := .empty) rfl a

/-- What is optional may be left out. -/
theorem absent (a : α) : Reads b (Pure.pure a : Reader α) (optional e) :=
  .pure (e := optional e) (.inl rfl) a

/-- Of many, there may be none. -/
protected theorem none (a : α) : Reads b (Pure.pure a : Reader α) (many e) :=
  .pure (e := many e) ⟨[], rfl, nofun⟩ a

/-- A sequence of one part is that part. -/
theorem single (h : Reads b r e) : Reads b r (sequence [e]) :=
  h.mono fun _ => holds_sequence_single.mpr

/-- A reader that looks ahead goes on by the token it sees. -/
theorem peek {f : Token → Reader β} (hgrows : ∀ t, Grows (f t))
    (h : ∀ (t : Token) (c : Cursor) (rest : List Token), c.rest = t :: rest → c.Ready →
      c.rest.length ≤ b → Course (f t) c (e.Holds Relaxed)) : Reads b (peek >>= f) e := by
  refine ⟨Local.peek.grows.bind hgrows, fun c hc hlength => ?_⟩
  rcases hc.exists_cons with ⟨t, rest, hrest⟩
  exact .look hrest (fun _ => .peek) (h t c rest hrest hc hlength)

/-- A token that must stand there is the first part of a sequence. -/
theorem consume {k : Kind} (hk : k ≠ .eof) {m : Complaint} (hm : m.aborts = true)
    {f : Token → Reader β} (hf : ∀ t, Reads b (f t) (sequence es))
    (hes : (sequence es).productive (fun _ => true) = true) :
    Reads b (consume k m >>= f) (sequence (k :: es)) := by
  refine .andThen ⟨(Local.consume hk m).grows, fun c hc _ => ?_⟩ hf hes
  rcases hc.exists_cons with ⟨t, rest, hrest⟩
  by_cases ht : t.kind = k
  · have hinner : t.kind ≠ .eof := ht ▸ hk
    have hleads : ∀ rest, Leads (Descent.consume k m) [t] (Pure.pure t) rest :=
      fun rest before report => (run_consume rfl hk m).trans (if_pos ht)
    exact .pass hrest hinner hleads (.pure ((Moved.past hrest hinner).ready hc) ⟨t, rfl, ht⟩ t)
  · -- another token: the reader breaks off in front of it
    have hleads : ∀ rest, Leads (Descent.consume k m) [] (Descent.fail m) (t :: rest) :=
      fun rest before report =>
        ((run_consume rfl hk m).trans (if_neg ht)).trans (run_fail rfl m).symm
    exact .look hrest hleads (.fail hc hm (Relaxed.exists_phrase rfl))

/-- The same if the token is not used. -/
theorem discard_consume {k : Kind} (hk : k ≠ .eof) {m : Complaint} (hm : m.aborts = true)
    {f : Unit → Reader β} (hf : Reads b (f ()) (sequence es))
    (hes : (sequence es).productive (fun _ => true) = true) :
    Reads b (discard (Descent.consume k m) >>= f) (sequence (k :: es)) := by
  rw [run_discard]
  exact consume hk hm (fun _ => hf) hes

/-- What follows an accepted token has one token less in front of it. -/
theorem accept_lead {kinds : List Kind} (hkinds : Kind.eof ∉ kinds) {r : Reader β}
    {yes : Token → Reader β} {no : Reader β} (hgrows : Grows r)
    (hleads : ∀ t rest, t.kind ∈ kinds → Leads r [t] (yes t) rest)
    (hleads' : ∀ t rest, t.kind ∉ kinds → Leads r [] no (t :: rest))
    (hyes : ∀ t, Reads (b - 1) (yes t) e')
    (hmore : ∀ t ts, t.kind ∈ kinds → e'.Holds Relaxed ts → e.Holds Relaxed (t :: ts))
    (hno : Reads b no e) : Reads b r e := by
  refine ⟨hgrows, fun c hc hlength => ?_⟩
  rcases hc.exists_cons with ⟨t, rest, hrest⟩
  by_cases ht : t.kind ∈ kinds
  · have hinner : t.kind ≠ .eof := fun heq => hkinds (heq ▸ ht)
    refine .pass hrest hinner (fun rest => hleads t rest ht) ?_
    rw [hrest, List.length_cons] at hlength
    refine ((hyes t).course (c.past t rest) ?_ (Nat.le_sub_one_of_lt hlength)).mono
      fun ts => hmore t ts ht
    exact (Moved.past hrest hinner).ready hc
  · exact .look hrest (fun rest => hleads' t rest ht) (hno.course c hc hlength)

/-- A choice between the kinds of the next token: past it, less text is left. -/
theorem accept {kind : Kind} {kinds : List Kind} (hkinds : Kind.eof ∉ kind :: kinds)
    {yes no : Reader β} (hyes : Reads (b - 1) yes e')
    (hmore : ∀ t ts, t.kind ∈ kind :: kinds → e'.Holds Relaxed ts → e.Holds Relaxed (t :: ts))
    (hno : Reads b no e) :
    Reads b (accept (kind :: kinds) >>= fun b => if b = true then yes else no) e := by
  refine accept_lead hkinds ?_ (fun t rest ht => .accept_yes hkinds ht)
    (fun t rest ht => .accept_no hkinds ht) (fun _ => hyes) hmore hno
  refine (Local.accept hkinds).grows.bind fun found => ?_
  split
  · exact hyes.grows
  · exact hno.grows

/-- What follows a token of a kind, where there is one. -/
theorem acceptToken {kind : Kind} (hkind : kind ≠ .eof) {yes no : Reader β}
    (hyes : Reads (b - 1) yes (sequence es))
    (hmore : ∀ ts, (sequence (kind :: es)).Holds Relaxed ts → e.Holds Relaxed ts)
    (hno : Reads b no e) :
    Reads b (Descent.accept [kind] >>= fun b => if b = true then yes else no) e :=
  .accept (by simpa using hkind.symm) hyes
    (fun t ts ht hts => hmore _ (holds_token_then (List.mem_singleton.mp ht) hts)) hno

/-- The same for a reader that uses the token. -/
theorem accept_previous {kind : Kind} {kinds : List Kind} (hkinds : Kind.eof ∉ kind :: kinds)
    {f : Token → Reader β} {no : Reader β} (hyes : ∀ t, Reads (b - 1) (f t) e')
    (hmore : ∀ t ts, t.kind ∈ kind :: kinds → e'.Holds Relaxed ts → e.Holds Relaxed (t :: ts))
    (hno : Reads b no e) :
    Reads b (Descent.accept (kind :: kinds) >>=
      fun b => if b = true then previous >>= f else no) e := by
  refine accept_lead hkinds ?_ (fun t rest ht => .accept_previous hkinds ht)
    (fun t rest ht => .accept_no hkinds ht) hyes hmore hno
  refine (Local.accept hkinds).grows.bind fun found => ?_
  split
  · refine Grows.bind (fun c => ⟨[], ?_⟩) fun t => (hyes t).grows
    rw [previous_stays]
    rfl
  · exact hno.grows

/-- A choice by the next token that stays in front of it. -/
theorem check {kind : Kind} (hkind : kind ≠ .eof) {yes no : Reader β} (hyes : Reads b yes e)
    (hno : Reads b no e) :
    Reads b (check kind >>= fun b => if b = true then yes else no) e := by
  refine ⟨(Local.check kind).grows.bind fun found => ?_, fun c hc hlength => ?_⟩
  · split
    · exact hyes.grows
    · exact hno.grows
  · rcases hc.exists_cons with ⟨t, rest, hrest⟩
    by_cases ht : t.kind = kind
    · exact .look hrest (fun _ => .check_yes hkind ht) (hyes.course c hc hlength)
    · exact .look hrest (fun _ => .check_no hkind ht) (hno.course c hc hlength)

/-- A choice at the end of the text. -/
theorem isAtEnd {yes no : Reader β} (hyes : Reads b yes e) (hno : Reads b no e) :
    Reads b (isAtEnd >>= fun b => if b = true then yes else no) e := by
  refine ⟨Local.isAtEnd.grows.bind fun found => ?_, fun c hc hlength => ?_⟩
  · split
    · exact hyes.grows
    · exact hno.grows
  · rcases hc.exists_cons with ⟨t, rest, hrest⟩
    have hleads : ∀ rest, Leads (Descent.isAtEnd >>= fun b => if b = true then yes else no) []
        (if (t.kind == .eof) = true then yes else no) (t :: rest) := fun rest => .isAtEnd
    refine .look hrest hleads ?_
    split
    · exact hyes.course c hc hlength
    · exact hno.course c hc hlength

/-- A complaint that aborts nothing. -/
theorem complain {f : Unit → Reader β} {u : Token} {m : Complaint} (hm : m.aborts = false)
    (h : Reads b (f ()) e) : Reads b (complain u m >>= f) e :=
  ⟨(Grows.complain u m).bind fun _ => h.grows,
    fun c hc hlength => .complain hm (h.course { c with report := _ } hc hlength)⟩

theorem recovering (h : Reads b r e) : Reads b (recovering r) e :=
  ⟨h.grows.recovering, fun c hc hlength => (h.course c hc hlength).recovering⟩

end Reads

end Descent

end NovaLang
