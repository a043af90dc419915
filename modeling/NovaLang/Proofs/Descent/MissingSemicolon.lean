import NovaLang.Proofs.Descent.Sound
import NovaLang.Proofs.Descent.Unended

namespace NovaLang.Descent

open Phrase

/-! # A missing semicolon

Without the semicolon that ends a statement, the statement either goes on with the next one, so
that there is nothing to report, or it is aborted. Then one error is reported for it, and reading
goes on where the next statement may begin: what else is reported is what is wrong with the tokens
when those that are skipped are cut out.
-/

variable {inBlock : Bool} {bound bound₁ bound₂ count : Nat} {xs ts zs : List Token} {t stop : Token}
  {c c' : Cursor} {K : Reader (List Node) → Reader (List Node)}

/-! ## Programs read from anywhere -/

/-- In front of a program, the readers yield its statements. -/
theorem run_declarations {ss : List Node} (h : Program ts ss) (hstop : stop.kind = .eof)
    (before : List Token) (r : Report) (hbound : ts.length ≤ bound) :
    (declarationsToEnd (declarationWithin bound) bound).run ⟨before, ts ++ [stop], r⟩ =
      (.ok ss, ⟨ts.reverse ++ before, [stop], r⟩) :=
  (stmt_completed h ss rfl).2 bound bound stop [] hbound hbound hstop before r

/-- There is no end token in a program. -/
theorem program_inner {ss : List Node} (h : Program ts ss) : ∀ t ∈ ts, t.kind ≠ .eof := by
  have hstop : (Token.scanned .eof "" .nil 1).kind = .eof := rfl
  have hrun := run_declarations h hstop [] {} (Nat.le_succ ts.length)
  have hready : (⟨[], ts ++ [.scanned .eof "" .nil 1], {}⟩ : Cursor).Ready := ⟨_, by simp, hstop⟩
  cases declarationsToEnd_passes (b := ts.length + 1) (ts.length + 1) _ (by simp) hready with
  | @yields ts' _ _ _ hrun' hmoved _ =>
      obtain ⟨-, rfl⟩ := Prod.mk.inj (hrun.symm.trans hrun')
      have hbefore := hmoved.before
      obtain rfl : ts = ts' := by simpa using hbefore
      exact hmoved.inner
  | stops hrun' => cases hrun.symm.trans hrun'

/-- From wherever some tokens are read, nothing is reported if and only if they are a program. -/
theorem declarationsToEnd_silent (hts : ∀ t ∈ ts, t.kind ≠ .eof) (hstop : stop.kind = .eof)
    (before : List Token) (r : Report) (hbound : ts.length < bound) :
    ∃ ds, ((declarationsToEnd (declarationWithin bound) bound).run
        ⟨before, ts ++ [stop], r⟩).2.report = r.addAll ds ∧
      (ds = [] ↔ ∃ ss, Program ts ss) := by
  have hready : (⟨before, ts ++ [stop], r⟩ : Cursor).Ready := ⟨stop, by simp, hstop⟩
  have hlength : (ts ++ [stop]).length ≤ bound := by simpa using Nat.succ_le_of_lt hbound
  have hsilent : ∀ {o : Except Stop (List Node) × Cursor} {ss},
      (declarationsToEnd (declarationWithin bound) bound).run ⟨before, ts ++ [stop], r⟩ = o →
      Program ts ss → o = (.ok ss, ⟨ts.reverse ++ before, [stop], r⟩) := fun hrun h =>
    hrun.symm.trans (run_declarations h hstop before r (Nat.le_of_lt hbound))
  -- if nothing is reported then all is read as declarations, and conversely
  cases declarationsToEnd_passes bound _ hlength hready with
  | @yields xs ds ss c' hrun hmoved hpost =>
      refine ⟨ds, by rw [hrun]; exact hmoved.report, fun hds => ?_, ?_⟩
      · obtain ⟨hprogram, hend⟩ := hpost hds hlength
        obtain ⟨u, rest, hrest⟩ := (hmoved.ready hready).exists_cons
        have hsplit : ts ++ [stop] = xs ++ u :: rest := hrest ▸ hmoved.rest
        rw [front_unique hsplit hts hstop hmoved.inner (hend u (by simp [hrest]))]
        exact ⟨ss, hprogram⟩
      · rintro ⟨ss', hprogram⟩
        obtain ⟨-, rfl⟩ := Prod.mk.inj (hsilent hrun hprogram)
        exact Report.addAll_eq_self.mp hmoved.report.symm
  | @stops xs ds m c' hrun hmoved hds =>
      refine ⟨ds, by rw [hrun]; exact hmoved.report, fun h => absurd h hds, ?_⟩
      rintro ⟨ss', hprogram⟩
      cases hsilent hrun hprogram

/-! ## Reading on behind what is skipped -/

/-- After a broken declaration, the list goes on from where parsing resumes. -/
theorem Resumes.declarationsOf
    (h : Resumes (declarationWith (expressionWithin bound₁) (statementWithin bound₂)) c c')
    (hbrace : ∀ t ∈ c.rest.head?, t.kind ≠ .rightBrace) :
    (declarationsOf inBlock bound₁ bound₂ (count + 1)).run c =
      (declarationsOf inBlock bound₁ bound₂ count).run c' := by
  cases inBlock with
  | true => exact h.toBrace hbrace count
  | false => exact h.toEnd count

/-- Where no `else` comes next, what is reported is what is reported for the tokens that the
declarations stand behind and those that are left. -/
theorem Enters.reports (h : Enters bound xs K inBlock bound₁ bound₂ count)
    (hrest : c.rest = zs ++ [stop]) (hstop : stop.kind = .eof) (hmove : c.Movable)
    (hinner : ∀ t ∈ xs ++ zs, t.kind ≠ .eof) (hbound : (xs ++ zs).length < bound)
    (helse : ∀ t ∈ zs.head?, t.kind ≠ .kwElse) :
    ∃ ds, ((K (declarationsOf inBlock bound₁ bound₂ count)).run c).2.report = c.report.addAll ds ∧
      (ds = [] ↔ ∃ ss, Program (xs ++ zs) ss) := by
  rcases declarationsToEnd_silent hinner hstop [stop] c.report hbound with ⟨ds, hreport, hiff⟩
  obtain ⟨t, rest, heq, ht⟩ : ∃ t rest, zs ++ [stop] = t :: rest ∧ t.kind ≠ .kwElse := by
    cases zs with
    | nil => exact ⟨stop, [], rfl, by rw [hstop]; decide⟩
    | cons t zs => exact ⟨t, _, rfl, helse t rfl⟩
  have hleads := h.leads ht rest [stop] c.report
  rw [List.append_assoc, heq, hleads] at hreport
  rw [heq] at hrest
  -- the tokens that are left are read alike behind those that stand in front of them
  have htwins : Twins id c ⟨xs.reverse ++ [stop], t :: rest, c.report⟩ :=
    ⟨by simp [hrest], ⟨stop, by rw [hrest, ← heq]; simp, hstop⟩, hmove, .inl (by simp)⟩
  have hahead := h.awaits.ahead (declarationsOf_ahead inBlock bound₁ bound₂ count)
  rcases (hahead _ _ htwins).reports with ⟨es, hes, hes'⟩
  rw [Diagnostic.relabel_id, List.map_id] at hes'
  obtain rfl := Report.addAll_inj (hreport.symm.trans hes')
  exact ⟨ds, hes, hiff⟩

/-! ## An `else` that nothing stands in front of -/

/-- No declaration begins with an `else`. -/
theorem aborted_else (ht : t.kind = .kwElse) (rest : List Token) :
    Aborted [] (.expected .expression) (t :: rest) := by
  intro b b' _ _
  refine .look (unguarded_statement (by rw [ht]; decide)) ?_
  cases b' with
  | zero => exact .refl _ _
  | succ b' =>
      -- no keyword of a statement, nor a brace
      iterate 5 refine .look (.accept_no (by decide) (by simp [ht])) ?_
      exact (expression_breaks (by rw [ht]; decide)).bind

/-- What an aborted reader does, on tokens in full. -/
theorem Aborted.run {ws rest : List Token} {m : Complaint} (h : Aborted ws m (t :: rest))
    {b b' : Nat} (hb : ws.length ≤ b) (hb' : ws.length ≤ b') (before : List Token) (r : Report) :
    (unguarded (expressionWithin b) (statementWithin b')).run ⟨before, ws ++ t :: rest, r⟩ =
      (.error (.syntaxError m), ⟨ws.reverse ++ before, t :: rest, r.addAll [⟨.token t, m⟩]⟩) :=
  (h b b' hb hb' before r).trans (run_fail rfl m)

/-- Where an `else` comes next, it is reported, and maybe more than that. -/
theorem reports_else (hK : Awaits K) {o : Token} {rest : List Token} (hrest : c.rest = o :: rest)
    (ho : o.kind = .kwElse) (hready : c.Ready) :
    ∃ ds, ((K (declarationsOf inBlock bound₁ bound₂ (count + 1))).run c).2.report =
      c.report.addAll ds ∧ ds ≠ [] := by
  have hend : o.kind ≠ .eof := by rw [ho]; decide
  have habort := (aborted_else ho rest).run (Nat.zero_le bound₁) (Nat.zero_le bound₂) c.before
    c.report
  have hcursor : (⟨c.before, [] ++ o :: rest, c.report⟩ : Cursor) = c := by
    rw [List.nil_append, ← hrest]
  rw [hcursor] at habort
  rcases unguarded_aborted habort with ⟨us, ds, hmoved, t, ht, hmem⟩
  rcases Resumes.of_abort hready hrest hend habort hmoved ht with ⟨c₂, vs, hresumes, hmoved', -⟩
  have hbrace : ∀ t ∈ c.rest.head?, t.kind ≠ .rightBrace := by
    rw [hrest]
    exact fun t ht => Option.some.inj ht ▸ by rw [ho]; decide
  rw [hK.run (hresumes.declarationsOf hbrace)]
  have hmove := hmoved'.movable (hmoved.movable (.inr (Cursor.inside_of_cons hrest hend)))
  have htwins : Twins id c₂ c₂ :=
    ⟨by simp, hmoved'.ready (hmoved.ready hready), hmove, hmove⟩
  -- whatever is read from there on only adds to the report
  have hahead := hK.ahead (declarationsOf_ahead inBlock bound₁ bound₂ count)
  rcases (hahead _ _ htwins).reports with ⟨es, hes, -⟩
  refine ⟨ds ++ es, ?_, ?_⟩
  · rw [hes, hmoved'.report, hmoved.report, Report.addAll_nil, Report.addAll_append]
  · exact List.append_ne_nil_of_left_ne_nil (List.ne_nil_of_mem hmem) es

/-! ## What else is reported -/

/-- A cursor whose last token is the end sees all of its tokens. -/
theorem Cursor.view_of_end (hrest : c.rest = zs ++ [stop]) (hzs : ∀ t ∈ zs, t.kind ≠ .eof)
    (hstop : stop.kind = .eof) : c.view = c := by
  rw [view, hrest, upToEnd_of_end hzs hstop, ← hrest]

/-- Behind what is skipped, nothing is reported if and only if no `else` comes next and the tokens
in front of it and behind it are a program. -/
theorem Enters.reports_on (h : Enters bound xs K inBlock bound₁ bound₂ (count + 1))
    (hrest : c.rest = zs ++ [stop]) (hstop : stop.kind = .eof) (hmove : c.Movable)
    (hinner : ∀ t ∈ xs ++ zs, t.kind ≠ .eof) (hbound : (xs ++ zs).length + 1 < bound) :
    ∃ ds, ((K (declarationsOf inBlock bound₁ bound₂ count)).run c).2.report = c.report.addAll ds ∧
      (ds = [] ↔ (∀ t ∈ zs.head?, t.kind ≠ .kwElse) ∧ ∃ ss, Program (xs ++ zs) ss) := by
  have hzs : ∀ t ∈ zs, t.kind ≠ .eof := fun t ht => hinner t (List.mem_append_right xs ht)
  have hlength : c.rest.length = zs.length + 1 := by rw [hrest, List.length_append]; rfl
  have hready : c.Ready := ⟨stop, by simp [hrest], hstop⟩
  rw [List.length_append] at hbound
  have hrounds := h.rounds
  by_cases helse : ∀ t ∈ zs.head?, t.kind ≠ .kwElse
  · rcases h.reports hrest hstop hmove hinner (by rw [List.length_append]; omega) helse with
      ⟨ds, hds, hiff⟩
    -- with a round less, as many are left as there are tokens
    rw [h.awaits.run (declarationsOf_counts (Cursor.view_of_end hrest hzs hstop) (by omega)
      (by omega) : _ = (declarationsOf inBlock bound₁ bound₂ count).run c)] at hds
    exact ⟨ds, hds, by rw [hiff, and_iff_right helse]⟩
  · obtain ⟨o, more, rfl, ho⟩ : ∃ o more, zs = o :: more ∧ o.kind = .kwElse := by
      cases zs with
      | nil => exact absurd nofun helse
      | cons o more => exact ⟨o, more, rfl, by simpa using helse⟩
    rw [List.length_cons] at hbound
    obtain ⟨count, rfl⟩ : ∃ n, count = n + 1 := ⟨count - 1, by omega⟩
    rcases reports_else h.awaits hrest ho hready with ⟨ds, hds, hne⟩
    exact ⟨ds, hds, fun heq => absurd heq hne, fun hprogram => absurd hprogram.1 helse⟩

/-- A declaration that is aborted is left out. If no statement begins with the token that it is
aborted at, reading resumes at the nearest place from there on. -/
theorem Aborted.resumes {ws us more : List Token} {u : Token} {m : Complaint}
    (h : Aborted ws m (t :: more)) (hsplit : u :: us ++ [stop] = ws ++ t :: more)
    (hu : u.kind ≠ .eof) (hstop : stop.kind = .eof) (hfirst : ws.length ≤ bound₁)
    (hsecond : ws.length ≤ bound₂) (before : List Token) (r : Report) :
    ∃ c, Resumes (declarationWith (expressionWithin bound₁) (statementWithin bound₂))
        ⟨before, u :: us ++ [stop], r⟩ c ∧
      c.tokens = before.reverse ++ (u :: us ++ [stop]) ∧
      c.rest = (before.reverse ++ u :: us).drop c.position ++ [stop] ∧
      c.report = r.addAll [⟨.token t, m⟩] ∧ before.length < c.position ∧
      (startsStatement t.kind = false → IsLeast (boundaries (before.reverse ++ (u :: us ++ [stop]))
        before.length (before.length + ws.length)) c.position) := by
  have habort := h.run hfirst hsecond before r
  rw [← hsplit] at habort
  rcases unguarded_aborted habort with ⟨vs, ds, hmoved, -⟩
  have hready : (⟨before, u :: us ++ [stop], r⟩ : Cursor).Ready := ⟨stop, by simp, hstop⟩
  rcases Resumes.of_abort hready rfl hu habort hmoved (t := t) rfl with
    ⟨c, vs', hresumes, hmoved', hstays, hleast, hiff⟩
  have htokens : c.tokens = before.reverse ++ u :: us ++ [stop] := by
    rw [hmoved'.tokens, hmoved.tokens, Cursor.tokens, List.append_assoc]
  have hposition : Cursor.position ⟨ws.reverse ++ before, t :: more, r.addAll [⟨.token t, m⟩]⟩ =
      before.length + ws.length := by
    rw [Cursor.position, List.length_append, List.length_reverse, Nat.add_comm]
  rw [hposition] at hstays hleast hiff
  refine ⟨c, hresumes, htokens.trans (List.append_assoc ..), ?_, hmoved'.report, ?_,
    fun hstart => hiff.mpr fun hnot => ?_⟩
  · -- the end token is not passed
    have hrest : c.rest ≠ [] := by
      rcases (hmoved'.ready (hmoved.ready hready)).exists_cons with ⟨v, rest, hrest⟩
      simp [hrest]
    have hlength := congrArg List.length htokens
    rw [Cursor.tokens, List.length_append, List.length_reverse, List.length_append,
      List.length_singleton] at hlength
    have hpos := List.length_pos_iff.mpr hrest
    rw [← c.drop_position, htokens, List.drop_append_of_le_length]
    rw [Cursor.position]
    omega
  · by_cases hend : t.kind = .eof
    · have hne : ws ≠ [] := by
        rintro rfl
        obtain ⟨rfl, -⟩ := List.cons.inj hsplit
        exact hu hend
      have hpos := List.length_pos_iff.mpr hne
      have hstays' := hstays hend
      omega
    · exact Nat.lt_of_le_of_lt (Nat.le_add_right _ _) (hleast hend).1.1
  · rw [hstart] at hnot
    exact absurd hnot.2 (by decide)

/-- The declaration at a position is left out with an error, by readers with bounds that are large
enough, and reading goes on at another position. -/
def ResumesAt (ts : List Token) (s n : Nat) (d : Diagnostic) : Prop :=
  ∀ bound bound', ts.length ≤ bound → ts.length ≤ bound' → ∀ r : Report, ∃ c,
    Resumes (declarationWith (expressionWithin bound) (statementWithin bound'))
      ⟨(ts.take s).reverse, ts.drop s, r⟩ c ∧
    c.tokens = ts ∧ c.position = n ∧ c.report = r.addAll [d]

/-- A declaration that is aborted resumes at the nearest boundary. -/
theorem Aborted.resumesAt {ws us more : List Token} {u : Token} {m : Complaint} {n : Nat}
    (h : Aborted ws m (t :: more)) (hsplit : u :: us ++ [stop] = ws ++ t :: more)
    (hu : u.kind ≠ .eof) (hstop : stop.kind = .eof) (hstart : startsStatement t.kind = false)
    (hn : IsLeast (boundaries (xs ++ (u :: us ++ [stop])) xs.length (xs.length + ws.length)) n) :
    ResumesAt (xs ++ (u :: us ++ [stop])) xs.length n ⟨.token t, m⟩ := by
  intro bound bound' hbound hbound' r
  have hlength := congrArg List.length hsplit
  simp only [List.length_append, List.length_cons, List.length_nil] at hbound hbound' hlength
  rcases h.resumes hsplit hu hstop (show ws.length ≤ bound by omega)
    (show ws.length ≤ bound' by omega) xs.reverse r with
    ⟨c, hresumes, htokens, -, hreport, -, hleast⟩
  rw [List.reverse_reverse] at htokens
  rw [List.reverse_reverse, List.length_reverse] at hleast
  refine ⟨c, ?_, htokens, (hleast hstart).unique hn, hreport⟩
  rwa [List.take_left, List.drop_left]

/-- What is reported where a declaration is aborted. -/
theorem reports_aborted {ys ws more us : List Token} {u : Token} {m : Complaint}
    (haround : Around xs ys) (hinner : ∀ t ∈ xs ++ u :: us, t.kind ≠ .eof)
    (hstop : stop.kind = .eof) (hu : u.kind ∈ stmtStarts .declaration)
    (hsplit : u :: us ++ [stop] = ws ++ t :: more) (haborted : Aborted ws m (t :: more))
    (r : Report) (hbound : (xs ++ u :: us).length < bound) :
    ∃ ds, ((declarationsToEnd (declarationWithin bound) bound).run
        ⟨[], xs ++ (u :: us ++ [stop]), r⟩).2.report = r.addAll (⟨.token t, m⟩ :: ds) ∧
      (startsStatement t.kind = false → ∃ n,
        IsLeast (boundaries (xs ++ (u :: us ++ [stop])) xs.length (xs.length + ws.length)) n ∧
        (ds = [] ↔ (∀ t ∈ (xs ++ u :: us)[n]?, t.kind ≠ .kwElse) ∧
          ∃ ss, Program (xs ++ (xs ++ u :: us).drop n) ss)) := by
  have hlength := congrArg List.length hsplit
  simp only [List.length_append, List.length_cons, List.length_nil] at hbound hlength
  rcases around_enters haround (show xs.length ≤ bound by omega) with
    ⟨K, inBlock, bound₁, bound₂, count, hK⟩
  have hfirst := hK.inExpressions
  have hsecond := hK.inStatements
  have hthird := hK.rounds
  obtain ⟨count, rfl⟩ : ∃ n, count = n + 1 := ⟨count - 1, by omega⟩
  have hkind : ∀ k, k ∉ stmtStarts .declaration → u.kind ≠ k := fun k hk h => hk (h ▸ hu)
  -- up to the declaration, and behind what is skipped
  have hleads := hK.leads (hkind _ (by decide)) (us ++ [stop]) [] r
  rw [List.append_nil] at hleads
  rcases haborted.resumes hsplit (hkind _ (by decide)) hstop (show _ ≤ bound₁ by omega)
    (show _ ≤ bound₂ by omega) xs.reverse r with
    ⟨c, hresumes, -, hrest, hreport, hpassed, hleast⟩
  rw [List.reverse_reverse, List.length_reverse] at hleast
  rw [List.reverse_reverse] at hrest
  rw [List.length_reverse] at hpassed
  have hbrace : ∀ t ∈ (u :: us ++ [stop]).head?, t.kind ≠ .rightBrace :=
    fun t ht => Option.some.inj ht ▸ hkind _ (by decide)
  have hmove : c.Movable := .inl (List.length_pos_iff.mp (Nat.zero_lt_of_lt hpassed))
  have hinner' : ∀ t ∈ xs ++ (xs ++ u :: us).drop c.position, t.kind ≠ .eof := fun t ht =>
    (List.mem_append.mp ht).elim (fun hxs => hinner t (List.mem_append_left _ hxs))
      fun hdrop => hinner t (List.mem_of_mem_drop hdrop)
  have hless : (xs ++ (xs ++ u :: us).drop c.position).length + 1 < bound := by
    simp only [List.length_append, List.length_drop, List.length_cons]
    omega
  rcases hK.reports_on hrest hstop hmove hinner' hless with ⟨ds, hds, hiff⟩
  refine ⟨ds, ?_, fun hstart => ⟨c.position, hleast hstart, ?_⟩⟩
  · have hrun := hleads.trans (hK.awaits.run (hresumes.declarationsOf hbrace))
    rw [← List.cons_append] at hrun
    rw [hrun, hds, hreport]
    rfl
  · rw [hiff, List.head?_drop]

/-- The declaration at a position is aborted at another one. -/
def AbortedAt (ts : List Token) (s e : Nat) (m : Complaint) : Prop :=
  ∃ ws rest, ts.drop s = ws ++ rest ∧ e = s + ws.length ∧ Aborted ws m rest

/-- Reading up to an end token, what is reported where a declaration is aborted. -/
theorem read_aborted {ys vs ws more : List Token} {m : Complaint} (haround : Around xs ys)
    (hinner : ∀ t ∈ xs ++ vs, t.kind ≠ .eof) (hstop : stop.kind = .eof)
    (hvs : ∃ u us, vs = u :: us ∧ u.kind ∈ stmtStarts .declaration)
    (hsplit : vs ++ [stop] = ws ++ t :: more) (haborted : Aborted ws m (t :: more))
    (rest : List Token) (r : Report) :
    ∃ ss ds, read (xs ++ vs ++ stop :: rest) r = (ss, r.addAll (⟨.token t, m⟩ :: ds)) ∧
      (startsStatement t.kind = false →
        ∃ n, IsLeast (boundaries (xs ++ vs ++ [stop]) xs.length (xs.length + ws.length)) n ∧
          ResumesAt (xs ++ vs ++ [stop]) xs.length n ⟨.token t, m⟩ ∧
          (ds = [] ↔ (∀ t ∈ (xs ++ vs)[n]?, t.kind ≠ .kwElse) ∧
            ∃ ss, Program (xs ++ (xs ++ vs).drop n) ss)) := by
  obtain ⟨u, us, rfl, hu⟩ := hvs
  -- what is read does not depend on the bound, nor on the tokens behind the end token
  rcases ends_at_end hinner hstop r with ⟨ss, ds', hends⟩
  have hread : read (xs ++ u :: us ++ stop :: rest) r = (ss, r.addAll ds') := by
    rw [read, (hends rest).1]
  have hrun := (hends []).2 _ (Nat.le_refl _)
  have hbound : (xs ++ u :: us).length < (xs ++ u :: us ++ [stop]).length := by simp
  rcases reports_aborted haround hinner hstop hu hsplit haborted r hbound with
    ⟨ds, hreport, hresumes⟩
  rw [← List.append_assoc] at hreport
  rw [hrun] at hreport
  obtain rfl := Report.addAll_inj hreport
  refine ⟨ss, ds, hread, fun hstart => ?_⟩
  rcases hresumes hstart with ⟨n, hleast, hiff⟩
  have hend : u.kind ≠ .eof := hinner u (by simp)
  rw [List.append_assoc]
  exact ⟨n, hleast, haborted.resumesAt hsplit hend hstop hstart hleast, hiff⟩

/-- A program lacks a semicolon. That had its place there, and wherever it ended a statement, either
the tokens are a program still, and nothing is reported, or the declaration that it stood in is
aborted, and that is reported first. If no statement begins with the token that the declaration is
aborted at, reading resumes at the nearest place from there on where a statement may begin, and
there is no other error if and only if no `else` stands there and the tokens are a program again
when those of the declaration up to that place are cut out. -/
theorem read_missing_semicolon {as bs : List Token} {ss : List Node} {semicolon stop : Token}
    (hprogram : Program (as ++ semicolon :: bs) ss) (hsemicolon : semicolon.kind = .semicolon)
    (hstop : stop.kind = .eof) (rest : List Token) (r : Report) :
    Placed as semicolon bs ∧
      ∀ xs ts us ys, as = xs ++ ts → bs = us ++ ys → Around xs ys → Ended ts semicolon us →
        (∃ ss, Program (as ++ bs) ss ∧ read (as ++ bs ++ stop :: rest) r = (ss, r)) ∨
          ∃ (e : Nat) (t : Token) (m : Complaint) (ss : List Node) (ds : List Diagnostic),
            AbortedAt (as ++ bs ++ [stop]) xs.length e m ∧ t ∈ (as ++ bs ++ [stop])[e]? ∧
              read (as ++ bs ++ stop :: rest) r = (ss, r.addAll (⟨.token t, m⟩ :: ds)) ∧
              (startsStatement t.kind = false →
                ∃ n, IsLeast (boundaries (as ++ bs ++ [stop]) xs.length e) n ∧
                  ResumesAt (as ++ bs ++ [stop]) xs.length n ⟨.token t, m⟩ ∧
                  (ds = [] ↔ (∀ t ∈ (as ++ bs)[n]?, t.kind ≠ .kwElse) ∧
                    ∃ ss, Program (xs ++ (as ++ bs).drop n) ss)) := by
  refine ⟨hprogram.placed hsemicolon, ?_⟩
  rintro xs ts us ys rfl rfl haround hended
  have hinner : ∀ t ∈ xs ++ (ts ++ (us ++ ys)), t.kind ≠ .eof := by
    intro t ht
    refine program_inner hprogram t ?_
    simp only [List.mem_append, List.mem_cons] at ht ⊢
    rcases ht with h | h | h | h <;> simp [h]
  rw [List.append_assoc xs ts]
  rcases runs_on_or_aborted hended haround hstop with
    ⟨ss, hprogram⟩ | ⟨ws, t, more, m, hsplit, haborted⟩
  · -- nothing is missing
    rcases run_program hprogram hstop rest r with ⟨c, hrun, hreport⟩
    refine .inl ⟨ss, hprogram, ?_⟩
    rw [read, hrun]
    exact congrArg (Prod.mk ss) hreport
  · have hvs : ∃ u more, ts ++ (us ++ ys) = u :: more ∧ u.kind ∈ stmtStarts .declaration := by
      obtain ⟨u, ts, rfl, hu⟩ := hended.first
      exact ⟨u, _, rfl, hu⟩
    have hsplit' : ts ++ (us ++ ys) ++ [stop] = ws ++ t :: more := by
      rw [← hsplit]
      simp
    rcases read_aborted haround hinner hstop hvs hsplit' haborted rest r with
      ⟨ss, ds, hread, hresumes⟩
    refine .inr ⟨xs.length + ws.length, t, m, ss, ds, ?_, ?_, hread, hresumes⟩
    · exact ⟨ws, t :: more, by rw [List.append_assoc, List.drop_left, hsplit'], rfl, haborted⟩
    · rw [List.append_assoc, hsplit', List.getElem?_append_right (Nat.le_add_right _ _),
        Nat.add_sub_cancel_left, List.getElem?_append_right (Nat.le_refl _), Nat.sub_self]
      rfl

/-- The tokens of `{ print nil }`, where the semicolon is missing. -/
def unendedInBlock : List Token :=
  [.scanned .leftBrace "\x7b" .nil 1, .scanned .kwPrint "print" .nil 1,
    .scanned .kwNil "nil" .nil 1, .scanned .rightBrace "\x7d" .nil 1]

theorem unendedInBlock_around :
    Around [.scanned .leftBrace "\x7b" .nil 1] [.scanned .rightBrace "\x7d" .nil 1] :=
  .block (.program .none .none) (Setting.here : Setting false false [] []) rfl .none .none rfl

theorem unendedInBlock_ended :
    Ended [.scanned .kwPrint "print" .nil 1, .scanned .kwNil "nil" .nil 1]
      (.scanned .semicolon ";" .nil 1) [] := by
  have hunary : Expr .unary [Token.scanned .kwNil "nil" .nil 1] _ :=
    .call (.primary (.constant rfl))
  have hterm : Expr (.level .term) [Token.scanned .kwNil "nil" .nil 1] _ :=
    .operand (.operand hunary)
  have hexpression : Expr .expression [Token.scanned .kwNil "nil" .nil 1] _ :=
    .whole (.disjunction (.operand (.operand (.operand (.operand hterm)))))
  exact .printStmt .here (.print rfl hexpression rfl)

theorem unendedInBlock_program :
    ∃ ss, Program ([.scanned .leftBrace "\x7b" .nil 1, .scanned .kwPrint "print" .nil 1,
      .scanned .kwNil "nil" .nil 1] ++ .scanned .semicolon ";" .nil 1 ::
        [.scanned .rightBrace "\x7d" .nil 1]) ss := by
  rcases unendedInBlock_ended.declaration with ⟨d, n, hn⟩
  exact unendedInBlock_around.fill hn

theorem unendedInBlock_read :
    read (unendedInBlock ++ [.scanned .eof "" .nil 1]) {} =
      ([], Report.addAll {}
        [⟨.token (.scanned .rightBrace "\x7d" .nil 1), .expected .semicolonAfterValue⟩,
          ⟨.token (.scanned .eof "" .nil 1), .expected .braceAfterBlock⟩]) := by
  cbv

theorem read_missing_semicolon_block :
    ∃ n, IsLeast (boundaries (unendedInBlock ++ [.scanned .eof "" .nil 1]) 1 3) n ∧
      ResumesAt (unendedInBlock ++ [.scanned .eof "" .nil 1]) 1 n
        ⟨.token (.scanned .rightBrace "\x7d" .nil 1), .expected .semicolonAfterValue⟩ ∧
      ¬ ((∀ t ∈ unendedInBlock[n]?, t.kind ≠ .kwElse) ∧
        ∃ ss, Program (unendedInBlock.take 1 ++ unendedInBlock.drop n) ss) := by
  have hstop : (Token.scanned .eof "" .nil 1).kind = .eof := rfl
  rcases unendedInBlock_program with ⟨ss, hprogram⟩
  rcases (read_missing_semicolon hprogram rfl hstop [] {}).2 _ _ [] _ rfl rfl
    unendedInBlock_around unendedInBlock_ended with
    ⟨_, -, hread⟩ | ⟨e, t, m, _, ds, -, ht, hread, hresumes⟩
  · have hreport := congrArg Prod.snd (hread.symm.trans unendedInBlock_read)
    cases Report.addAll_eq_self.mp hreport.symm
  · have hreport := congrArg Prod.snd (hread.symm.trans unendedInBlock_read)
    obtain ⟨hfirst, rfl⟩ := List.cons.inj (Report.addAll_inj hreport)
    obtain rfl : .expected .semicolonAfterValue = m := (Diagnostic.mk.inj hfirst).2.symm
    obtain rfl : .scanned .rightBrace "\x7d" .nil 1 = t :=
      (Place.token.inj (Diagnostic.mk.inj hfirst).1).symm
    -- the token that the report names stands in one place only
    obtain rfl : e = 3 := by
      rcases e with _ | _ | _ | _ | _ | e <;> simp [Token.scanned] at ht ⊢
    rcases hresumes rfl with ⟨n, hleast, hat, hiff⟩
    exact ⟨n, hleast, hat, fun h => List.cons_ne_nil _ _ (hiff.mpr h)⟩

/-- A brace that closes a block is skipped with the statement in front of it. -/
theorem missing_semicolon_reported_twice :
    ¬ ∀ (xs ts us ys : List Token) (semicolon stop : Token), Around xs ys →
      Ended ts semicolon us → stop.kind = .eof → ∀ r : Report,
        (read (xs ++ (ts ++ (us ++ ys)) ++ [stop]) r).2.errorCount ≤ r.errorCount + 1 := by
  intro h
  have hcount := h _ _ _ _ _ (.scanned .eof "" .nil 1) unendedInBlock_around unendedInBlock_ended
    rfl {}
  change (read (unendedInBlock ++ [.scanned .eof "" .nil 1]) {}).2.errorCount ≤ 1 at hcount
  rw [unendedInBlock_read, Report.errorCount_addAll] at hcount
  exact absurd hcount (by decide)

end NovaLang.Descent
