import NovaLang.Proofs.Descent.Bounds

namespace NovaLang.Descent

/-! # Where reading ends

A token list with an end token is read up to the first one, whatever stands behind it. A
token list without one is left at its end. No bound on the readers makes a difference to
that, and no call of a reader, in whatever order they come, goes back or goes on past an
end token.
-/

/-! ## Calls -/

/-- The methods of a parser: what can be asked of it at a cursor. -/
inductive Method : {α : Type} → Reader α → Prop where
  | parse : Method program
  | parseExpression : Method soleExpression
  | declaration : Method declaration
  | varDeclaration : Method (varDeclaration expression)
  | statement : Method statement
  | forStatement : Method (forStatement expression statement)
  | ifStatement : Method (ifStatement expression statement)
  | printStatement : Method (printStatement expression)
  | whileStatement : Method (whileStatement expression statement)
  | block : Method block
  | expressionStatement : Method (expressionStatement expression)
  | expression : Method expression
  | assignment : Method (expressionOf assignment)
  | disjunction : Method (expressionOf disjunction)
  | conjunction : Method (expressionOf conjunction)
  | equality : Method (expressionOf equality)
  | comparison : Method (expressionOf comparison)
  | term : Method (expressionOf term)
  | factor : Method (expressionOf factor)
  | unary : Method (expressionOf unary)
  | call : Method (expressionOf call)
  | finishCall (callee : Node) :
      Method (remaining >>= fun bound => finishCall Descent.expression bound callee)
  | primary : Method (expressionOf fun inner _ => primary inner)
  | accept (kinds : List Kind) : Method (accept kinds)
  | consume (kind : Kind) (m : Complaint) : Method (consume kind m)
  | check (kind : Kind) : Method (check kind)
  | advance : Method advance
  | isAtEnd : Method isAtEnd
  | peek : Method peek
  | previous : Method previous
  | complain (t : Token) (m : Complaint) : Method (complain t m)
  | synchronize : Method synchronize

/-- From a cursor some methods are called, each from where the one before it ended, however
it ended. -/
inductive Calls : Cursor → Cursor → Prop where
  | none (c : Cursor) : Calls c c
  | call {c c' : Cursor} {α : Type} {r : Reader α} :
      Calls c c' → Method r → Calls c (r.run c').2

/-- The reader goes forward from every cursor, and not past an end token. -/
def Forward {α : Type} (r : Reader α) : Prop := ∀ c, ∃ ts ds, Moved c (r.run c).2 ts ds

section

variable {α : Type} {c c' : Cursor}

/-- A reader that descends goes forward. -/
theorem Forward.of_descends {m : Manner} {d : Nat} {V : α → α → Prop} {r r' : Reader α}
    (h : ∀ n, Descends (.same True) m n d V r r') : Forward r :=
  fun c => ((h c.sight).steady c (Nat.le_refl _)).went.moved

/-- One that stays where it is goes forward by nothing. -/
theorem Forward.of_stays {r : Reader α} (h : ∀ c, (r.run c).2 = c) : Forward r := by
  intro c
  rw [h c]
  exact ⟨[], [], .refl c⟩

/-- Looking at the next token moves nothing, ... -/
theorem peek_stays (c : Cursor) : (peek.run c).2 = c := by
  cases hrest : c.rest with
  | nil => rw [Looks.peek c hrest]
  | cons t rest => rw [run_peek hrest]

/-- ... whether to find out that it is the last ... -/
theorem isAtEnd_stays (c : Cursor) : (isAtEnd.run c).2 = c := by
  cases hrest : c.rest with
  | nil => rw [Looks.isAtEnd c hrest]
  | cons t rest => rw [run_isAtEnd hrest]

/-- ... or to compare its kind. -/
theorem check_stays (kind : Kind) (c : Cursor) : ((check kind).run c).2 = c := by
  cases hrest : c.rest with
  | nil => rw [Looks.check kind c hrest]
  | cons t rest =>
      rw [check, run_bind_ok (run_peek hrest)]
      rfl

/-- Nor does looking back. -/
theorem previous_stays (c : Cursor) : (previous.run c).2 = c := by
  cases hbefore : c.before with
  | nil => rw [run_previous_start hbefore]
  | cons t before => rw [run_previous hbefore]

/-- Accepting a token passes it or stays in front of it. -/
theorem accept_forward (kinds : List Kind) : Forward (accept kinds) := by
  intro c
  rcases kinds with _ | ⟨kind, kinds⟩
  · exact ⟨[], [], .refl c⟩
  cases hrest : c.rest with
  | nil =>
      rw [Looks.accept kind kinds c hrest]
      exact ⟨[], [], .refl c⟩
  | cons t rest =>
      have hrun : (accept (kind :: kinds)).run c =
          (if t.kind != .eof && (kind :: kinds).contains t.kind then
            step >>= fun _ => pure true else pure false : Reader Bool).run c :=
        run_bind_ok (run_peek hrest)
      rw [hrun]
      split
      · rename_i ht
        rw [Bool.and_eq_true, bne_iff_ne] at ht
        rw [run_bind_ok (run_step hrest)]
        exact ⟨[t], [], .past hrest ht.1⟩
      · exact ⟨[], [], .refl c⟩

/-- The same for a token that must stand there. -/
theorem consume_forward (kind : Kind) (m : Complaint) : Forward (consume kind m) := by
  intro c
  -- the kind of the end is never found, so the reader fails where it stands
  by_cases hkind : kind = .eof
  · cases hrest : c.rest with
    | nil =>
        rw [Looks.consume kind m c hrest]
        exact ⟨[], [], .refl c⟩
    | cons t rest =>
        have htest : (t.kind != .eof && t.kind == kind) = false := by simp [hkind]
        have hcheck : (check kind).run c = (.ok false, c) := by
          rw [check, run_bind_ok (run_peek hrest), htest]
          rfl
        rw [consume, run_bind_ok hcheck]
        rw [if_neg Bool.false_ne_true, run_fail hrest]
        exact ⟨[], _, .complaint c t m⟩
  · exact (SteadyAt.consume (s := True) trivial hkind m).went.moved

/-- A single expression is read forward. -/
theorem soleExpression_forward : Forward soleExpression := by
  intro c
  have hrun : (soleExpression.run c).2 = (expression.run c).2 := by
    rw [soleExpression, run_tryCatch, run_map]
    rcases expression.run c with ⟨(_ | _) | _, c'⟩ <;> rfl
  rw [hrun]
  exact Forward.of_descends (expression_descends _) c

/-- So is whatever any method of the parser reads. -/
theorem Method.forward {r : Reader α} (h : Method r) : Forward r := by
  have hm : Manner.far.Fails := trivial
  have hexpression := expression_descends (.same True)
  have hstatement := statement_descends (.same True)
  -- what is read inside of another reader is read at any bound
  cases h with
  | parse => exact .of_descends (program_descends _)
  | parseExpression => exact soleExpression_forward
  | declaration => exact .of_descends (declaration_descends _)
  | varDeclaration => exact .of_descends fun n => varDeclaration_descends hm (hexpression n)
  | statement => exact .of_descends hstatement
  | forStatement =>
      exact .of_descends fun n => forStatement_descends hm (hexpression n) (hstatement n)
  | ifStatement =>
      exact .of_descends fun n => ifStatement_descends hm (hexpression n) (hstatement n)
  | printStatement => exact .of_descends fun n => printStatement_descends hm (hexpression n)
  | whileStatement =>
      exact .of_descends fun n => whileStatement_descends hm (hexpression n) (hstatement n)
  | block => exact .of_descends (block_descends _)
  | expressionStatement =>
      exact .of_descends fun n => expressionStatement_descends hm (hexpression n)
  | expression => exact .of_descends hexpression
  | assignment => exact .of_descends fun n => expressionOf_descends _ n (assignment_descends hm)
  | disjunction => exact .of_descends fun n => expressionOf_descends _ n (disjunction_descends hm)
  | conjunction => exact .of_descends fun n => expressionOf_descends _ n (conjunction_descends hm)
  | equality => exact .of_descends fun n => expressionOf_descends _ n (equality_descends hm)
  | comparison => exact .of_descends fun n => expressionOf_descends _ n (comparison_descends hm)
  | term => exact .of_descends fun n => expressionOf_descends _ n (term_descends hm)
  | factor => exact .of_descends fun n => expressionOf_descends _ n (factor_descends hm)
  | unary => exact .of_descends fun n => expressionOf_descends _ n (unary_descends hm)
  | call => exact .of_descends fun n => expressionOf_descends _ n (call_descends hm)
  | finishCall callee =>
      have hsame : (Likeness.same True).expression 8 callee callee := rfl
      exact .of_descends fun n => finishCall_expression_descends _ n hsame
  | primary =>
      exact .of_descends fun n => expressionOf_descends _ n
        fun hinner _ _ _ _ _ => primary_descends hm hinner
  | accept kinds => exact accept_forward kinds
  | consume kind m => exact consume_forward kind m
  | check kind => exact .of_stays (check_stays kind)
  | advance =>
      intro c
      exact (advance_steady (s := False) (d := 0) (Nat.zero_le 1) nofun).went.moved
  | isAtEnd => exact .of_stays isAtEnd_stays
  | peek => exact .of_stays peek_stays
  | previous => exact .of_stays previous_stays
  | complain t m => exact fun c => ⟨[], _, .complaint c t m⟩
  | synchronize =>
      intro c
      exact (synchronize_steady (s := False) (d := 0) (Nat.zero_le 1) nofun).went.moved

/-- And so is what several calls read, one after the other. -/
theorem Calls.moved (h : Calls c c') : ∃ ts ds, Moved c c' ts ds := by
  induction h with
  | none => exact ⟨[], [], .refl c⟩
  | call _ hmethod ih =>
      rcases ih with ⟨ts, ds, hmoved⟩
      rcases hmethod.forward _ with ⟨us, es, hmoved'⟩
      exact ⟨_, _, hmoved.trans hmoved'⟩

end

/-! ## The end of a program -/

/-- Declarations are read up to an end token, or all tokens are passed and looked beyond. -/
theorem declarationsToEnd_ends {bound : Nat} : ∀ (count : Nat) (c : Cursor), c.sight ≤ count →
    c.sight ≤ bound → ∃ c' ts ds, Moved c c' ts ds ∧
      ((∃ ss, (declarationsToEnd (declarationWithin bound) count).run c = (.ok ss, c') ∧
          ∃ t ∈ c'.rest.head?, t.kind = .eof) ∨
        ((declarationsToEnd (declarationWithin bound) count).run c =
            (.error (.fault (.pastEnd c'.position c'.position)), c') ∧ c'.rest = [])) := by
  intro count
  induction count with
  | zero =>
      intro c hcount _
      have hrest := Cursor.rest_of_sight hcount
      exact ⟨c, [], [], .refl c, .inr ⟨declarationsToEnd_looks _ _ c hrest, hrest⟩⟩
  | succ count ih =>
      intro c hcount hbound
      -- by the next token: none, an end token, or one that a declaration may begin with
      cases hrest : c.rest with
      | nil =>
          exact ⟨c, [], [], .refl c, .inr ⟨declarationsToEnd_looks _ _ c hrest, hrest⟩⟩
      | cons t rest =>
          have hrun : (declarationsToEnd (declarationWithin bound) (count + 1)).run c =
              (if (t.kind == .eof) = true then pure [] else do
                let first ← declarationWithin bound
                let more ← declarationsToEnd (declarationWithin bound) count
                return first.toList ++ more : Reader (List Node)).run c :=
            run_bind_ok (run_isAtEnd hrest)
          rw [hrun]
          by_cases ht : t.kind = .eof
          · rw [if_pos (by simpa using ht)]
            exact ⟨c, [], [], .refl c, .inl ⟨[], rfl, t, by rw [hrest]; rfl, ht⟩⟩
          rw [if_neg (by simpa using ht)]
          have hinside := Cursor.inside_of_cons hrest ht
          have hattempt := (unguardedWithin_descends (.refl c.sight bound) (.refl _ bound)).steady c
            (Nat.le_refl _)
          have hfirst : SteadyAt False 1 _ c (declarationWithin bound) (declarationWithin bound) :=
            hattempt.recovering (Nat.le_refl 1) fun _ => hinside
          have hwent := hfirst.went
          revert hwent
          rcases hdeclaration : (declarationWithin bound).run c with ⟨o, c₁⟩
          intro hwent
          cases hwent with
          | @yields first _ ts ds hmoved hpassed =>
              -- the declaration has passed a token, so the rounds left are enough
              have hsight := hmoved.sight
              rcases ih c₁ (by omega) (by omega) with ⟨c', us, es, hmoved', hends⟩
              refine ⟨c', _, _, hmoved.trans hmoved', ?_⟩
              rw [run_bind_ok hdeclaration]
              rcases hends with ⟨ss, hss, hend⟩ | ⟨hfault, hnil⟩
              · exact .inl ⟨_, run_bind_ok hss, hend⟩
              · exact .inr ⟨run_bind_error hfault, hnil⟩
          | stops hfalse => exact hfalse.elim
          | @faults f _ ts ds hmoved hfault =>
              rcases hfault (hmoved.movable (.inr hinside)) with ⟨hnil, rfl⟩
              exact ⟨c₁, ts, ds, hmoved, .inr ⟨run_bind_error hdeclaration, hnil⟩⟩

/-- Reading the tokens ends so, whatever bound on the number of tokens the readers get. -/
def Ends (tokens : List Token) (r : Report) (outcome : Except Stop (List Node) × Cursor) : Prop :=
  program.run ⟨[], tokens, r⟩ = outcome ∧ ∀ bound, tokens.length ≤ bound →
    (declarationsToEnd (declarationWithin bound) bound).run ⟨[], tokens, r⟩ = outcome

/-- The readers are a program with one bound as with any other. -/
theorem ends_of_bounds {tokens : List Token} {r : Report}
    {outcome : Except Stop (List Node) × Cursor}
    (h : ∀ bound, tokens.length ≤ bound →
      (declarationsToEnd (declarationWithin bound) bound).run ⟨[], tokens, r⟩ = outcome) :
    Ends tokens r outcome := ⟨h tokens.length (Nat.le_refl _), h⟩

/-- In front of tokens that it may all see, a program is read alike with all bounds. -/
theorem run_bounds (tokens : List Token) (r : Report) {bound bound' : Nat}
    (hbound : (upToEnd tokens).length ≤ bound) (hbound' : (upToEnd tokens).length ≤ bound') :
    (declarationsToEnd (declarationWithin bound') bound').run ⟨[], upToEnd tokens, r⟩ =
      (((declarationsToEnd (declarationWithin bound) bound).run ⟨[], tokens, r⟩).1,
        ((declarationsToEnd (declarationWithin bound) bound).run ⟨[], tokens, r⟩).2.view) := by
  have hfits : (Likeness.same True).Fits _ bound bound' := .inr ⟨trivial, hbound, hbound'⟩
  have hall := declarationsToEnd_descends (unguardedWithin_descends hfits hfits).far
    (Nat.le_refl _) hfits
  have hsteady := hall.steady ⟨[], tokens, r⟩ (Nat.le_refl _)
  exact (hsteady.mono id (Nat.le_refl 0) fun _ _ => forall₂_eq).run_view

/-- Where there is an end token, the first one is where reading ends. -/
theorem run_to_end {ts : List Token} {stop : Token} (hts : ∀ t ∈ ts, t.kind ≠ .eof)
    (hstop : stop.kind = .eof) (us : List Token) (r : Report) {bound : Nat}
    (hbound : (ts ++ stop :: us).length ≤ bound) :
    ∃ ss ds, (declarationsToEnd (declarationWithin bound) bound).run ⟨[], ts ++ stop :: us, r⟩ =
      (.ok ss, ⟨ts.reverse, stop :: us, r.addAll ds⟩) := by
  have hsight : (⟨[], ts ++ stop :: us, r⟩ : Cursor).sight ≤ bound :=
    Nat.le_trans (length_upToEnd _) hbound
  have hready : (⟨[], ts ++ stop :: us, r⟩ : Cursor).Ready := ⟨stop, by simp, hstop⟩
  rcases declarationsToEnd_ends bound _ hsight hsight with ⟨c', xs, ds, hmoved, hends⟩
  rcases (hmoved.ready hready).exists_cons with ⟨u, rest, hrest⟩
  rcases hends with ⟨ss, hrun, v, hv, hend⟩ | ⟨-, hnil⟩
  · rw [hrest] at hv
    obtain rfl : u = v := Option.some.inj hv
    -- both `stop` and `u` are the first end token, so the tokens in front of them are the same
    have hsplit : ts ++ stop :: us = xs ++ u :: rest := hrest ▸ hmoved.rest
    have hview := congrArg upToEnd hsplit
    rw [upToEnd_append hts, upToEnd_append hmoved.inner, upToEnd, upToEnd, if_pos hstop,
      if_pos hend] at hview
    rcases List.append_inj' hview rfl with ⟨rfl, -⟩
    rcases List.cons.inj (List.append_cancel_left hsplit) with ⟨rfl, rfl⟩
    refine ⟨ss, ds, hrun.trans (congrArg (Prod.mk _) ?_)⟩
    rcases c' with ⟨before, _, report⟩
    obtain rfl := hrest
    obtain rfl := hmoved.report
    have hbefore := hmoved.before
    rw [List.append_nil] at hbefore
    obtain rfl := hbefore
    rfl
  · rw [hrest] at hnil
    cases hnil

/-- The part up to the first end token, when one is known. -/
theorem upToEnd_of_end {ts us : List Token} {stop : Token} (hts : ∀ t ∈ ts, t.kind ≠ .eof)
    (hstop : stop.kind = .eof) : upToEnd (ts ++ stop :: us) = ts ++ [stop] := by
  rw [upToEnd_append hts, upToEnd, if_pos hstop]

/-- What stands behind the first end token makes no difference, and no bound does. -/
theorem ends_at_end {ts : List Token} {stop : Token} (hts : ∀ t ∈ ts, t.kind ≠ .eof)
    (hstop : stop.kind = .eof) (r : Report) :
    ∃ ss ds, ∀ us, Ends (ts ++ stop :: us) r
      (.ok ss, ⟨ts.reverse, stop :: us, r.addAll ds⟩) := by
  -- the result is that of the run on the tokens in view, which is the same for all `us`
  rcases run_to_end hts hstop [] r (Nat.le_refl _) with ⟨ss, ds, hrun⟩
  refine ⟨ss, ds, fun us => ends_of_bounds fun bound hbound => ?_⟩
  rcases run_to_end hts hstop us r hbound with ⟨ss', ds', hrun'⟩
  have hview := length_upToEnd (ts ++ stop :: us)
  have hsame := run_bounds (ts ++ stop :: us) r (Nat.le_trans hview hbound)
    (Nat.le_of_eq (congrArg List.length (upToEnd_of_end hts hstop)))
  rw [hrun', upToEnd_of_end hts hstop, hrun] at hsame
  rcases Prod.mk.inj hsame with ⟨hresult, hcursor⟩
  rcases Cursor.mk.inj hcursor with ⟨-, -, hreport⟩
  rw [hrun', hresult, hreport]

/-- Without an end token, the readers look for one beyond the tokens. -/
theorem ends_beyond {ts : List Token} (hts : ∀ t ∈ ts, t.kind ≠ .eof) (r : Report) :
    ∃ ds, Ends ts r (.error (.fault (.pastEnd ts.length ts.length)),
      ⟨ts.reverse, [], r.addAll ds⟩) := by
  have hview : upToEnd ts = ts := by simpa [upToEnd] using upToEnd_append hts []
  -- there is no end token in sight, so the list of declarations runs past the last one
  have hrun : ∀ bound, ts.length ≤ bound → ∃ ds,
      (declarationsToEnd (declarationWithin bound) bound).run ⟨[], ts, r⟩ =
        (.error (.fault (.pastEnd ts.length ts.length)), ⟨ts.reverse, [], r.addAll ds⟩) := by
    intro bound hbound
    have hsight : (⟨[], ts, r⟩ : Cursor).sight ≤ bound := Nat.le_trans (length_upToEnd ts) hbound
    rcases declarationsToEnd_ends bound _ hsight hsight with
      ⟨c', xs, ds, hmoved, ⟨ss, -, t, ht, hend⟩ | ⟨hfault, hnil⟩⟩
    · have hmem : t ∈ ts := by
        rw [show ts = xs ++ c'.rest from hmoved.rest]
        exact List.mem_append_right xs (List.mem_of_mem_head? ht)
      exact absurd hend (hts t hmem)
    · rcases c' with ⟨before, _, report⟩
      obtain rfl := hnil
      obtain rfl := hmoved.report
      have hbefore := hmoved.before
      have hpassed : ts = xs := hmoved.rest.trans (List.append_nil xs)
      rw [List.append_nil, ← hpassed] at hbefore
      obtain rfl := hbefore
      refine ⟨ds, hfault.trans ?_⟩
      rw [Cursor.position, List.length_reverse]
  rcases hrun ts.length (Nat.le_refl _) with ⟨ds, hfirst⟩
  refine ⟨ds, ends_of_bounds fun bound hbound => ?_⟩
  have hlength := congrArg List.length hview
  have hsame := run_bounds ts r (Nat.le_of_eq hlength) (hlength ▸ hbound)
  rw [hview, hfirst] at hsame
  exact hsame

/-- Some calls from the start of the tokens end in front of the first end token or earlier. -/
theorem Calls.position_le {tokens : List Token} {r : Report} {c : Cursor}
    (h : Calls ⟨[], tokens, r⟩ c) : c.position ≤ tokens.findIdx (·.kind == .eof) := by
  rcases h.moved with ⟨ts, ds, hmoved⟩
  have htokens : tokens = ts ++ c.rest := hmoved.rest
  -- only passed tokens stand before the cursor, and none of them is an end token
  have hposition : c.position = ts.length := by
    rw [Cursor.position, hmoved.before, List.length_append, List.length_reverse]
    rfl
  rw [hposition, htokens, List.findIdx_append, if_neg]
  · exact Nat.le_add_left _ _
  · rw [List.findIdx_lt_length]
    rintro ⟨t, ht, hend⟩
    exact hmoved.inner t ht (by simpa using hend)

/-- No sequence of calls goes back. -/
theorem Calls.position_mono {c c' : Cursor} (h : Calls c c') : c.position ≤ c'.position := by
  rcases h.moved with ⟨ts, ds, hmoved⟩
  rw [Cursor.position, Cursor.position, hmoved.before, List.length_append]
  exact Nat.le_add_left _ _

/-- Calls may follow calls. -/
theorem Calls.trans {c c' c'' : Cursor} (h : Calls c c') (h' : Calls c' c'') : Calls c c'' := by
  induction h' with
  | none => exact h
  | call _ hmethod ih => exact .call ih hmethod

/-- Every token list is read to an end that no bound changes. With an end token in it, that
is the first one, and what is read and reported depends only on what stands before it.
Without one, the readers look beyond the end of the tokens. Whatever methods are called, the
position never goes back, and never past the first end token or the end of the tokens. -/
theorem reading_ends (r : Report) :
    (∀ ts stop, (∀ t ∈ ts, t.kind ≠ .eof) → stop.kind = .eof → ∃ ss ds, ∀ us,
      Ends (ts ++ stop :: us) r (.ok ss, ⟨ts.reverse, stop :: us, r.addAll ds⟩)) ∧
    (∀ ts, (∀ t ∈ ts, t.kind ≠ .eof) → ∃ ds fault,
      Ends ts r (.error (.fault fault), ⟨ts.reverse, [], r.addAll ds⟩) ∧
      fault.message = "parser position " ++ toString ts.length ++ " past end of " ++
        toString ts.length ++ " tokens") ∧
    ∀ tokens c c', Calls ⟨[], tokens, r⟩ c → Calls c c' →
      c.position ≤ c'.position ∧ c'.position ≤ tokens.findIdx (·.kind == .eof) := by
  refine ⟨fun ts stop hts hstop => ends_at_end hts hstop r, fun ts hts => ?_, ?_⟩
  · rcases ends_beyond hts r with ⟨ds, hends⟩
    exact ⟨ds, _, hends, rfl⟩
  · intro tokens c c' hcalls hcalls'
    exact ⟨hcalls'.position_mono, (hcalls.trans hcalls').position_le⟩

/-- A `var` without anything behind it, and a semicolon. -/
def bareVar : List Token := [.scanned .kwVar "var" .nil 1, .scanned .semicolon ";" .nil 1]

theorem reading_ends_bareVar :
    (∀ t ∈ bareVar, t.kind ≠ .eof) ∧ (Token.scanned .eof "" .nil 1).kind = .eof ∧
      (∃ ss ds, ∀ us, Ends (bareVar ++ .scanned .eof "" .nil 1 :: us) {}
        (.ok ss, ⟨bareVar.reverse, .scanned .eof "" .nil 1 :: us, Report.addAll {} ds⟩)) ∧
      ∃ ds fault, Ends bareVar {}
          (.error (.fault fault), ⟨bareVar.reverse, [], Report.addAll {} ds⟩) ∧
        fault.message = "parser position 2 past end of 2 tokens" := by
  have hkinds : ∀ t ∈ bareVar, t.kind ≠ .eof := by decide
  rcases reading_ends {} with ⟨hend, hbeyond, -⟩
  rcases hbeyond bareVar hkinds with ⟨ds, fault, hends, hmessage⟩
  exact ⟨hkinds, rfl, hend bareVar _ hkinds rfl, ds, fault, hends, hmessage⟩

end NovaLang.Descent
