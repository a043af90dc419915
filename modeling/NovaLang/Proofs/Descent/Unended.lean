import NovaLang.Proofs.Descent.Surroundings
import NovaLang.Proofs.Juxtaposed

namespace NovaLang

/-! # Statements without their semicolon

A statement that lacks its semicolon goes on with the next one where that begins with a minus sign
or a parenthesis. Otherwise the declaration that it stands in is aborted at the token behind it; a
`for` whose first clause goes on with the second one is aborted at its closing parenthesis.
-/

namespace Phrase

/-! ## What lacks its semicolon -/

/-- The tokens are a declaration or a statement that lacks its semicolon. It is open when it ends
in an expression, which may go on. -/
inductive Unended : Rule → (isOpen : Bool) → List Token → Prop where
  | bare {v n : Token} : v.kind = .kwVar → n.kind = .identifier → Unended .varDecl false [v, n]
  | initialized {v n q : Token} {ts : List Token} {e : Node} :
      v.kind = .kwVar → n.kind = .identifier → q.kind = .equal → Expr .expression ts e →
      Unended .varDecl true (v :: n :: q :: ts)
  | expression {ts : List Token} {e : Node} :
      Expr .expression ts e → Unended .exprStmt true ts
  | print {p : Token} {ts : List Token} {e : Node} :
      p.kind = .kwPrint → Expr .expression ts e → Unended .printStmt true (p :: ts)

/-- A simple statement is an unended one and its semicolon. -/
theorem Simple.unended {q : Rule} {ts : List Token} {s : Token} {n : Node}
    (h : Simple q (ts ++ [s]) n) : s.kind = .semicolon ∧ ∃ isOpen, Unended q isOpen ts := by
  have hsplit : ∀ {us : List Token} {u : Token}, us ++ [u] = ts ++ [s] → us = ts ∧ u = s := by
    intro us u heq
    rcases List.append_inj' heq rfl with ⟨hus, hu⟩
    exact ⟨hus, List.head_eq_of_cons_eq hu⟩
  generalize hall : ts ++ [s] = us at h
  -- the semicolon is the last token of each of them
  cases h with
  | @bare v n s hv hn hs =>
      obtain ⟨rfl, rfl⟩ := hsplit (show [v, n] ++ [s] = _ from hall.symm)
      exact ⟨hs, _, .bare hv hn⟩
  | initialized hv hn hq he hs =>
      obtain ⟨rfl, rfl⟩ := hsplit hall.symm
      exact ⟨hs, _, .initialized hv hn hq he⟩
  | expression he hs =>
      obtain ⟨rfl, rfl⟩ := hsplit hall.symm
      exact ⟨hs, _, .expression he⟩
  | print hp he hs =>
      obtain ⟨rfl, rfl⟩ := hsplit hall.symm
      exact ⟨hs, _, .print hp he⟩

/-- What is taken away is a semicolon. -/
theorem Ended.semicolon {ts us : List Token} {s : Token} (h : Ended ts s us) :
    s.kind = .semicolon := by
  cases h with
  | varDecl h | exprStmt _ h | printStmt _ h | initializer _ _ _ _ h => exact h.unended.1

/-- In front of the semicolon a declaration begins. -/
theorem Ended.first {ts us : List Token} {s : Token} (h : Ended ts s us) :
    ∃ t ts', ts = t :: ts' ∧ t.kind ∈ stmtStarts .declaration := by
  rcases h.declaration with ⟨d, n, hn⟩
  obtain ⟨t, more, heq, ht⟩ := hn.first (by simp)
  cases ts with
  | nil =>
      obtain ⟨rfl, -⟩ := List.cons.inj heq
      rw [h.semicolon] at ht
      exact absurd ht (by decide)
  | cons u ts =>
      obtain ⟨rfl, -⟩ := List.cons.inj heq
      exact ⟨u, ts, rfl, ht⟩

/-- Any semicolon ends the statement. -/
theorem Unended.close {q : Rule} {isOpen : Bool} {ts : List Token} {s : Token}
    (h : Unended q isOpen ts) (hs : s.kind = .semicolon) : ∃ n, Simple q (ts ++ [s]) n := by
  cases h with
  | bare hv hn => exact ⟨_, .bare hv hn hs⟩
  | initialized hv hn hq he => exact ⟨_, .initialized hv hn hq he hs⟩
  | expression he => exact ⟨_, .expression he hs⟩
  | print hp he => exact ⟨_, .print hp he hs⟩

/-- An unended statement starts like a statement. -/
theorem Unended.first {q : Rule} {isOpen : Bool} {ts : List Token} (h : Unended q isOpen ts)
    (hq : q = .exprStmt ∨ q = .printStmt) :
    ∃ t us, ts = t :: us ∧ t.kind ∈ stmtStarts .statement := by
  cases h with
  | bare | initialized => rcases hq with hq | hq <;> cases hq
  | expression he =>
      obtain ⟨t, us, rfl, ht⟩ := he.first
      exact ⟨t, us, rfl, List.mem_append_right _ ht⟩
  | print hp he => exact ⟨_, _, rfl, by simp [stmtStarts, hp]⟩

/-- An unended declaration starts with `var`. -/
theorem Unended.first_var {isOpen : Bool} {ts : List Token} (h : Unended .varDecl isOpen ts) :
    ∃ v us, ts = v :: us ∧ v.kind = .kwVar := by
  cases h with
  | bare hv | initialized hv => exact ⟨_, _, rfl, hv⟩

/-- An open statement goes on with what its expression goes on with. -/
theorem Unended.extend {q : Rule} {ts us : List Token} {s : Token} (h : Unended q true ts)
    (hus : Extends .expression us) (hs : s.kind = .semicolon) :
    ∃ n, Simple q (ts ++ us ++ [s]) n := by
  cases h with
  | initialized hv hn hq he =>
      rcases hus _ _ he with ⟨c, hc⟩
      exact ⟨_, .initialized hv hn hq hc hs⟩
  | expression he =>
      rcases hus _ _ he with ⟨c, hc⟩
      exact ⟨_, .expression hc hs⟩
  | print hp he =>
      rcases hus _ _ he with ⟨c, hc⟩
      exact ⟨_, .print hp hc hs⟩

/-! ## What stands behind a statement -/

/-- The kinds of tokens that may stand behind a declaration or a statement. -/
def nextKinds : List Kind := .kwElse :: .rightBrace :: .eof :: stmtStarts .declaration

/-- An expression may be next. -/
theorem exprStarts_next {k : Kind} (h : k ∈ exprStarts .expression) : k ∈ nextKinds := by
  have hsub : exprStarts .expression ⊆ nextKinds := by decide
  exact hsub h

/-- Only an expression begins with a minus sign or a parenthesis. -/
theorem Stmt.of_sign {d : Bool} {t : Token} {us : List Token} {n : Node}
    (h : Stmt .declaration d (t :: us) n) (ht : t.kind = .leftParen ∨ t.kind = .minus) :
    ∃ fs e s, t :: us = fs ++ [s] ∧ Expr .expression fs e ∧ s.kind = .semicolon := by
  have hne : ∀ k, k ≠ .leftParen → k ≠ .minus → t.kind ≠ k := by
    rintro k hparen hminus rfl
    exact ht.elim hparen hminus
  generalize hts : t :: us = ts at h
  -- no keyword is a parenthesis or a minus
  cases h with
  | varDecl h =>
      obtain ⟨v, vs, rfl, hv⟩ := h.first
      obtain ⟨rfl, -⟩ := List.cons.inj hts
      exact absurd (List.mem_singleton.mp hv) (hne _ (by decide) (by decide))
  | statement h =>
      cases h with
      | exprStmt h =>
          cases h with
          | expression he hs => exact ⟨_, _, _, rfl, he, hs⟩
      | printStmt h =>
          obtain ⟨v, vs, rfl, hv⟩ := h.first
          obtain ⟨rfl, -⟩ := List.cons.inj hts
          exact absurd (List.mem_singleton.mp hv) (hne _ (by decide) (by decide))
      | forLoop h | whileLoop h | ifAlone h | ifElse h | block h =>
          obtain ⟨rfl, -⟩ := List.cons.inj hts
          exact absurd h (hne _ (by decide) (by decide))

/-- The first token behind some declarations, or of one of them. If it is a minus sign or a
parenthesis, the first of them is an expression statement. -/
theorem Program.next {ys : List Token} {as : List Node} (h : Program ys as) {t : Token}
    (ht : t.kind ∈ [Kind.rightBrace, .eof]) (rest : List Token) :
    ∃ u more, ys ++ t :: rest = u :: more ∧ u.kind ∈ nextKinds ∧
      (u.kind = .leftParen ∨ u.kind = .minus → ∃ fs e s ys' bs, ys = fs ++ s :: ys' ∧
        Expr .expression fs e ∧ s.kind = .semicolon ∧ Program ys' bs) := by
  cases h with
  | none =>
      refine ⟨t, rest, rfl, ?_, fun hsign => ?_⟩
      · have hsub : [Kind.rightBrace, .eof] ⊆ nextKinds := by decide
        exact hsub ht
      · rcases hsign with hsign | hsign <;> simp [hsign] at ht
  | @cons _ xs zs s ss hs hss =>
      obtain ⟨u, us, rfl, hu⟩ := hs.first (by simp)
      refine ⟨u, us ++ (zs ++ t :: rest), by simp, ?_, fun hsign => ?_⟩
      · exact List.mem_cons_of_mem _ (List.mem_cons_of_mem _ (List.mem_cons_of_mem _ hu))
      · -- a sign is the start of an expression statement, which has a semicolon of its own
        rcases hs.of_sign hsign with ⟨fs, e, s, heq, he, hs⟩
        exact ⟨fs, e, s, zs, ss, by rw [heq]; simp, he, hs, hss⟩

/-- The same behind a statement, wherever it is nested. -/
theorem Around.next {xs ys : List Token} (h : Around xs ys) {stop : Token}
    (hstop : stop.kind = .eof) :
    ∃ u more, ys ++ [stop] = u :: more ∧ u.kind ∈ nextKinds ∧
      (u.kind = .leftParen ∨ u.kind = .minus → ∃ fs e s ys', ys = fs ++ s :: ys' ∧
        Expr .expression fs e ∧ s.kind = .semicolon ∧ Around xs ys') := by
  cases h with
  | program hxs hys =>
      have hend : stop.kind ∈ [Kind.rightBrace, .eof] := by simp [hstop]
      rcases hys.next hend [] with ⟨u, more, heq, hu, hsign⟩
      refine ⟨u, more, heq, hu, fun h => ?_⟩
      rcases hsign h with ⟨fs, e, s, ys', bs, hys, he, hs, hys'⟩
      exact ⟨fs, e, s, ys', hys, he, hs, .program hxs hys'⟩
  | @block d l r xs ys pre post xs' ys' as bs haround hsetting hl hxs' hys' hr =>
      have hend : r.kind ∈ [Kind.rightBrace, .eof] := by simp [hr]
      rcases hys'.next hend (post ++ ys ++ [stop]) with ⟨u, more, heq, hu, hsign⟩
      refine ⟨u, more, by rw [← heq]; simp, hu, fun h => ?_⟩
      rcases hsign h with ⟨fs, e, s, zs, cs, rfl, he, hs, hzs⟩
      exact ⟨fs, e, s, zs ++ r :: (post ++ ys), by simp, he, hs,
        .block haround hsetting hl hxs' hzs hr⟩

/-- Only a minus sign or a parenthesis goes on with an expression in front of it. -/
theorem nextKinds_loose :
    ∀ k ∈ nextKinds, k ≠ .leftParen → k ≠ .minus → 7 < Descent.looseness k := by
  decide

/-- The token does not go on with an unended statement in front of it. -/
structure Apart (isOpen : Bool) (t : Token) : Prop where
  next : t.kind ∈ nextKinds
  sign : isOpen = true → t.kind ≠ .leftParen ∧ t.kind ≠ .minus

namespace Apart

variable {isOpen : Bool} {t : Token}

/-- What is next is a sign that continues the expression, or it does not continue anything. -/
theorem or_sign (ht : t.kind ∈ nextKinds) (isOpen : Bool) :
    (isOpen = true ∧ (t.kind = .leftParen ∨ t.kind = .minus)) ∨ Apart isOpen t := by
  by_cases hopen : isOpen = true ∧ (t.kind = .leftParen ∨ t.kind = .minus)
  · exact .inl hopen
  · exact .inr ⟨ht, fun hisOpen => not_or.mp fun hkind => hopen ⟨hisOpen, hkind⟩⟩

/-- No other kind is next. -/
theorem ne {k : Kind} (h : Apart isOpen t) (hk : k ∉ nextKinds) : t.kind ≠ k :=
  fun heq => hk (heq ▸ h.next)

/-- What is apart binds no operand. -/
theorem loose (h : Apart true t) : 7 < Descent.looseness t.kind :=
  nextKinds_loose _ h.next (h.sign rfl).1 (h.sign rfl).2

end Apart

/-- An unended statement goes on with the next one up to the end of that, or is aborted at the
next token. -/
theorem Unended.follow {q : Rule} {isOpen : Bool} {ts xs ys post : List Token} {stop : Token}
    (h : Unended q isOpen ts) (haround : Around xs ys) (hstop : stop.kind = .eof)
    (hpost : ∀ t ∈ post.head?, t.kind = .kwElse) :
    (post = [] ∧
        ∃ fs s ys' n, ys = fs ++ s :: ys' ∧ Around xs ys' ∧ Simple q (ts ++ fs ++ [s]) n) ∨
      ∃ t rest, post ++ (ys ++ [stop]) = t :: rest ∧ Apart isOpen t := by
  cases post with
  | cons t post =>
      have helse : t.kind = .kwElse := hpost t rfl
      refine .inr ⟨t, _, rfl, ?_, ?_⟩ <;> rw [helse]
      · decide
      · simp
  | nil =>
      rcases haround.next hstop with ⟨t, rest, heq, ht, hsign⟩
      rcases Apart.or_sign ht isOpen with ⟨rfl, hkind⟩ | hapart
      · -- the next statement continues the expression: together they are one statement
        rcases hsign hkind with ⟨fs, e, s, ys', rfl, he, hs, haround'⟩
        obtain ⟨u, fs, rfl, -⟩ := he.first
        obtain ⟨rfl, -⟩ := List.cons.inj heq
        rcases h.extend (he.juxtaposed (by decide) hkind) hs with ⟨n, hn⟩
        exact .inl ⟨rfl, _, s, ys', n, rfl, haround', hn⟩
      · exact .inr ⟨t, rest, heq, hapart⟩

end Phrase

namespace Descent

open Phrase

variable {α β : Type}

/-! ## Readers that are stopped -/

/-- Behind a failure nothing is run. -/
theorem fail_bind (m : Complaint) (f : α → Reader β) : (fail m >>= f) = fail m := by
  rw [fail, bind_assoc]
  rfl

/-- With some tokens in front of others, a reader passes them in silence and stops with a
complaint at the next one. -/
def Breaks (r : Reader α) (ts : List Token) (m : Complaint) (rest : List Token) : Prop :=
  Leads r ts (fail m) rest

theorem Breaks.bind {r : Reader α} {f : α → Reader β} {ts rest : List Token} {m : Complaint}
    (h : Breaks r ts m rest) : Breaks (r >>= f) ts m rest := by
  rw [Breaks, ← fail_bind m f]
  intro before report
  rw [run_bind, run_bind, h before report]

section

variable {b bound : Nat} {t : Token} {ts rest : List Token}

theorem consume_breaks {kind : Kind} (hkind : kind ≠ .eof) (ht : t.kind ≠ kind) (m : Complaint) :
    Breaks (consume kind m) [] m (t :: rest) :=
  .check_no hkind ht

theorem discard_consume_breaks {kind : Kind} (hkind : kind ≠ .eof) (ht : t.kind ≠ kind)
    (m : Complaint) {f : Unit → Reader β} :
    Breaks (discard (consume kind m) >>= f) [] m (t :: rest) := by
  rw [run_discard]
  exact (consume_breaks hkind ht m).bind

/-- A token that no expression begins with stops the readers of expressions. -/
theorem expression_breaks (ht : t.kind ∉ exprStarts .expression) :
    Breaks (expressionWithin b) [] (.expected .expression) (t :: rest) := by
  cases b with
  | zero => exact .refl _ _
  | succ b =>
      have hprimary : Breaks (primary (expressionWithin b)) [] (.expected .expression)
          (t :: rest) := primary_fails fun h => ht (primaryStarts_subset _ h)
      -- no level starts by itself, so all of them stand where the innermost one breaks off
      have hunary : Breaks (unary (expressionWithin b) (b + 1)) [] (.expected .expression)
          (t :: rest) := by
        have hno : t.kind ∉ [Kind.bang, .minus] := fun h =>
          ht (List.mem_append_left primaryStarts h)
        exact .look (.accept_no (by decide) hno) hprimary.bind
      exact hunary.bind.bind.bind.bind.bind.bind.bind

end

/-! ## Statements without their semicolon -/

section

variable {b : Nat} {q : Rule} {isOpen : Bool} {t : Token} {ts : List Token}

/-- A declaration breaks off where its semicolon is missing. -/
theorem varDeclaration_breaks {v : Token} (h : Unended .varDecl isOpen (v :: ts))
    (hb : ts.length ≤ b) (ht : Apart isOpen t) (rest : List Token) :
    Breaks (varDeclaration (expressionWithin b)) ts (.expected .semicolonAfterVariable)
      (t :: rest) := by
  have hsemicolon : t.kind ≠ .semicolon := ht.ne (by decide)
  cases h with
  | bare _ hn =>
      refine .pass (.consume (by decide) hn) ?_
      refine .look (.bind (ifAfter_no (by decide) (ht.ne (by decide)))) ?_
      exact discard_consume_breaks (by decide) hsemicolon _
  | @initialized _ n q ts e _ hn hq he =>
      refine .pass (.consume (by decide) hn) ?_
      have hlength : ts.length ≤ b := by simp at hb; omega
      have hread : Yields (expressionWithin b) ts e (t :: rest) :=
        expression_yields he hlength ht.loose
      refine .settle (.bind (.pass (ifAfter_yes (by decide) hq) hread)) ?_
      exact discard_consume_breaks (by decide) hsemicolon _

/-- So does an expression statement ... -/
theorem expressionStatement_breaks (h : Unended .exprStmt isOpen ts) (hb : ts.length ≤ b)
    (ht : Apart isOpen t) (rest : List Token) :
    Breaks (expressionStatement (expressionWithin b)) ts (.expected .semicolonAfterExpression)
      (t :: rest) := by
  cases h with
  | expression he =>
      refine .settle (.bind (expression_yields he hb ht.loose)) ?_
      exact discard_consume_breaks (by decide) (ht.ne (by decide)) _

/-- ... and a `print` statement. -/
theorem printStatement_breaks {p : Token} (h : Unended .printStmt isOpen (p :: ts))
    (hb : ts.length ≤ b) (ht : Apart isOpen t) (rest : List Token) :
    Breaks (printStatement (expressionWithin b)) ts (.expected .semicolonAfterValue)
      (t :: rest) := by
  cases h with
  | print _ he =>
      refine .settle (.bind (expression_yields he hb ht.loose)) ?_
      exact discard_consume_breaks (by decide) (ht.ne (by decide)) _

/-- Either of them breaks off when it is read as a statement. -/
theorem statementWithin_breaks (h : Unended q isOpen ts) (hq : q = .exprStmt ∨ q = .printStmt)
    (ht : Apart isOpen t) (rest : List Token) :
    ∃ m, ∀ b, ts.length ≤ b → Breaks (statementWithin b) ts m (t :: rest) := by
  rcases hq with rfl | rfl
  · refine ⟨.expected .semicolonAfterExpression, fun b hb => ?_⟩
    cases h with
    | expression he =>
        obtain ⟨u, us, rfl, hu⟩ := he.first
        obtain ⟨b, rfl⟩ : ∃ n, b = n + 1 := ⟨b - 1, by simp at hb; omega⟩
        exact .look (expression_leads hu) (expressionStatement_breaks (.expression he) hb ht rest)
  · refine ⟨.expected .semicolonAfterValue, fun b hb => ?_⟩
    cases h with
    | print hp he =>
        rw [List.length_cons] at hb
        obtain ⟨b, rfl⟩ : ∃ n, b = n + 1 := ⟨b - 1, by omega⟩
        exact .pass (print_leads hp) (printStatement_breaks (.print hp he) (by omega) ht rest)

/-- The declaration breaks off when it is read as one. -/
theorem unguarded_breaks (h : Unended .varDecl isOpen ts) (ht : Apart isOpen t)
    (rest : List Token) :
    ∃ m, ∀ b statement, ts.length ≤ b →
      Breaks (unguarded (expressionWithin b) statement) ts m (t :: rest) := by
  refine ⟨.expected .semicolonAfterVariable, fun b statement hb => ?_⟩
  obtain ⟨v, us, rfl, hv⟩ := h.first_var
  exact .pass (.accept_yes (by decide) (by simp [hv]))
    (varDeclaration_breaks h (Nat.le_of_succ_le hb) ht rest)

/-- The initializer of a loop breaks off in the same way. -/
theorem forInitializer_breaks (h : Unended q isOpen ts) (hq : q = .varDecl ∨ q = .exprStmt)
    (ht : Apart isOpen t) (rest : List Token) :
    ∃ m, ∀ b, ts.length ≤ b → Breaks (forInitializer (expressionWithin b)) ts m (t :: rest) := by
  rcases hq with rfl | rfl
  · refine ⟨.expected .semicolonAfterVariable, fun b hb => ?_⟩
    obtain ⟨v, us, rfl, hv⟩ := h.first_var
    refine .look (.accept_no (by decide) (by simp [hv])) ?_
    exact .pass (.accept_yes (by decide) (by simp [hv]))
      (varDeclaration_breaks h (Nat.le_of_succ_le hb) ht rest)
  · refine ⟨.expected .semicolonAfterExpression, fun b hb => ?_⟩
    cases h with
    | expression he =>
        obtain ⟨u, us, rfl, hu⟩ := he.first
        have hsemicolon : u.kind ≠ .semicolon := not_first hu (by decide)
        have hvar : u.kind ≠ .kwVar := not_first hu (by decide)
        refine .look (.accept_no (by decide) (by simpa using hsemicolon)) ?_
        refine .look (.accept_no (by decide) (by simpa using hvar)) ?_
        exact expressionStatement_breaks (.expression he) hb ht rest

end

/-! ## Statements around one that is stopped -/

section

variable {f l r t : Token} {is ns ts rest : List Token} {m : Complaint}

/-- In a loop whose initializer is stopped. -/
theorem for_breaks (hf : f.kind = .kwFor) (hl : l.kind = .leftParen)
    (his : ∀ b, is.length ≤ b → Breaks (forInitializer (expressionWithin b)) is m (t :: rest))
    {b : Nat} (hb : (f :: l :: is).length ≤ b) :
    Breaks (statementWithin b) (f :: l :: is) m (t :: rest) := by
  simp only [List.length_cons] at hb
  obtain ⟨b, rfl⟩ : ∃ n, b = n + 1 := ⟨b - 1, by omega⟩
  refine .pass (for_leads hf) (.pass (.discard_consume (by decide) hl) ?_)
  exact (his (b + 1) (by omega)).bind

/-- In a loop that has a single semicolon: the increment is read as the condition, and there is
no semicolon behind it. -/
theorem for_breaks_header {i n : Node} (hf : f.kind = .kwFor) (hl : l.kind = .leftParen)
    (his : Initializer is i) (hns : Maybe ns n) (hr : r.kind = .rightParen) :
    ∃ m, ∀ b, (f :: l :: (is ++ ns)).length ≤ b →
      Breaks (statementWithin b) (f :: l :: (is ++ ns)) m (r :: rest) := by
  have hsemicolon : r.kind ≠ .semicolon := by rw [hr]; decide
  -- the condition took the place of the initializer, so the step is read as the condition
  have hcondition : ∃ m, ∀ b, ns.length ≤ b → ∀ k : Node → Reader Node,
      Breaks (unlessAt .semicolon (expressionWithin b) >>= fun c =>
        discard (consume .semicolon (.expected .semicolonAfterLoopCondition)) >>= fun _ => k c)
        ns m (r :: rest) := by
    cases hns with
    | absent =>
        refine ⟨.expected .expression, fun b _ k => Breaks.bind ?_⟩
        exact .look (.check_no (by decide) hsemicolon) (expression_breaks (by rw [hr]; decide))
    | present hn =>
        refine ⟨.expected .semicolonAfterLoopCondition, fun b hb k => ?_⟩
        obtain ⟨u, us, rfl, hu⟩ := hn.first
        have hread : Yields (expressionWithin b) (u :: us) n (r :: rest) :=
          expression_yields hn hb (by rw [hr]; decide)
        have hfirst : u.kind ≠ .semicolon := not_first hu (by decide)
        refine .settle (.bind (.look (.check_no (by decide) hfirst) hread)) ?_
        exact discard_consume_breaks (by decide) hsemicolon _
  rcases hcondition with ⟨m, hcondition⟩
  refine ⟨m, fun b hb => ?_⟩
  simp only [List.length_cons, List.length_append] at hb
  obtain ⟨b, rfl⟩ : ∃ n, b = n + 1 := ⟨b - 1, by omega⟩
  refine .pass (for_leads hf) (.pass (.discard_consume (by decide) hl) ?_)
  exact .trans (.bind (forInitializer_yields his (by omega))) (hcondition _ (by omega) _)

/-- Where a statement is stopped, those that it stands in are. -/
theorem setting_breaks {hole d : Bool} {pre post : List Token} (h : Setting hole d pre post)
    (hts : ∀ b, ts.length ≤ b → Breaks (statementWithin b) ts m rest) {b : Nat}
    (hb : (pre ++ ts).length ≤ b) : Breaks (statementWithin b) (pre ++ ts) m rest := by
  rw [List.length_append] at hb
  rcases setting_reaches h (show pre.length ≤ b by omega) with ⟨next, b', -, hle, hleads⟩
  exact .trans (hleads _) (hts b' (by omega)).bind

end

/-! ## What comes of a missing semicolon -/

/-- A declaration is aborted behind some tokens, at the next one. -/
def Aborted (ts : List Token) (m : Complaint) (rest : List Token) : Prop :=
  ∀ b b', ts.length ≤ b → ts.length ≤ b' →
    Breaks (unguarded (expressionWithin b) (statementWithin b')) ts m rest

/-- Where a statement is stopped, the declaration that it stands in is aborted. -/
theorem Aborted.of_setting {hole d : Bool} {pre post ts us rest : List Token} {t : Token}
    {m : Complaint} (h : Setting hole d pre post) (hts : ts = t :: us)
    (ht : t.kind ∈ stmtStarts .statement)
    (hbreaks : ∀ b, ts.length ≤ b → Breaks (statementWithin b) ts m rest) :
    Aborted (pre ++ ts) m rest := by
  intro b b' _ hb'
  obtain ⟨u, more, heq, hu⟩ := h.first ht us rest
  have hvar : u.kind ≠ .kwVar := fun h => absurd (h ▸ hu) (by decide)
  have hstatement : Leads (unguarded (expressionWithin b) (statementWithin b')) []
      (statementWithin b') (pre ++ ts ++ rest) := by
    rw [hts, heq]
    exact unguarded_statement hvar
  exact .look hstatement (setting_breaks h hbreaks hb')

section

variable {xs ys : List Token} {s stop : Token}

/-- Without its semicolon, a declaration runs on into the next statement or breaks off. -/
theorem varDecl_missing {ts : List Token} {n : Node} (h : Simple .varDecl (ts ++ [s]) n)
    (haround : Around xs ys) (hstop : stop.kind = .eof) :
    (∃ ss, Program (xs ++ (ts ++ ys)) ss) ∨
      ∃ t rest m, ys ++ [stop] = t :: rest ∧ Aborted ts m (t :: rest) := by
  rcases h.unended with ⟨-, isOpen, hunended⟩
  have hnone : ∀ t ∈ ([] : List Token).head?, t.kind = .kwElse := nofun
  rcases hunended.follow haround hstop hnone with
    ⟨-, fs, s, ys', n, rfl, haround', hn⟩ | ⟨t, rest, heq, ht⟩
  · rcases haround'.fill (.varDecl hn) with ⟨ss, hss⟩
    exact .inl ⟨ss, by simpa using hss⟩
  · rcases unguarded_breaks hunended ht rest with ⟨m, hm⟩
    exact .inr ⟨t, rest, m, heq, fun b b' hb _ => hm b _ hb⟩

/-- So does a statement, inside of any statement that holds it. -/
theorem statement_missing {q : Rule} {d : Bool} {pre post ts : List Token} {n : Node}
    (hq : q = .exprStmt ∨ q = .printStmt) (hsetting : Setting false d pre post)
    (h : Simple q (ts ++ [s]) n) (haround : Around xs ys) (hstop : stop.kind = .eof) :
    (∃ ss, Program (xs ++ (pre ++ (ts ++ (post ++ ys)))) ss) ∨
      ∃ t rest m, post ++ (ys ++ [stop]) = t :: rest ∧ Aborted (pre ++ ts) m (t :: rest) := by
  rcases h.unended with ⟨-, isOpen, hunended⟩
  rcases hunended.follow haround hstop hsetting.head_else with
    ⟨rfl, fs, s, ys', n, rfl, haround', hn⟩ | ⟨t, rest, heq, ht⟩
  · rcases hsetting.fill (hn.statement hq) with ⟨n', hn'⟩
    rcases haround'.fill (.statement hn') with ⟨ss, hss⟩
    exact .inl ⟨ss, by simpa using hss⟩
  · rcases statementWithin_breaks hunended hq ht rest with ⟨m, hm⟩
    obtain ⟨u, us, heq', hu⟩ := hunended.first hq
    exact .inr ⟨t, rest, m, heq, .of_setting hsetting heq' hu hm⟩

/-- A loop without its first semicolon has but one: if the first clause does not go on with the
condition, the loop is aborted at that, and otherwise at the closing parenthesis. -/
theorem initializer_missing {q : Rule} {d d' : Bool} {f l s' r : Token}
    {pre post is cs ns : List Token} {i c n : Node} (hsetting : Setting d d' pre post)
    (hf : f.kind = .kwFor) (hl : l.kind = .leftParen) (hq : q = .varDecl ∨ q = .exprStmt)
    (hi : Simple q (is ++ [s]) i) (hc : Maybe cs c) (hs : s'.kind = .semicolon) (hn : Maybe ns n)
    (hr : r.kind = .rightParen) (rest : List Token) :
    ∃ ws t more m, cs ++ s' :: (ns ++ r :: rest) = ws ++ t :: more ∧
      Aborted (pre ++ f :: l :: (is ++ ws)) m (t :: more) := by
  have hfor : f.kind ∈ stmtStarts .statement := by simp [stmtStarts, hf]
  rcases hi.unended with ⟨-, isOpen, hunended⟩
  have hheader : ∀ {n'}, Simple q (is ++ cs ++ [s']) n' → ∃ m,
      Aborted (pre ++ f :: l :: (is ++ (cs ++ s' :: ns))) m (r :: rest) := by
    intro n' hsimple
    rcases for_breaks_header hf hl (hsimple.initializer hq) hn hr with ⟨m, hm⟩
    refine ⟨m, .of_setting hsetting rfl hfor ?_⟩
    simpa using hm
  cases hc with
  | absent =>
      rcases hunended.close hs with ⟨n', hsimple⟩
      rcases hheader (by simpa using hsimple) with ⟨m, hm⟩
      exact ⟨s' :: ns, r, rest, m, rfl, hm⟩
  | present hc =>
      obtain ⟨u, us, rfl, hu⟩ := hc.first
      -- the condition continues the initializer, or the initializer breaks off in front of it
      rcases Apart.or_sign (exprStarts_next hu) isOpen with ⟨rfl, hkind⟩ | hapart
      · rcases hunended.extend (hc.juxtaposed (by decide) hkind) hs with ⟨n', hsimple⟩
        rcases hheader hsimple with ⟨m, hm⟩
        exact ⟨u :: us ++ s' :: ns, r, rest, m, by simp, hm⟩
      · rcases forInitializer_breaks hunended hq hapart (us ++ s' :: (ns ++ r :: rest)) with
          ⟨m, hm⟩
        refine ⟨[], u, _, m, rfl, .of_setting hsetting rfl hfor fun b hb => ?_⟩
        rw [List.append_nil] at hb ⊢
        exact for_breaks hf hl hm hb

/-- Without a semicolon that ends a statement the tokens are a program still, or the declaration
that it stood in is aborted. -/
theorem runs_on_or_aborted {ts us : List Token} (h : Ended ts s us) (haround : Around xs ys)
    (hstop : stop.kind = .eof) :
    (∃ ss, Program (xs ++ (ts ++ (us ++ ys))) ss) ∨
      ∃ ws t rest m, ts ++ (us ++ (ys ++ [stop])) = ws ++ t :: rest ∧ Aborted ws m (t :: rest) := by
  cases h with
  | varDecl h =>
      rcases varDecl_missing h haround hstop with hall | ⟨t, rest, m, heq, hm⟩
      · exact .inl hall
      · exact .inr ⟨_, t, rest, m, by rw [← heq]; rfl, hm⟩
  | exprStmt hsetting h =>
      rcases statement_missing (.inl rfl) hsetting h haround hstop with hall | ⟨t, rest, m, heq, hm⟩
      · exact .inl (by simpa using hall)
      · exact .inr ⟨_, t, rest, m, by rw [heq], hm⟩
  | printStmt hsetting h =>
      rcases statement_missing (.inr rfl) hsetting h haround hstop with hall | ⟨t, rest, m, heq, hm⟩
      · exact .inl (by simpa using hall)
      · exact .inr ⟨_, t, rest, m, by rw [heq], hm⟩
  | @initializer _ _ _ f l _ s' r pre post is cs ns bs _ _ _ _ hsetting hf hl hq hi hc hs hn hr _ =>
      rcases initializer_missing hsetting hf hl hq hi hc hs hn hr
        (bs ++ (post ++ (ys ++ [stop]))) with ⟨ws, t, rest, m, heq, hm⟩
      exact .inr ⟨_, t, rest, m, by simpa using heq, hm⟩

end

end Descent

end NovaLang
