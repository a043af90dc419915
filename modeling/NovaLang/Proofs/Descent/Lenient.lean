import NovaLang.Proofs.Descent.Admission

namespace NovaLang.Descent

open Ebnf Phrase

/-! # Relaxed programs abort nothing

Every statement of the relaxed grammar is admitted, and every program is. Where the grammar
leaves open which `if` an `else` belongs to, a statement that dangles goes on with the `else`
as a statement, and it is that longer statement which is admitted.
-/

/-! ## Statements -/

section

variable {b : Nat} {t : Token} {ts rest : List Token}

/-- An expression is admitted in front of a token that no expression goes on with. -/
theorem expression_admits (h : Relaxed .expression ts) (hb : ts.length ≤ b)
    (ht : 7 < looseness t.kind) : Admits (expressionWithin b) ts (t :: rest) :=
  relaxed_admitted h b _ hb ⟨t, rest, rfl, ht⟩

/-- A clause of a loop is admitted in front of the token that ends it, and may be missing. -/
theorem unlessAt_admits {k : Kind} (hk : k = .semicolon ∨ k = .rightParen)
    (h : (optional Rule.expression).Holds Relaxed ts) (hb : ts.length ≤ b) (ht : t.kind = k) :
    Admits (unlessAt k (expressionWithin b)) ts (t :: rest) := by
  have heof : k ≠ .eof := by rcases hk with rfl | rfl <;> decide
  rcases h with rfl | he
  · exact .look (.check_yes heof ht) (.pure _)
  · have hloose : 7 < looseness t.kind := by rw [ht]; rcases hk with rfl | rfl <;> decide
    -- an expression does not begin with the token that ends the clause
    rcases Relaxed.first he with ⟨u, us, rfl, hu⟩
    have hno : u.kind ≠ k := not_first hu (by rcases hk with rfl | rfl <;> decide)
    exact .look (.check_no heof hno) (expression_admits he hb hloose)

/-- Behind its keyword a declaration is admitted whatever follows its semicolon. -/
theorem varDeclaration_admits {v : Token} (h : Relaxed .varDecl (v :: ts)) (hb : ts.length ≤ b) :
    Admits (varDeclaration (expressionWithin b)) ts rest := by
  have h := h.body_holds
  simp only [Rule.relaxed, Rule.body, holds_sequence_token, holds_sequence_cons (e := optional _),
    holds_sequence_single, holds_token, holds_optional] at h
  rcases h with ⟨_, _, heq, -, n, _, rfl, hn, xs, _, rfl, hxs, s, rfl, hs⟩
  rcases List.cons.inj heq with ⟨rfl, rfl⟩
  refine .consume (by decide) hn (.bind ?_ fun value => .discard_consume (by decide) hs (.pure _))
  -- without a value the semicolon comes at once
  rcases hxs with rfl | ⟨q, ys, rfl, hq, hys⟩
  · exact .of_yields (ifAfter_no (by decide) (by rw [hs]; decide))
  · simp only [List.length_cons, List.length_append] at hb
    exact .pass (ifAfter_yes (by decide) hq) (expression_admits hys (by omega) (by rw [hs]; decide))

theorem expressionStatement_admits (h : Relaxed .exprStmt ts) (hb : ts.length ≤ b) :
    Admits (expressionStatement (expressionWithin b)) ts rest := by
  rcases h.body_holds with ⟨xs, _, rfl, hxs, h⟩
  rcases holds_sequence_single.mp h with ⟨s, rfl, hs⟩
  rw [List.length_append] at hb
  refine .bind (expression_admits hxs (by omega) (by rw [hs]; decide)) fun e => ?_
  exact .discard_consume (by decide) hs (.pure _)

theorem printStatement_admits {p : Token} (h : Relaxed .printStmt (p :: ts)) (hb : ts.length ≤ b) :
    Admits (printStatement (expressionWithin b)) ts rest := by
  have h := h.body_holds
  simp only [Rule.relaxed, Rule.body, holds_sequence_token, holds_sequence_cons (e := .rule _),
    holds_sequence_single, holds_token, holds_rule] at h
  rcases h with ⟨_, _, heq, -, xs, _, rfl, hxs, s, rfl, hs⟩
  rcases List.cons.inj heq with ⟨rfl, rfl⟩
  rw [List.length_append] at hb
  refine .bind (expression_admits hxs (by omega) (by rw [hs]; decide)) fun e => ?_
  exact .discard_consume (by decide) hs (.pure _)

/-- What a loop begins with is admitted by its first token. -/
theorem forInitializer_admits
    (h : (oneOf [Rule.varDecl, Rule.exprStmt, Kind.semicolon]).Holds Relaxed ts)
    (hb : ts.length ≤ b) : Admits (forInitializer (expressionWithin b)) ts rest := by
  rcases h with h | h | ⟨s, rfl, hs⟩ | h
  · rcases Relaxed.first h with ⟨v, us, rfl, hv⟩
    have hvar := List.mem_singleton.mp hv
    refine .look (.accept_no (by decide) (by simp [hvar])) ?_
    exact .pass (.accept_yes (by decide) hv) (varDeclaration_admits h (Nat.le_of_succ_le hb))
  · rcases Relaxed.first h with ⟨t, us, rfl, ht⟩
    have hsemicolon : t.kind ≠ .semicolon := not_first ht (by decide)
    have hvar : t.kind ≠ .kwVar := not_first ht (by decide)
    refine .look (.accept_no (by decide) (by simpa using hsemicolon)) ?_
    refine .look (.accept_no (by decide) (by simpa using hvar)) ?_
    exact expressionStatement_admits h hb
  · exact .pass (.accept_yes (by decide) (List.mem_singleton.mpr hs)) (.pure _)
  · exact h.elim

end

/-! ## Declarations -/

section

variable {declaration : Reader (Option Node)} {t : Token} {rest : List Token}
  {parts : List (List Token)}

/-- A declaration that is admitted in front of everything but an `else`. -/
structure AdmittedPart (declaration : Reader (Option Node)) (part : List Token) : Prop where
  first : BeginsIn (Relaxed.starts .declaration) part
  admits : ∀ t rest, t.kind ≠ .kwElse → Admits declaration part (t :: rest)

/-- No `else` follows a declaration: what follows is another one, or the end of them. -/
theorem parts_follow (hparts : ∀ part ∈ parts, AdmittedPart declaration part)
    (ht : t.kind ≠ .kwElse) (rest : List Token) :
    ∃ u more, parts.flatten ++ t :: rest = u :: more ∧ u.kind ≠ .kwElse := by
  cases parts with
  | nil => exact ⟨t, rest, rfl, ht⟩
  | cons part parts =>
      rcases (hparts part List.mem_cons_self).first with ⟨u, us, rfl, hu⟩
      refine ⟨u, _, rfl, fun helse => ?_⟩
      rw [helse] at hu
      exact absurd hu (by decide)

/-- Declarations are admitted one after another. -/
theorem parts_admits {r : Nat → Reader (List Node)} (ht : t.kind ≠ .kwElse)
    (hend : ∀ count, Admits (r count) [] (t :: rest))
    (hmore : ∀ count u us, u.kind ∈ Relaxed.starts .declaration →
      Leads (r (count + 1)) [] (declaration >>= fun first => r count >>= fun more =>
        pure (first.toList ++ more)) (u :: us))
    (hparts : ∀ part ∈ parts, AdmittedPart declaration part) :
    ∀ count, parts.flatten.length ≤ count → Admits (r count) parts.flatten (t :: rest) := by
  induction parts with
  | nil => exact fun count _ => hend count
  | cons part parts ih =>
      intro count hcount
      rcases List.forall_mem_cons.mp hparts with ⟨hpart, hafter⟩
      rcases hpart.first with ⟨u, us, rfl, hu⟩
      simp only [List.flatten_cons, List.length_append, List.length_cons] at hcount
      obtain ⟨count, rfl⟩ : ∃ n, count = n + 1 := ⟨count - 1, by omega⟩
      -- what follows the first declaration is no `else`, so the declaration ends there
      rcases parts_follow hafter ht rest with ⟨v, more, heq, hv⟩
      have hfirst := hpart.admits v more hv
      rw [← heq] at hfirst
      refine .look (hmore count u _ hu) (.bind hfirst fun first => ?_)
      exact .last (ih hafter count (by omega)) fun more => .pure _

/-- A token that begins a declaration is of none of the other kinds. -/
theorem not_start {k : Kind} {u : Token} (hu : u.kind ∈ Relaxed.starts .declaration)
    (hk : k ∉ Relaxed.starts .declaration) : u.kind ≠ k :=
  fun h => hk (h ▸ hu)

/-- Declarations are admitted in front of the brace that closes their block. -/
theorem declarationsToBrace_admits (ht : t.kind = .rightBrace)
    (hparts : ∀ part ∈ parts, AdmittedPart declaration part) {count : Nat}
    (hcount : parts.flatten.length ≤ count) :
    Admits (declarationsToBrace declaration count) parts.flatten (t :: rest) := by
  refine parts_admits (by rw [ht]; decide) (fun count => ?_) (fun count u us hu => ?_) hparts count
    hcount
  · cases count with
    | zero => exact .look .discard_peek (.pure _)
    | succ count => exact .look (.check_yes (by decide) ht) (.pure _)
  · have heof : (u.kind == .eof) = false := beq_eq_false_iff_ne.mpr (not_start hu (by decide))
    refine .look (.check_no (by decide) (not_start hu (by decide))) (.look .isAtEnd ?_)
    simp only [heof]
    exact .refl _ _

/-- Declarations are admitted in front of the end. -/
theorem declarationsToEnd_admits (ht : t.kind = .eof)
    (hparts : ∀ part ∈ parts, AdmittedPart declaration part) {count : Nat}
    (hcount : parts.flatten.length ≤ count) :
    Admits (declarationsToEnd declaration count) parts.flatten (t :: rest) := by
  refine parts_admits (by rw [ht]; decide) (fun count => ?_) (fun count u us hu => ?_) hparts count
    hcount
  · cases count with
    | zero => exact .look .discard_peek (.pure _)
    | succ count =>
        refine .look .isAtEnd ?_
        simp only [ht]
        exact .pure _
  · have heof : (u.kind == .eof) = false := beq_eq_false_iff_ne.mpr (not_start hu (by decide))
    refine .look .isAtEnd ?_
    simp only [heof]
    exact .refl _ _

end

/-! ## Statements within statements -/

/-- A statement that is admitted, in front of an `else` only when it does not dangle. When it
does, it goes on with the `else`. -/
structure AdmittedStatement (dangling : Bool) (ts : List Token) : Prop where
  admits : ∀ b t rest, ts.length ≤ b → Settled dangling (t :: rest) →
    Admits (statementWithin b) ts (t :: rest)
  takes_else : dangling = true → ∀ o ys, o.kind = .kwElse → Relaxed .statement ys →
    Relaxed .statement (ts ++ o :: ys)

section

variable {d : Bool} {ts : List Token}

theorem exprStmt_admitted (h : Relaxed .exprStmt ts) : AdmittedStatement false ts := by
  refine ⟨fun b u rest hb _ => ?_, nofun⟩
  rcases h.first with ⟨t, us, rfl, ht⟩
  obtain ⟨b, rfl⟩ : ∃ n, b = n + 1 := ⟨b - 1, by rw [List.length_cons] at hb; omega⟩
  exact .look (expression_leads ht) (expressionStatement_admits h hb)

theorem printStmt_admitted (h : Relaxed .printStmt ts) : AdmittedStatement false ts := by
  refine ⟨fun b u rest hb _ => ?_, nofun⟩
  rcases h.first with ⟨p, us, rfl, hp⟩
  rw [List.length_cons] at hb
  obtain ⟨b, rfl⟩ : ∃ n, b = n + 1 := ⟨b - 1, by omega⟩
  exact .pass (print_leads (List.mem_singleton.mp hp)) (printStatement_admits h (by omega))

/-- A declaration is admitted if the statement that it may be is. -/
theorem declaration_admitted (h : Relaxed .declaration ts)
    (hstatement : Relaxed .statement ts → ∃ d, AdmittedStatement d ts) {b b' : Nat}
    (hb : ts.length ≤ b) (hb' : ts.length ≤ b') :
    AdmittedPart (declarationWith (expressionWithin b) (statementWithin b')) ts := by
  refine ⟨h.first, fun u rest hu => ?_⟩
  rcases h.body_holds with hvariable | h | h
  · rcases Relaxed.first hvariable with ⟨v, us, rfl, hv⟩
    refine .recovering (.pass (.accept_yes (by decide) hv) ?_)
    exact varDeclaration_admits hvariable (Nat.le_of_succ_le hb)
  · rcases hstatement h with ⟨d, hread⟩
    rcases Relaxed.first h with ⟨t, us, rfl, ht⟩
    -- a statement does not begin with the keyword of a declaration
    have hvar : t.kind ∉ [Kind.kwVar] := fun hv => by
      rw [List.mem_singleton.mp hv] at ht
      exact absurd ht (by decide)
    refine .recovering (.look (.accept_no (by decide) hvar) (hread.admits b' u rest hb' ?_))
    -- no `else` follows, so that it makes no difference whether the statement dangles
    exact fun _ => by simpa using hu
  · exact h.elim

/-- Nothing in a block dangles, since its brace follows. -/
theorem block_admitted {l r : Token} {parts : List (List Token)} (hl : l.kind = .leftBrace)
    (hparts : ∀ part ∈ parts, ∀ b b', part.length ≤ b → part.length ≤ b' →
      AdmittedPart (declarationWith (expressionWithin b) (statementWithin b')) part)
    (hr : r.kind = .rightBrace) : AdmittedStatement false (l :: (parts.flatten ++ [r])) := by
  refine ⟨fun b t rest hb _ => ?_, nofun⟩
  simp only [List.length_cons, List.length_append, List.length_nil] at hb
  obtain ⟨b, rfl⟩ : ∃ n, b = n + 1 := ⟨b - 1, by omega⟩
  refine .pass (block_leads hl) (.last ?_ fun ss => .pure _)
  refine .bind (declarationsToBrace_admits hr (fun part hpart => ?_) (by omega)) fun ss =>
    .discard_consume (by decide) hr (.pure _)
  -- what stands in a block is shorter than the block
  have hlength := length_le_flatten hpart
  exact hparts part hpart _ _ (by omega) (by omega)

end

/-! Loops and branches, which may dangle as what they end in does. -/

section

variable {d : Bool} {k l r o : Token} {cs ts es : List Token}

/-- A loop dangles if its body does. -/
theorem whileLoop_admitted (hk : k.kind = .kwWhile) (hl : l.kind = .leftParen)
    (hc : Relaxed .expression cs) (hr : r.kind = .rightParen) (ht : AdmittedStatement d ts) :
    AdmittedStatement d (k :: l :: (cs ++ r :: ts)) := by
  refine ⟨fun b u rest hb hsettled => ?_, fun hd o ys ho hys => ?_⟩
  · simp only [List.length_cons, List.length_append] at hb
    obtain ⟨b, rfl⟩ : ∃ n, b = n + 1 := ⟨b - 1, by omega⟩
    refine .pass (while_leads hk) (.discard_consume (by decide) hl ?_)
    refine .bind (expression_admits hc (by omega) (by rw [hr]; decide)) fun condition => ?_
    refine .discard_consume (by decide) hr (.last ?_ fun body => .pure _)
    exact ht.admits b u rest (by omega) hsettled
  · simpa using Relaxed.whileLoop hk hl hc hr (ht.takes_else hd o ys ho hys)

/-- A branch without an `else` dangles. -/
theorem branch_admitted (hk : k.kind = .kwIf) (hl : l.kind = .leftParen)
    (hc : Relaxed .expression cs) (hr : r.kind = .rightParen) (hts : Relaxed .statement ts)
    (ht : AdmittedStatement d ts) : AdmittedStatement true (k :: l :: (cs ++ r :: ts)) := by
  refine ⟨fun b u rest hb hsettled => ?_, fun _ o ys ho hys => ?_⟩
  · simp only [List.length_cons, List.length_append] at hb
    obtain ⟨b, rfl⟩ : ∃ n, b = n + 1 := ⟨b - 1, by omega⟩
    have hu : u.kind ≠ .kwElse := hsettled rfl u rfl
    refine .pass (if_leads hk) (.discard_consume (by decide) hl ?_)
    refine .bind (expression_admits hc (by omega) (by rw [hr]; decide)) fun condition => ?_
    refine .discard_consume (by decide) hr (.last ?_ fun thenBranch => ?_)
    · exact ht.admits b u rest (by omega) fun _ => hsettled rfl
    · exact .last (.of_yields (ifAfter_no (by decide) hu)) fun elseBranch => .pure _
  · -- whatever its branch does, the whole statement can take the `else` itself
    simpa using Relaxed.branch hk hl hc hr hts (.inr (holds_token_then ho (holds_last hys)))

/-- A branch with an `else` dangles if its second part does. -/
theorem branches_admitted (hk : k.kind = .kwIf) (hl : l.kind = .leftParen)
    (hc : Relaxed .expression cs) (hr : r.kind = .rightParen) (hts : Relaxed .statement ts)
    (ht : AdmittedStatement false ts) (ho : o.kind = .kwElse) (he : AdmittedStatement d es) :
    AdmittedStatement d (k :: l :: (cs ++ r :: (ts ++ o :: es))) := by
  refine ⟨fun b u rest hb hsettled => ?_, fun hd o' ys ho' hys => ?_⟩
  · simp only [List.length_cons, List.length_append] at hb
    obtain ⟨b, rfl⟩ : ∃ n, b = n + 1 := ⟨b - 1, by omega⟩
    refine .pass (if_leads hk) (.discard_consume (by decide) hl ?_)
    refine .bind (expression_admits hc (by omega) (by rw [hr]; decide)) fun condition => ?_
    refine .discard_consume (by decide) hr ?_
    -- the first branch does not dangle, so it is read to its end in front of the `else`
    refine .bind (ht.admits b o _ (by omega) (settled_false _)) fun thenBranch => ?_
    refine .last (.pass (ifAfter_yes (by decide) ho) ?_) fun elseBranch => .pure _
    exact he.admits b u rest (by omega) hsettled
  · have helse := he.takes_else hd o' ys ho' hys
    simpa using Relaxed.branch hk hl hc hr hts (.inr (holds_token_then ho (holds_last helse)))

variable {s : Token} {is ns : List Token}

/-- A loop with clauses dangles if its body does. -/
theorem forLoop_admitted (hk : k.kind = .kwFor) (hl : l.kind = .leftParen)
    (hi : (oneOf [Rule.varDecl, Rule.exprStmt, Kind.semicolon]).Holds Relaxed is)
    (hc : (optional Rule.expression).Holds Relaxed cs) (hs : s.kind = .semicolon)
    (hn : (optional Rule.expression).Holds Relaxed ns) (hr : r.kind = .rightParen)
    (ht : AdmittedStatement d ts) :
    AdmittedStatement d (k :: l :: (is ++ (cs ++ s :: (ns ++ r :: ts)))) := by
  refine ⟨fun b u rest hb hsettled => ?_, fun hd o ys ho hys => ?_⟩
  · simp only [List.length_cons, List.length_append] at hb
    obtain ⟨b, rfl⟩ : ∃ n, b = n + 1 := ⟨b - 1, by omega⟩
    refine .pass (for_leads hk) (.discard_consume (by decide) hl ?_)
    refine .bind (forInitializer_admits hi (by omega)) fun initializer => ?_
    refine .bind (unlessAt_admits (.inl rfl) hc (by omega) hs) fun condition => ?_
    refine .discard_consume (by decide) hs ?_
    refine .bind (unlessAt_admits (.inr rfl) hn (by omega) hr) fun increment => ?_
    refine .discard_consume (by decide) hr (.last ?_ fun body => .pure _)
    exact ht.admits b u rest (by omega) hsettled
  · simpa using Relaxed.forLoop hk hl hi hc hs hn hr (ht.takes_else hd o ys ho hys)

end

/-! The rules of statements, given that shorter statements are admitted. -/

section

variable {ts : List Token}
  (ih : ∀ us, us.length < ts.length → Relaxed .statement us → ∃ d, AdmittedStatement d us)

include ih

theorem forStmt_admitted (h : Relaxed .forStmt ts) : ∃ d, AdmittedStatement d ts := by
  have h := h.body_holds
  simp only [Rule.relaxed, Rule.body, holds_sequence_token, holds_sequence_cons (e := optional _),
    holds_sequence_cons (e := oneOf _), holds_sequence_single] at h
  rcases h with ⟨f, _, rfl, hf, l, _, rfl, hl, is, _, rfl, hi, cs, _, rfl, hc, s, _, rfl, hs,
    ns, _, rfl, hn, r, bs, rfl, hr, hbs⟩
  rcases ih bs (by simp; omega) hbs with ⟨d, hbody⟩
  exact ⟨d, forLoop_admitted hf hl hi hc hs hn hr hbody⟩

theorem whileStmt_admitted (h : Relaxed .whileStmt ts) : ∃ d, AdmittedStatement d ts := by
  have h := h.body_holds
  simp only [Rule.relaxed, Rule.body, holds_sequence_token, holds_sequence_cons (e := .rule _),
    holds_sequence_single] at h
  rcases h with ⟨w, _, rfl, hw, l, _, rfl, hl, cs, _, rfl, hc, r, bs, rfl, hr, hbs⟩
  rcases ih bs (by simp; omega) hbs with ⟨d, hbody⟩
  exact ⟨d, whileLoop_admitted hw hl hc hr hbody⟩

/-- The grammar leaves open which `if` an `else` belongs to; the reader gives it to the nearest
one. -/
theorem ifStmt_admitted (h : Relaxed .ifStmt ts) : ∃ d, AdmittedStatement d ts := by
  have h := h.body_holds
  simp only [Rule.relaxed, Rule.body, holds_sequence_token, holds_sequence_cons (e := .rule _),
    holds_sequence_single, holds_optional] at h
  rcases h with ⟨i, _, rfl, hi, l, _, rfl, hl, cs, _, rfl, hc, r, _, rfl, hr, ts, es, rfl, hts, he⟩
  rcases ih ts (by simp; omega) hts with ⟨d, ht⟩
  rcases he with rfl | ⟨o, es, rfl, ho, hes⟩
  · rw [List.append_nil]
    exact ⟨true, branch_admitted hi hl hc hr hts ht⟩
  cases d with
  | false =>
      rcases ih es (by simp; omega) hes with ⟨d, he⟩
      exact ⟨d, branches_admitted hi hl hc hr hts ht ho he⟩
  | true =>
      -- the `else` belongs to an `if` at the end of the first branch
      have hjoined := ht.takes_else rfl o es ho hes
      rcases ih (ts ++ o :: es) (by simp; omega) hjoined with ⟨d, hread⟩
      exact ⟨true, branch_admitted hi hl hc hr hjoined hread⟩

theorem blockStmt_admitted (h : Relaxed .block ts) : AdmittedStatement false ts := by
  have h := h.body_holds
  simp only [Rule.relaxed, Rule.body, holds_sequence_token, holds_sequence_cons (e := many _),
    holds_sequence_single, holds_token] at h
  rcases h with ⟨l, _, rfl, hl, _, _, rfl, ⟨parts, rfl, hparts⟩, r, rfl, hr⟩
  refine block_admitted hl (fun part hpart b b' => ?_) hr
  have hlength := length_le_flatten hpart
  refine declaration_admitted (hparts part hpart) (ih part ?_)
  simp only [List.length_cons, List.length_append]
  omega

end

/-- Every statement of the relaxed grammar is admitted. -/
theorem statement_admitted {ts : List Token} (h : Relaxed .statement ts) :
    ∃ d, AdmittedStatement d ts := by
  -- by the number of tokens: an `else` may make a longer statement of the part in front of it
  induction hn : ts.length using Nat.strongRecOn generalizing ts with
  | ind n ih =>
    subst hn
    have hshorter := fun us hus hrelaxed => @ih _ hus us hrelaxed rfl
    rcases h.body_holds with h | h | h | h | h | h | h
    · exact ⟨false, exprStmt_admitted h⟩
    · exact forStmt_admitted hshorter h
    · exact ifStmt_admitted hshorter h
    · exact ⟨false, printStmt_admitted h⟩
    · exact whileStmt_admitted hshorter h
    · exact ⟨false, blockStmt_admitted hshorter h⟩
    · exact h.elim

/-- Every program of the relaxed grammar is read to its end, and nothing in it is aborted. -/
theorem program_admitted {ts : List Token} (h : Relaxed .program ts) :
    ∃ front stop, ts = front ++ [stop] ∧ stop.kind = .eof ∧ ∀ b, front.length ≤ b →
      Admits (declarationsToEnd (declarationWithin b) b) front [stop] := by
  rcases h.body_holds with ⟨_, _, rfl, ⟨parts, rfl, hparts⟩, hstop⟩
  rcases holds_sequence_single.mp hstop with ⟨stop, rfl, hend⟩
  refine ⟨_, stop, rfl, hend, fun b hb => ?_⟩
  -- a bound for all tokens is a bound for each declaration
  refine declarationsToEnd_admits hend (fun part hpart => ?_) hb
  have hlength := length_le_flatten hpart
  exact declaration_admitted (hparts part hpart) statement_admitted (by omega) (by omega)

end NovaLang.Descent
