import NovaLang.Proofs.Phrase

namespace NovaLang.Phrase

open Ebnf

/-! # Phrases are what the grammar derives

Both directions between the grammar in its notation and the phrases with trees. A
tree turns into a derivation rule by rule. A derivation turns into a tree since the
phrases are closed under the rules: repetitions are folded, and an `else` that could
belong to several `if`s is given to the nearest one.
-/

/-- A rule derives the kinds of the tokens. -/
def Derived (r : Rule) (ts : List Token) : Prop := (Ebnf.rule r).Derives (Token.kinds ts)

/-- Arguments of a bounded number, in the notation. -/
def argumentsUpTo (n : Nat) : Ebnf :=
  sequence [Rule.expression, atMost (n - 1) (sequence [Kind.comma, Rule.expression])]

/-! ## From trees to derivations -/

/-- A repetition may be one longer. -/
theorem holds_many_snoc {said : Rule → List Token → Prop} {a p : Ebnf} {xs ys : List Token}
    (hxs : (sequence [a, many p]).Holds said xs) (hys : p.Holds said ys) :
    (sequence [a, many p]).Holds said (xs ++ ys) := by
  obtain ⟨first, parts, rfl, hfirst, hparts⟩ := holds_before_many.mp hxs
  refine holds_before_many.mpr ⟨first, parts ++ [ys], by simp, hfirst, ?_⟩
  intro part hpart
  rcases List.mem_append.mp hpart with hpart | hpart
  · exact hparts part hpart
  · rwa [List.mem_singleton.mp hpart]

/-- A single argument is within any limit. -/
theorem argumentsUpTo_first {ts : List Token} (h : Derived .expression ts) :
    (argumentsUpTo 1).Holds Derived ts :=
  holds_before_atMost.mpr ⟨ts, [], by simp, h, by simp, by simp⟩

/-- One more argument needs a limit that is one higher. -/
theorem argumentsUpTo_cons {n : Nat} {c : Token} {xs ys : List Token} (hn : 0 < n)
    (hxs : Derived .expression xs) (hc : c.kind = .comma)
    (hys : (argumentsUpTo n).Holds Derived ys) :
    (argumentsUpTo (n + 1)).Holds Derived (xs ++ c :: ys) := by
  obtain ⟨first, parts, rfl, hfirst, hlength, hparts⟩ := holds_before_atMost.mp hys
  refine holds_before_atMost.mpr
    ⟨xs, (c :: first) :: parts, by simp, hxs, by simp; omega, ?_⟩
  intro part hpart
  rcases List.mem_cons.mp hpart with rfl | hpart
  · exact holds_token_then hc (holds_last hfirst)
  · exact hparts part hpart

/-- A limit may be raised. -/
theorem argumentsUpTo_mono {m n : Nat} (hmn : m ≤ n) {ts : List Token}
    (h : (argumentsUpTo m).Holds Derived ts) : (argumentsUpTo n).Holds Derived ts := by
  obtain ⟨first, parts, rfl, hfirst, hlength, hparts⟩ := holds_before_atMost.mp h
  exact holds_before_atMost.mpr ⟨first, parts, rfl, hfirst, by omega, hparts⟩

/-- What is known of the tokens of an expression: those of arguments are derived within
the number of the arguments. -/
def Known : Rule → List Token → Node → Prop
  | .arguments, ts, e => ∀ as, e = .list as → 0 < as.length ∧ (argumentsUpTo as.length).Holds Derived ts
  | r, ts, _ => Derived r ts

/-- The tokens of an expression are derived. -/
theorem Expr.known {r : Rule} {ts : List Token} {e : Node} (h : Expr r ts e) : Known r ts e := by
  induction h with
  | @constant t v ht =>
      refine derives_of_body ?_
      simp only [Rule.body, holds_oneOf_cons, holds_token]
      revert ht
      simp only [Token.constant?]
      split <;> simp_all
  | name ht =>
      exact derives_of_body (by simp [Rule.body, holds_oneOf_cons, holds_token, ht])
  | @grouping l r ts e hl _ hr ih =>
      refine derives_of_body (.inr (.inr (.inr (.inr (.inr (.inl ?_))))))
      exact holds_token_then hl (holds_then ih (holds_last ⟨r, rfl, hr⟩))
  | @primary ts e _ ih =>
      exact derives_of_body (holds_before_many.mpr ⟨ts, [], by simp, ih, by simp⟩)
  | @callAlone l r ts f _ hl hr ih =>
      refine derives_of_body (holds_many_snoc (body_of_derives ih) ?_)
      exact holds_token_then hl (holds_without (holds_last ⟨r, rfl, hr⟩))
  | @callWith l r xs ys f as _ hl _ hlength hr ihf ihas =>
      have hys : Derived .arguments ys :=
        derives_of_body (argumentsUpTo_mono hlength (ihas as rfl).2)
      rw [List.append_assoc]
      refine derives_of_body (holds_many_snoc (body_of_derives ihf) ?_)
      exact holds_token_then hl (holds_then (.inr hys) (holds_last ⟨r, rfl, hr⟩))
  -- arguments are derived with their number as the limit, which is raised in the call
  | lastArgument _ ih =>
      rintro as ⟨⟩
      exact ⟨Nat.one_pos, argumentsUpTo_first ih⟩
  | argument _ hc _ iha ihas =>
      rintro as ⟨⟩
      obtain ⟨hpos, hys⟩ := ihas _ rfl
      exact ⟨Nat.succ_pos _, argumentsUpTo_cons hpos iha hc hys⟩
  | call _ ih => exact derives_of_body (.inr (.inl ih))
  | @unary o ts e ho _ ih =>
      have hop : (tokens [.bang, .minus]).Holds Derived [o] := holds_tokens.mpr ⟨o, rfl, ho⟩
      exact derives_of_body (.inl (holds_then hop (holds_last ih)))
  | @operand l ts e _ ih =>
      have hts : Derived l.operand ts := by cases l <;> exact ih
      exact derives_of_body (holds_before_many.mpr ⟨ts, [], by simp, hts, by simp⟩)
  | @operation l o xs ys a b _ ho _ iha ihb =>
      have hys : Derived l.operand ys := by cases l <;> exact ihb
      have hop : (tokens l.operators).Holds Derived [o] := holds_tokens.mpr ⟨o, rfl, ho⟩
      refine derives_of_body (holds_many_snoc (body_of_derives iha) ?_)
      exact holds_then hop (holds_last hys)
  | disjunction _ ih => exact derives_of_body (.inr (.inl ih))
  | @assignment n q ts e hn hq _ ih =>
      exact derives_of_body (.inl (holds_token_then hn (holds_token_then hq (holds_last ih))))
  | whole _ ih => exact derives_of_body ih

/-- Every expression that is read is derived, ... -/
theorem Expr.derived {ts : List Token} {e : Node} (h : Expr .expression ts e) :
    Derived .expression ts := h.known

/-- ... be it there or left out, ... -/
theorem Maybe.derived {ts : List Token} {e : Node} (h : Maybe ts e) :
    (optional Rule.expression).Holds Derived ts := by
  cases h with
  | absent => exact .inl rfl
  | present h => exact .inr h.derived

/-- ... and so are the simple statements ... -/
theorem Simple.derived {r : Rule} {ts : List Token} {s : Node} (h : Simple r ts s) :
    Derived r ts := by
  refine derives_of_body ?_
  cases h with
  | @bare v n s hv hn hs =>
      exact holds_token_then hv (holds_token_then hn
        (holds_without (holds_last ⟨s, rfl, hs⟩)))
  | @initialized v n q s ts e hv hn hq he hs =>
      have hvalue : (sequence [Kind.equal, Rule.expression]).Holds Derived (q :: ts) :=
        holds_token_then hq (holds_last he.derived)
      exact holds_token_then hv (holds_token_then hn
        (holds_then (.inr hvalue) (holds_last ⟨s, rfl, hs⟩)))
  | @expression s ts e he hs => exact holds_then he.derived (holds_last ⟨s, rfl, hs⟩)
  | @print p s ts e hp he hs =>
      exact holds_token_then hp (holds_then he.derived (holds_last ⟨s, rfl, hs⟩))

/-- ... and the initializers. -/
theorem Initializer.derived {ts : List Token} {s : Node} (h : Initializer ts s) :
    (oneOf [Rule.varDecl, Rule.exprStmt, Kind.semicolon]).Holds Derived ts := by
  cases h with
  | @absent s hs => exact .inr (.inr (.inl ⟨s, rfl, hs⟩))
  | varDecl h => exact .inl h.derived
  | exprStmt h => exact .inr (.inl h.derived)

/-- The expression in the notation that a part of a program belongs to. -/
def Part.ebnf : Part → Ebnf
  | .statement => .rule .statement
  | .declaration => .rule .declaration
  | .declarations => many Rule.declaration

/-- The tokens of a part of a program are derived. -/
theorem Stmt.derived {p : Part} {d : Bool} {ts : List Token} {s : Node} (h : Stmt p d ts s) :
    p.ebnf.Holds Derived ts := by
  induction h with
  | exprStmt h => exact derives_of_body (.inl h.derived)
  | printStmt h => exact derives_of_body (.inr (.inr (.inr (.inl h.derived))))
  -- the parts of a loop stand in the order of its rule
  | @forLoop d f l s r is cs ns bs i c n b hf hl hi hc hs hn hr _ ih =>
      have hrest : (sequence [optional Rule.expression, Kind.rightParen, Rule.statement]).Holds
          Derived (ns ++ r :: bs) :=
        holds_then hn.derived (holds_token_then hr (holds_last ih))
      have hfor : Derived .forStmt (f :: l :: (is ++ (cs ++ s :: (ns ++ r :: bs)))) :=
        derives_of_body (holds_token_then hf (holds_token_then hl (holds_then hi.derived
          (holds_then hc.derived (holds_token_then hs hrest)))))
      have hts : f :: l :: is ++ cs ++ s :: ns ++ r :: bs =
          f :: l :: (is ++ (cs ++ s :: (ns ++ r :: bs))) := by simp
      rw [hts]
      exact derives_of_body (.inr (.inl hfor))
  | @whileLoop d w l r cs bs c b hw hl hc hr _ ih =>
      have hwhile : Derived .whileStmt (w :: l :: cs ++ r :: bs) :=
        derives_of_body (holds_token_then hw (holds_token_then hl (holds_then hc.derived
          (holds_token_then hr (holds_last ih)))))
      exact derives_of_body (.inr (.inr (.inr (.inr (.inl hwhile)))))
  -- an `if` without `else` is one whose optional part is empty
  | @ifAlone d i l r cs ts c t hi hl hc hr _ ih =>
      have hrest : (sequence [Rule.statement, optional (sequence [Kind.kwElse, Rule.statement])]).Holds
          Derived (ts ++ []) := holds_then ih (holds_last (.inl rfl))
      rw [List.append_nil] at hrest
      have hif : Derived .ifStmt (i :: l :: cs ++ r :: ts) :=
        derives_of_body (holds_token_then hi (holds_token_then hl (holds_then hc.derived
          (holds_token_then hr hrest))))
      exact derives_of_body (.inr (.inr (.inl hif)))
  | @ifElse d i l r o cs ts es c t e hi hl hc hr _ ho _ iht ihe =>
      have helse : (sequence [Kind.kwElse, Rule.statement]).Holds Derived (o :: es) :=
        holds_token_then ho (holds_last ihe)
      have hrest : (sequence [Rule.statement, optional (sequence [Kind.kwElse, Rule.statement])]).Holds
          Derived (ts ++ o :: es) := holds_then iht (holds_last (.inr helse))
      have hif : Derived .ifStmt (i :: l :: (cs ++ r :: (ts ++ o :: es))) :=
        derives_of_body (holds_token_then hi (holds_token_then hl (holds_then hc.derived
          (holds_token_then hr hrest))))
      have hts : i :: l :: cs ++ r :: ts ++ o :: es = i :: l :: (cs ++ r :: (ts ++ o :: es)) := by
        simp
      rw [hts]
      exact derives_of_body (.inr (.inr (.inl hif)))
  | @block l r ts ss hl _ hr ih =>
      have hblock : Derived .block (l :: ts ++ [r]) :=
        derives_of_body (holds_token_then hl (holds_then ih (holds_last ⟨r, rfl, hr⟩)))
      exact derives_of_body (.inr (.inr (.inr (.inr (.inr (.inl hblock))))))
  | varDecl h => exact derives_of_body (.inl h.derived)
  | statement _ ih => exact derives_of_body (.inr (.inl ih))
  | none => exact ⟨[], rfl, by simp⟩
  | @cons d xs ys s ss _ _ ihs ihss =>
      obtain ⟨parts, rfl, hparts⟩ := ihss
      refine ⟨xs :: parts, rfl, ?_⟩
      intro part hpart
      rcases List.mem_cons.mp hpart with rfl | hpart
      · exact ihs
      · exact hparts part hpart

/-! ## From derivations to trees -/

/-- The tokens are a phrase of a rule, with some tree. -/
def Readable : Rule → List Token → Prop
  | .program, ts => ∃ front stop ss, ts = front ++ [stop] ∧ stop.kind = .eof ∧ Program front ss
  | .declaration, ts => ∃ d s, Stmt .declaration d ts s
  | .statement, ts | .forStmt, ts | .ifStmt, ts | .whileStmt, ts | .block, ts =>
    ∃ d s, Stmt .statement d ts s
  | .varDecl, ts => ∃ s, Simple .varDecl ts s
  | .exprStmt, ts => ∃ s, Simple .exprStmt ts s
  | .printStmt, ts => ∃ s, Simple .printStmt ts s
  | .arguments, ts => ∃ as, Expr .arguments ts (.list as) ∧ as.length ≤ maxArguments
  | r, ts => ∃ e, Expr r ts e

/-- Operators, each with its right operand, are folded to the left. -/
theorem Expr.operations {l : Level} {parts : List (List Token)}
    (hparts : ∀ part ∈ parts, ∃ o ys b, part = o :: ys ∧ o.kind ∈ l.operators ∧ Expr l.operand ys b)
    {xs : List Token} {a : Node} (ha : Expr (.level l) xs a) :
    ∃ e, Expr (.level l) (xs ++ parts.flatten) e := by
  induction parts generalizing xs a with
  | nil => exact ⟨a, by simpa using ha⟩
  | cons part parts ih =>
      -- what is on the left of an operator grows with each part
      obtain ⟨o, ys, b, rfl, ho, hb⟩ := hparts part List.mem_cons_self
      obtain ⟨e, he⟩ :=
        ih (fun p hp => hparts p (List.mem_cons_of_mem _ hp)) (.operation ha ho hb)
      exact ⟨e, by simpa using he⟩

/-- Calls, each of the result of the one before. -/
theorem Expr.calls {parts : List (List Token)}
    (hparts : ∀ part ∈ parts, ∃ l ys r, part = l :: ys ++ [r] ∧ l.kind = .leftParen ∧
      r.kind = .rightParen ∧ (ys = [] ∨ Readable .arguments ys))
    {xs : List Token} {f : Node} (hf : Expr .call xs f) :
    ∃ e, Expr .call (xs ++ parts.flatten) e := by
  induction parts generalizing xs f with
  | nil => exact ⟨f, by simpa using hf⟩
  | cons part parts ih =>
      have hmore := fun p hp => hparts p (List.mem_cons_of_mem _ hp)
      obtain ⟨l, ys, r, rfl, hl, hr, rfl | ⟨as, has, hlength⟩⟩ := hparts part List.mem_cons_self
      · obtain ⟨e, he⟩ := ih hmore (.callAlone hf hl hr)
        exact ⟨e, by simpa using he⟩
      · obtain ⟨e, he⟩ := ih hmore (.callWith hf hl has hlength hr)
        exact ⟨e, by simpa using he⟩

/-- An expression and more of them after commas. -/
theorem Expr.arguments {parts : List (List Token)}
    (hparts : ∀ part ∈ parts, ∃ c ys b, part = c :: ys ∧ c.kind = .comma ∧ Expr .expression ys b)
    {xs : List Token} {a : Node} (ha : Expr .expression xs a) :
    ∃ as, Expr .arguments (xs ++ parts.flatten) (.list as) ∧ as.length = parts.length + 1 := by
  induction parts generalizing xs a with
  | nil => exact ⟨[a], by simpa using Expr.lastArgument ha, rfl⟩
  | cons part parts ih =>
      obtain ⟨c, ys, b, rfl, hc, hb⟩ := hparts part List.mem_cons_self
      obtain ⟨as, has, hlength⟩ := ih (fun p hp => hparts p (List.mem_cons_of_mem _ hp)) hb
      exact ⟨a :: as, by simpa using Expr.argument ha hc has, by simp [hlength]⟩

/-- Declarations one after the other are read as a list. -/
theorem Stmt.declarations {parts : List (List Token)}
    (hparts : ∀ part ∈ parts, ∃ d s, Stmt .declaration d part s) :
    ∃ ss, Stmt .declarations false parts.flatten (.list ss) := by
  induction parts with
  | nil => exact ⟨[], .none⟩
  | cons part parts ih =>
      obtain ⟨d, s, hs⟩ := hparts part List.mem_cons_self
      obtain ⟨ss, hss⟩ := ih fun p hp => hparts p (List.mem_cons_of_mem _ hp)
      exact ⟨s :: ss, .cons hs hss⟩

/-- A statement after a closing parenthesis, and an `else` branch if there is one. -/
theorem Stmt.branches {i l r : Token} {cs ts : List Token} {c : Node} (hi : i.kind = .kwIf)
    (hl : l.kind = .leftParen) (hc : Expr .expression cs c) (hr : r.kind = .rightParen)
    (ht : ∃ d t, Stmt .statement d ts t) {es : List Token}
    (he : es = [] ∨ ∃ o us, es = o :: us ∧ o.kind = .kwElse ∧ ∃ d e, Stmt .statement d us e) :
    ∃ d s, Stmt .statement d (i :: l :: cs ++ r :: ts ++ es) s := by
  obtain ⟨d, t, ht⟩ := ht
  rcases he with rfl | ⟨o, us, rfl, ho, d', e, he⟩
  · exact ⟨_, _, by simpa using Stmt.ifAlone hi hl hc hr ht⟩
  · cases d with
    | false => exact ⟨_, _, by simpa using Stmt.ifElse hi hl hc hr ht ho he⟩
    | true =>
        -- the `else` belongs to an `if` at the end of the first branch
        obtain ⟨_, _, h⟩ := Stmt.take_else ht ho he
        exact ⟨_, _, by simpa using Stmt.ifAlone hi hl hc hr h⟩

/-- An expression that may be left out is read or left out. -/
theorem Maybe.of_holds {ts : List Token} (h : (optional Rule.expression).Holds Readable ts) :
    ∃ e, Maybe ts e := by
  rcases h with rfl | ⟨e, h⟩
  · exact ⟨_, .absent⟩
  · exact ⟨e, .present h⟩

/-! The phrases of expressions are closed under the rules, one rule at a time. -/

section

variable {ts : List Token}

/-- What follows an assignment's rule is read as one, ... -/
theorem readable_assignment (h : Rule.assignment.body.Holds Readable ts) :
    Readable .assignment ts := by
  rcases h with h | ⟨e, he⟩ | h
  · simp only [holds_sequence_token, holds_sequence_single] at h
    obtain ⟨n, _, rfl, hn, q, ts, rfl, hq, e, he⟩ := h
    exact ⟨_, .assignment hn hq he⟩
  · exact ⟨e, .disjunction he⟩
  · exact h.elim

/-- ... what follows that of a level is read on the level, ... -/
theorem readable_level (l : Level) (h : (Rule.level l).body.Holds Readable ts) :
    Readable (.level l) ts := by
  obtain ⟨first, parts, rfl, hfirst, hparts⟩ := holds_before_many.mp h
  have ⟨e, he⟩ : ∃ e, Expr l.operand first e := by cases l <;> exact hfirst
  refine Expr.operations (fun part hpart => ?_) (.operand he)
  obtain ⟨_, ys, rfl, hop, hys⟩ := hparts part hpart
  obtain ⟨o, rfl, ho⟩ := holds_tokens.mp hop
  have ⟨b, hb⟩ : ∃ b, Expr l.operand ys b := by
    have := holds_sequence_single.mp hys
    cases l <;> exact this
  exact ⟨o, ys, b, rfl, ho, hb⟩

/-- ... and so on for operators in front, ... -/
theorem readable_unary (h : Rule.unary.body.Holds Readable ts) : Readable .unary ts := by
  rcases h with ⟨_, ts, rfl, hop, hts⟩ | ⟨e, he⟩ | h
  · obtain ⟨o, rfl, ho⟩ := holds_tokens.mp hop
    obtain ⟨e, he⟩ := holds_sequence_single.mp hts
    exact ⟨_, .unary ho he⟩
  · exact ⟨e, .call he⟩
  · exact h.elim

/-- ... calls, whose parentheses are read from the left, ... -/
theorem readable_call (h : Rule.call.body.Holds Readable ts) : Readable .call ts := by
  obtain ⟨first, parts, rfl, ⟨f, hf⟩, hparts⟩ := holds_before_many.mp h
  refine Expr.calls (fun part hpart => ?_) (.primary hf)
  have hpart := hparts part hpart
  simp only [holds_sequence_token, holds_sequence_cons (e := optional _), holds_sequence_single,
    holds_token] at hpart
  obtain ⟨l, _, rfl, hl, ys, _, rfl, hys, r, rfl, hr⟩ := hpart
  exact ⟨l, ys, r, rfl, hl, hr, hys⟩

/-- ... arguments, of which there are no more than are allowed, ... -/
theorem readable_arguments (h : Rule.arguments.body.Holds Readable ts) :
    Readable .arguments ts := by
  obtain ⟨first, parts, rfl, ⟨a, ha⟩, hlength, hparts⟩ := holds_before_atMost.mp h
  -- each argument but the first has its comma in front
  have hafter : ∀ part ∈ parts, ∃ c ys b,
      part = c :: ys ∧ c.kind = .comma ∧ Expr .expression ys b := by
    intro part hpart
    have hpart := hparts part hpart
    simp only [holds_sequence_token, holds_sequence_single] at hpart
    obtain ⟨c, ys, rfl, hc, b, hb⟩ := hpart
    exact ⟨c, ys, b, rfl, hc, hb⟩
  obtain ⟨as, has, hcount⟩ := Expr.arguments hafter ha
  have hpositive : 0 < maxArguments := by decide
  exact ⟨as, has, by omega⟩

/-- ... and what stands by itself. -/
theorem readable_primary (h : Rule.primary.body.Holds Readable ts) : Readable .primary ts := by
  simp only [Rule.body, holds_oneOf_cons, holds_token, holds_sequence_token,
    holds_sequence_cons (e := .rule _), holds_sequence_single, holds_oneOf_nil, or_false] at h
  rcases h with ⟨t, rfl, ht⟩ | ⟨t, rfl, ht⟩ | ⟨t, rfl, ht⟩ | ⟨t, rfl, ht⟩ | ⟨t, rfl, ht⟩ |
    ⟨l, _, rfl, hl, ts, _, rfl, ⟨e, he⟩, r, rfl, hr⟩ | ⟨t, rfl, ht⟩
  -- the five kinds of constants come first
  iterate 5
    obtain ⟨v, hv⟩ := Token.exists_constant (t := t) (by simp [ht])
    exact ⟨_, .constant hv⟩
  · exact ⟨_, .grouping hl he hr⟩
  · exact ⟨_, .name ht⟩

end

/-- The phrases are closed under the rules. -/
theorem readable_of_body (r : Rule) (ts : List Token) (h : r.body.Holds Readable ts) :
    Readable r ts := by
  cases r with
  | program =>
      obtain ⟨_, _, rfl, ⟨parts, rfl, hparts⟩, h⟩ := h
      obtain ⟨stop, rfl, hstop⟩ := holds_sequence_single.mp h
      obtain ⟨ss, hss⟩ := Stmt.declarations hparts
      exact ⟨parts.flatten, stop, ss, rfl, hstop, hss⟩
  | declaration =>
      rcases h with ⟨s, hs⟩ | ⟨d, s, hs⟩ | h
      · exact ⟨_, s, .varDecl hs⟩
      · exact ⟨d, s, .statement hs⟩
      · exact h.elim
  | varDecl =>
      simp only [Rule.body, holds_sequence_token, holds_sequence_cons (e := optional _),
        holds_sequence_single, holds_token] at h
      obtain ⟨v, _, rfl, hv, n, _, rfl, hn, xs, _, rfl, hxs, s, rfl, hs⟩ := h
      rcases hxs with rfl | hxs
      · exact ⟨_, .bare hv hn hs⟩
      · simp only [holds_sequence_token, holds_sequence_single] at hxs
        obtain ⟨q, ts, rfl, hq, e, he⟩ := hxs
        exact ⟨_, .initialized hv hn hq he hs⟩
  | statement =>
      rcases h with ⟨s, hs⟩ | h | h | ⟨s, hs⟩ | h | h | h
      · exact ⟨_, s, .exprStmt hs⟩
      · exact h
      · exact h
      · exact ⟨_, s, .printStmt hs⟩
      · exact h
      · exact h
      · exact h.elim
  | exprStmt =>
      obtain ⟨ts, _, rfl, ⟨e, he⟩, h⟩ := h
      obtain ⟨s, rfl, hs⟩ := holds_sequence_single.mp h
      exact ⟨_, .expression he hs⟩
  | printStmt =>
      simp only [Rule.body, holds_sequence_token, holds_sequence_cons (e := .rule _),
        holds_sequence_single, holds_token] at h
      obtain ⟨p, _, rfl, hp, ts, _, rfl, ⟨e, he⟩, s, rfl, hs⟩ := h
      exact ⟨_, .print hp he hs⟩
  | forStmt =>
      simp only [Rule.body, holds_sequence_token, holds_sequence_cons (e := optional _),
        holds_sequence_cons (e := oneOf _), holds_sequence_single] at h
      obtain ⟨f, _, rfl, hf, l, _, rfl, hl, is, _, rfl, hi, cs, _, rfl, hc, s, _, rfl, hs,
        ns, _, rfl, hn, r, bs, rfl, hr, d, b, hb⟩ := h
      obtain ⟨c, hc⟩ := Maybe.of_holds hc
      obtain ⟨n, hn⟩ := Maybe.of_holds hn
      -- the initializer is one of three
      have ⟨i, hi⟩ : ∃ i, Initializer is i := by
        rcases hi with ⟨i, hi⟩ | ⟨i, hi⟩ | ⟨t, rfl, ht⟩ | h
        · exact ⟨i, .varDecl hi⟩
        · exact ⟨i, .exprStmt hi⟩
        · exact ⟨_, .absent ht⟩
        · exact h.elim
      exact ⟨d, _, by simpa using Stmt.forLoop hf hl hi hc hs hn hr hb⟩
  | whileStmt =>
      simp only [Rule.body, holds_sequence_token, holds_sequence_cons (e := .rule _),
        holds_sequence_single] at h
      obtain ⟨w, _, rfl, hw, l, _, rfl, hl, cs, _, rfl, ⟨c, hc⟩, r, bs, rfl, hr, d, b, hb⟩ := h
      exact ⟨d, _, .whileLoop hw hl hc hr hb⟩
  | ifStmt =>
      simp only [Rule.body, holds_sequence_token, holds_sequence_cons (e := .rule _),
        holds_sequence_single] at h
      obtain ⟨i, _, rfl, hi, l, _, rfl, hl, cs, _, rfl, ⟨c, hc⟩, r, _, rfl, hr, ts, es, rfl, ht, he⟩ := h
      simp only [holds_optional, holds_sequence_token, holds_sequence_single] at he
      have := Stmt.branches hi hl hc hr ht he
      simpa [Readable] using this
  | block =>
      simp only [Rule.body, holds_sequence_token, holds_sequence_cons (e := many _),
        holds_sequence_single, holds_token] at h
      obtain ⟨l, _, rfl, hl, _, _, rfl, ⟨parts, rfl, hparts⟩, r, rfl, hr⟩ := h
      obtain ⟨ss, hss⟩ := Stmt.declarations hparts
      exact ⟨_, _, .block hl hss hr⟩
  | expression =>
      obtain ⟨e, he⟩ := h
      exact ⟨e, .whole he⟩
  | assignment => exact readable_assignment h
  | level l => exact readable_level l h
  | unary => exact readable_unary h
  | call => exact readable_call h
  | arguments => exact readable_arguments h
  | primary => exact readable_primary h

/-- A program is derived exactly when it has a tree. -/
theorem derived_program_iff {tokens : List Token} {stop : Token} (hstop : stop.kind = .eof) :
    Derived .program (tokens ++ [stop]) ↔ ∃ program, Program tokens program := by
  constructor
  · intro h
    obtain ⟨front, last, ss, heq, _, hss⟩ := h.holds readable_of_body _ rfl
    obtain ⟨rfl, -⟩ := List.append_inj' heq rfl
    exact ⟨ss, hss⟩
  · rintro ⟨ss, hss⟩
    exact derives_of_body (holds_then hss.derived (holds_last ⟨stop, rfl, hstop⟩))

end NovaLang.Phrase
