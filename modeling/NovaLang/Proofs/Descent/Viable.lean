import NovaLang.Proofs.Descent.Course

namespace NovaLang.Descent

open Ebnf Kind

/-! # What has been read can be completed

Every reader of the descent reads its rule of the relaxed grammar: where it aborts a
statement, the tokens that it has passed can be completed to a phrase of the rule. The
bounds of the readers count tokens, so that none is used up before the tokens are.
-/

variable {b : Nat} {ts : List Token}

/-! ## Repetitions -/

/-- A part and a repetition are a repetition. -/
theorem many_more {e : Ebnf} {xs ys : List Token} (hxs : e.Holds Relaxed xs)
    (hys : (many e).Holds Relaxed ys) : (many e).Holds Relaxed (xs ++ ys) := by
  rcases hys with ⟨parts, rfl, hparts⟩
  exact ⟨xs :: parts, rfl, List.forall_mem_cons.mpr ⟨hxs, hparts⟩⟩

/-- A repetition whose parts begin with one of some tokens, of which one has been passed. -/
theorem many_after {first : Ebnf} {es : List Ebnf} {t : Token} (ht : first.Holds Relaxed [t])
    (h : (sequence [sequence es, many (sequence (first :: es))]).Holds Relaxed ts) :
    (many (sequence (first :: es))).Holds Relaxed (t :: ts) := by
  -- the token goes to the first part, whose rest the reader has read
  rcases h with ⟨xs, ys, rfl, hxs, hys⟩
  exact many_more (holds_then ht hxs) (holds_sequence_single.mp hys)

/-! ## Expressions -/

section

variable {inner : Reader Node} (hinner : Reads b inner Rule.expression)

include hinner

/-- A primary expression is tried kind by kind, so the token accepted is one of its own. -/
theorem primary_reads : Reads (b + 1) (primary inner) Rule.primary := by
  have halone : ∀ {kinds}, kinds ⊆ [number, string, kwTrue, kwFalse, kwNil, identifier] →
      ∀ (t : Token) ts, t.kind ∈ kinds → Ebnf.empty.Holds Relaxed ts →
        Rule.primary.relaxed.Holds Relaxed (t :: ts) := by
    rintro kinds hkinds t _ ht rfl
    have hkind := hkinds ht
    simp only [List.mem_cons, List.not_mem_nil, or_false] at hkind
    rcases hkind with hk | hk | hk | hk | hk | hk <;>
      simp [Rule.relaxed, Rule.body, holds_oneOf_cons, holds_token, hk]
  -- three constants and two kinds of tokens with a meaning of their own, one after the other
  refine .of_body (.accept (by decide) (.done _) (halone (by decide)) ?_)
  refine .accept (by decide) (.done _) (halone (by decide)) ?_
  refine .accept (by decide) (.done _) (halone (by decide)) ?_
  refine .accept_previous (by decide) (fun _ => .done _) (halone (by decide)) ?_
  refine .accept_previous (by decide) (fun _ => .done _) (halone (by decide)) ?_
  -- the parenthesis has been passed, so the expression inside has a smaller bound
  have hgroup : Reads b
      (inner >>= fun e => discard (consume .rightParen (.expected .parenAfterExpression)) >>=
        fun _ => pure (Node.grouping e)) (sequence [Rule.expression, rightParen]) :=
    hinner.andThen (fun e => .discard_consume (by decide) rfl (.done _) rfl) rfl
  refine .acceptToken (by decide) hgroup (fun ts hts => ?_) (.fail rfl (Relaxed.exists_phrase rfl))
  exact .inr (.inr (.inr (.inr (.inr (.inl hts)))))

omit hinner in
/-- Counting the arguments passes nothing, and a complaint about them does not stop the reader. -/
theorem limitArguments_reads {α : Type} {f : Unit → Reader α} {e : Ebnf} (seen : Nat)
    (h : Reads b (f ()) e) : Reads b (limitArguments seen >>= f) e := by
  rw [limitArguments]
  split
  · -- the complaint is made and reading goes on
    rw [bind_assoc]
    refine .peek (fun t => (h.complain (m := .tooManyArguments) rfl).grows) ?_
    exact fun t c rest hrest hc hlength => (h.complain rfl).course c hc hlength
  · exact h

/-- Each argument behind the first has a comma in front of it, which uses up one round. -/
theorem arguments_reads : ∀ count seen : Nat, count ≤ b →
    Reads count (arguments inner count seen) Rule.arguments := by
  intro count
  induction count with
  | zero =>
      intro seen _
      exact .of_nothing (Local.peek.discard (.pure [])).grows
  | succ count ih =>
      intro seen hcount
      refine .of_body (limitArguments_reads seen ((hinner.weaken hcount).andThen (fun a => ?_) rfl))
      have hmore : Reads count
          (arguments inner count (seen + 1) >>= fun as => pure (a :: as)) Rule.arguments :=
        (ih (seen + 1) (Nat.le_of_succ_le hcount)).last fun as => .done _
      refine .single (.accept (by decide) hmore (fun t ts ht hts => ?_) (.none _))
      -- the arguments behind a comma are its argument, and those behind further commas
      rcases hts.body_holds with ⟨xs, ys, rfl, hxs, hys⟩
      refine many_after ⟨t, rfl, List.mem_singleton.mp ht⟩ ⟨xs, ys, rfl, holds_last hxs, hys⟩

/-- Between the parentheses of a call stand arguments or nothing. -/
theorem finishCall_reads {count : Nat} (hcount : count ≤ b) (callee : Node) :
    Reads count (finishCall inner count callee)
      (sequence [optional Rule.arguments, rightParen]) := by
  have hsome := arguments_reads hinner count 0 hcount
  have hany : Reads count (argumentsIfAny inner count) (optional Rule.arguments) :=
    .check (by decide) (.absent _) (hsome.mono fun _ => Or.inr)
  exact hany.andThen (fun as => .consume (by decide) rfl (fun _ => .done _) rfl) rfl

/-- Each call has a parenthesis of its own, which uses up one round. -/
theorem foldCalls_reads : ∀ (count : Nat) (callee : Node), count ≤ b + 1 →
    Reads count (foldCalls inner count callee)
      (many (sequence [leftParen, optional Rule.arguments, rightParen])) := by
  intro count
  induction count with
  | zero =>
      intro callee _
      exact .of_nothing (Local.peek.discard (.pure callee)).grows
  | succ count ih =>
      intro callee hcount
      have hcount := Nat.le_of_succ_le_succ hcount
      -- the parentheses have been passed before the callee of the next call is built
      refine .accept (by decide) ((finishCall_reads hinner hcount callee).andThen
        (fun result => (ih result (Nat.le_succ_of_le hcount)).single) rfl) ?_ (.none _)
      exact fun t ts ht => many_after ⟨t, rfl, List.mem_singleton.mp ht⟩

/-- A call is read by its callee and by the calls that follow. -/
theorem call_reads {bound : Nat} (hbound : bound ≤ b + 1) :
    Reads bound (call inner bound) Rule.call := by
  refine .of_body (((primary_reads hinner).weaken hbound).andThen (fun callee => ?_) rfl)
  exact (foldCalls_reads hinner bound callee hbound).single

/-- Each prefix operator is a token, so that there is a bound left for its operand. -/
theorem unary_reads : ∀ bound ≤ b + 1, Reads bound (unary inner bound) Rule.unary := by
  -- without an operator in front it is a call
  have hcall : ∀ bound ≤ b + 1, Reads bound (call inner bound) Rule.unary := fun bound hbound =>
    .of_body ((call_reads hinner hbound).mono fun _ h => Or.inr (.inl h))
  intro bound
  induction bound with
  | zero => exact hcall 0
  | succ bound ih =>
      intro hbound
      have hoperand := ih (Nat.le_of_succ_le hbound)
      refine .accept_previous (by decide) (fun operator => hoperand.last fun operand => .done _) ?_
        (hcall _ hbound)
      · intro t ts ht hts
        have hop : (tokens [.bang, .minus]).Holds Relaxed [t] := holds_tokens.mpr ⟨t, rfl, ht⟩
        exact .of_body (.inl (holds_then hop (holds_last hts)))

omit hinner in
/-- Whatever level the operators are of, operands and operators are read in turns. -/
theorem leftAssociative_reads {bound : Nat} {operand : Reader Node} {e : Ebnf}
    (hoperand : Reads bound operand e) {kind : Kind} {kinds : List Kind}
    (hkinds : Kind.eof ∉ kind :: kinds) (build : Node → Token → Node → Node) :
    Reads bound (leftAssociative (kind :: kinds) build operand bound)
      (sequence [e, many (sequence [tokens (kind :: kinds), e])]) := by
  have hfold : ∀ (count : Nat) (left : Node), count ≤ bound →
      Reads count (foldOperators (kind :: kinds) build operand count left)
        (many (sequence [tokens (kind :: kinds), e])) := by
    intro count
    induction count with
    | zero =>
        intro left _
        exact .of_nothing (Local.peek.discard (.pure left)).grows
    | succ count ih =>
        intro left hcount
        -- an operator is a token, so that with it one round is used up and no more
        have hcount := Nat.le_of_succ_le hcount
        refine .accept_previous hkinds (fun operator => (hoperand.weaken hcount).single.andThen
          (fun right => (ih (build left operator right) hcount).single) rfl) ?_ (.none _)
        exact fun t ts ht => many_after (holds_tokens.mpr ⟨t, rfl, ht⟩)
  exact hoperand.andThen (fun first => (hfold bound first (Nat.le_refl bound)).single) rfl

/-- The levels stand on each other, and each reads its own rule. -/
theorem disjunction_reads {bound : Nat} (hbound : bound ≤ b + 1) :
    Reads bound (disjunction inner bound) (Rule.level .disjunction) := by
  have hunary := unary_reads hinner bound hbound
  have hfactor : Reads bound (factor inner bound) (Rule.level .factor) :=
    .of_body (leftAssociative_reads hunary (by decide) _)
  have hterm : Reads bound (term inner bound) (Rule.level .term) :=
    .of_body (leftAssociative_reads hfactor (by decide) _)
  have hcomparison : Reads bound (comparison inner bound) (Rule.level .comparison) :=
    .of_body (leftAssociative_reads hterm (by decide) _)
  have hequality : Reads bound (equality inner bound) (Rule.level .equality) :=
    .of_body (leftAssociative_reads hcomparison (by decide) _)
  have hconjunction : Reads bound (conjunction inner bound) (Rule.level .conjunction) :=
    .of_body (leftAssociative_reads hequality (by decide) _)
  exact .of_body (leftAssociative_reads hconjunction (by decide) _)

/-- An equals sign is tried behind anything that may be a target: whether it is one comes
later. -/
theorem assignment_reads : Reads (b + 1) (assignment inner (b + 1)) Rule.assignment := by
  refine .of_body ((disjunction_reads hinner (Nat.le_refl _)).andThen (fun target => ?_) rfl)
  refine .single (.accept_previous (by decide) (fun equals => hinner.last fun value => ?_) ?_
    (.absent _))
  · -- a target that is none is complained of where the equals sign stands
    split
    · exact .done _
    · exact .complain rfl (.done _)
  · intro t ts ht hts
    exact .inr (holds_token_then (List.mem_singleton.mp ht) (holds_last hts.body_holds))

end

/-- A bound for each expression inside another one is enough. -/
theorem expressionWithin_reads : ∀ b, Reads b (expressionWithin b) Rule.expression := by
  intro b
  induction b with
  | zero => exact .of_nothing (Local.grows fun _ => .fail _)
  | succ b ih => exact .of_body (assignment_reads ih)

/-! ## Statements -/

section

variable {r : Reader Node} {e : Ebnf}

/-- What is read only behind a token of the kind is an option. -/
theorem ifAfter_reads {kind : Kind} (hkind : kind ≠ .eof) (hr : Reads (b - 1) r e) :
    Reads b (ifAfter kind r) (optional (sequence [kind, e])) :=
  .acceptToken hkind hr.single (fun _ => Or.inr) (.absent _)

/-- What is read unless a token of the kind follows is an option. -/
theorem unlessAt_reads {kind : Kind} (hkind : kind ≠ .eof) (hr : Reads b r e) :
    Reads b (unlessAt kind r) (optional e) :=
  .check hkind (.absent _) (hr.mono fun _ => Or.inr)

end

section

variable {expression statement : Reader Node} (hexpression : Reads b expression Rule.expression)

include hexpression

/-- Behind its keyword a declaration is a name, maybe a value, and a semicolon. -/
theorem varDeclaration_reads : Reads b (varDeclaration expression)
    (sequence [identifier, optional (sequence [equal, Rule.expression]), semicolon]) := by
  refine .consume (by decide) rfl (fun name => ?_) rfl
  have hvalue : Reads b (ifAfter equal expression) (optional (sequence [equal, Rule.expression])) :=
    ifAfter_reads (by decide) (hexpression.weaken (Nat.sub_le b 1))
  refine hvalue.andThen (fun value => ?_) rfl
  exact .discard_consume (by decide) rfl (.done _) rfl

theorem expressionStatement_reads : Reads b (expressionStatement expression) Rule.exprStmt :=
  .of_body (hexpression.andThen (fun e => .discard_consume (by decide) rfl (.done _) rfl) rfl)

theorem printStatement_reads : Reads b (printStatement expression)
    (sequence [Rule.expression, semicolon]) :=
  hexpression.andThen (fun e => .discard_consume (by decide) rfl (.done _) rfl) rfl

/-- The three beginnings of a loop are told apart by one token. -/
theorem forInitializer_reads : Reads b (forInitializer expression)
    (oneOf [Rule.varDecl, Rule.exprStmt, semicolon]) := by
  have hdeclaration := varDeclaration_reads (hexpression.weaken (Nat.sub_le b 1))
  have habsent : Reads (b - 1) (pure Node.absent) (sequence []) := .done _
  refine .acceptToken (by decide) habsent (fun ts h => ?_)
    (.acceptToken (by decide) hdeclaration (fun ts h => ?_) ?_)
  · -- the semicolon alone, a declaration, and an expression with its semicolon
    exact .inr (.inr (.inl (holds_sequence_single.mp h)))
  · exact .inl (.of_body h)
  · exact (expressionStatement_reads hexpression).mono fun _ h => .inr (.inl h)

variable (hstatement : Reads b statement Rule.statement)

include hstatement

theorem whileStatement_reads : Reads b (whileStatement expression statement)
    (sequence [leftParen, Rule.expression, rightParen, Rule.statement]) := by
  refine .discard_consume (by decide) rfl (hexpression.andThen (fun condition => ?_) rfl) rfl
  refine .discard_consume (by decide) rfl (.single ?_) rfl
  exact hstatement.last fun body => .done _

/-- A branch takes the `else` that follows, so that it is an option. -/
theorem ifStatement_reads : Reads b (ifStatement expression statement)
    (sequence [leftParen, Rule.expression, rightParen, Rule.statement,
      optional (sequence [kwElse, Rule.statement])]) := by
  refine .discard_consume (by decide) rfl (hexpression.andThen (fun condition => ?_) rfl) rfl
  refine .discard_consume (by decide) rfl (hstatement.andThen (fun thenBranch => ?_) rfl) rfl
  refine .single (.last (ifAfter_reads (by decide) ?_) fun elseBranch => .done _)
  exact hstatement.weaken (Nat.sub_le b 1)

/-- Of the parts of a loop only the body cannot be left out. -/
theorem forStatement_reads : Reads b (forStatement expression statement)
    (sequence [leftParen, oneOf [Rule.varDecl, Rule.exprStmt, semicolon],
      optional Rule.expression, semicolon, optional Rule.expression, rightParen,
      Rule.statement]) := by
  refine .discard_consume (by decide) rfl ?_ rfl
  refine (forInitializer_reads hexpression).andThen (fun initializer => ?_) rfl
  refine (unlessAt_reads (by decide) hexpression).andThen (fun condition => ?_) rfl
  refine .discard_consume (by decide) rfl ?_ rfl
  refine (unlessAt_reads (by decide) hexpression).andThen (fun increment => ?_) rfl
  refine .discard_consume (by decide) rfl (.single ?_) rfl
  exact hstatement.last fun body => .done _

/-- Recovery has no say here, since it comes after the abort. -/
theorem declarationWith_reads :
    Reads b (declarationWith expression statement) Rule.declaration := by
  refine .recovering (.accept (by decide)
    (varDeclaration_reads (hexpression.weaken (Nat.sub_le b 1))) ?_ ?_)
  · intro t ts ht hts
    exact .of_body (.inl (.of_body (holds_token_then (List.mem_singleton.mp ht) hts)))
  · exact hstatement.mono fun _ h => .of_body (Or.inr (.inl h))

end

section

variable {declaration : Reader (Option Node)} (hdeclaration : Reads b declaration Rule.declaration)

include hdeclaration

/-- A declaration, and more of them in front of fewer tokens. -/
theorem more_reads {count : Nat} (hcount : count + 1 ≤ b) {r : Reader (List Node)}
    (hr : Reads count r (many Rule.declaration)) :
    Reads (count + 1) (declaration >>= fun first => r >>= fun more => pure (first.toList ++ more))
      (many Rule.declaration) := by
  -- nothing marks the end of a declaration, but it is one token at least
  have hseveral := (hdeclaration.weaken hcount).thenAfter
    (fun first => (hr.last fun more => .done (first.toList ++ more)).single) rfl fun ts hts => ?_
  · refine hseveral.mono fun ts hts => ?_
    rcases hts with ⟨xs, ys, rfl, hxs, hys⟩
    exact many_more hxs (holds_sequence_single.mp hys)
  · have hlength : 0 < ts.length := List.length_pos_iff.mpr (Relaxed.ne_nil hts)
    omega

/-- In a block declarations are read up to a brace. -/
theorem declarationsToBrace_reads : ∀ count ≤ b,
    Reads count (declarationsToBrace declaration count) (many Rule.declaration) := by
  intro count
  induction count with
  | zero => exact fun _ => .of_nothing (Local.peek.discard (.pure [])).grows
  | succ count ih =>
      intro hcount
      -- the brace and the end token both end the list without being passed
      refine .check (by decide) (.none _) (.isAtEnd (.none _) ?_)
      exact more_reads hdeclaration hcount (ih (Nat.le_of_succ_le hcount))

/-- In a program declarations are read up to the end. -/
theorem declarationsToEnd_reads : ∀ count ≤ b,
    Reads count (declarationsToEnd declaration count) (many Rule.declaration) := by
  intro count
  induction count with
  | zero => exact fun _ => .of_nothing (Local.peek.discard (.pure [])).grows
  | succ count ih =>
      intro hcount
      refine .isAtEnd (.none _) ?_
      exact more_reads hdeclaration hcount (ih (Nat.le_of_succ_le hcount))

theorem blockWith_reads : Reads b (blockWith declaration b)
    (sequence [many Rule.declaration, rightBrace]) :=
  (declarationsToBrace_reads hdeclaration b (Nat.le_refl b)).andThen
    (fun ss => .discard_consume (by decide) rfl (.done _) rfl) rfl

end

/-- A statement is told by its first token, and is an expression where none tells. -/
theorem statementWithin_reads : ∀ b, Reads b (statementWithin b) Rule.statement := by
  intro b
  induction b with
  | zero => exact .of_nothing (Local.grows fun _ => .fail _)
  | succ b ih =>
      have hexpression := expressionWithin_reads (b + 1)
      have hinner := hexpression.weaken (Nat.le_succ b)
      have hblock := (blockWith_reads (declarationWith_reads hinner ih)).last
        (f := fun ss => pure (Node.block ss)) fun ss => .done _
      -- by the keyword, or the brace, that a statement begins with
      refine .acceptToken (by decide) (forStatement_reads hinner ih) (fun ts h => ?_)
        (.acceptToken (by decide) (ifStatement_reads hinner ih) (fun ts h => ?_)
          (.acceptToken (by decide) (printStatement_reads hinner) (fun ts h => ?_)
            (.acceptToken (by decide) (whileStatement_reads hinner ih) (fun ts h => ?_)
              (.acceptToken (by decide) hblock (fun ts h => ?_) ?_))))
      · exact .of_body (.inr (.inl (.of_body h)))
      · exact .of_body (.inr (.inr (.inl (.of_body h))))
      · exact .of_body (.inr (.inr (.inr (.inl (.of_body h)))))
      · exact .of_body (.inr (.inr (.inr (.inr (.inl (.of_body h))))))
      · exact .of_body (.inr (.inr (.inr (.inr (.inr (.inl (.of_body h)))))))
      · exact (expressionStatement_reads hexpression).mono fun _ h => .of_body (Or.inl h)

/-- What a program is read by reads declarations. -/
theorem declarations_read (b : Nat) :
    Reads b (declarationsToEnd (declarationWithin b) b) (many Rule.declaration) :=
  declarationsToEnd_reads
    (declarationWith_reads (expressionWithin_reads b) (statementWithin_reads b)) b (Nat.le_refl b)

end NovaLang.Descent
