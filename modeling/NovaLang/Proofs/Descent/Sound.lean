import NovaLang.Proofs.Descent.Steady
import NovaLang.Proofs.Phrase

namespace NovaLang.Descent

open Phrase

/-! # What is read without a complaint is a phrase

Every reader of the descent does only what it may do from a cursor in front of an end
token. Where it reports nothing, the tokens it passed are a phrase of its rule and what
it yields is the tree of that phrase. The bounds of the readers count tokens, so that
none is used up before the tokens are.
-/

/-! ## Expressions -/

/-- The property of a reader of one rule of expressions. -/
def IsExpr (r : Rule) : List Token → Node → List Token → Prop := fun ts e _ => Expr r ts e

section

variable {b : Nat} {inner : Reader Node}

/-- Without a complaint the token accepted, or what stands in parentheses, is a primary
expression. -/
theorem primary_passes (hinner : Within b inner (IsExpr .expression)) :
    Within (b + 1) (primary inner) (IsExpr .primary) := by
  intro c hc
  have hconstant : ∀ {t : Token} {v : Value} {rest : List Token}, t.constant? = some v →
      IsExpr .primary [t] (.literal v) rest := fun h => .constant h
  refine .accept (by decide) (fun t rest _ ht => .pure (hconstant ?_)) fun _ _ _ _ => ?_
  · simp [Token.constant?, List.mem_singleton.mp ht]
  refine .accept (by decide) (fun t rest _ ht => .pure (hconstant ?_)) fun _ _ _ _ => ?_
  · simp [Token.constant?, List.mem_singleton.mp ht]
  refine .accept (by decide) (fun t rest _ ht => .pure (hconstant ?_)) fun _ _ _ _ => ?_
  · simp [Token.constant?, List.mem_singleton.mp ht]
  refine .accept (by decide) (fun t rest _ ht => .previous rfl (.pure (hconstant ?_)))
    fun _ _ _ _ => ?_
  · obtain ht | ht : t.kind = .number ∨ t.kind = .string := by simpa using ht
    · simp [Token.constant?, ht]
    · simp [Token.constant?, ht]
  refine .accept (by decide) (fun t rest _ ht => .previous rfl (.pure ?_)) fun _ _ _ _ => ?_
  · exact Expr.name (List.mem_singleton.mp ht)
  -- what is left is a parenthesis, or the complaint that there is no expression
  refine .accept (by decide) (fun t rest hrest ht => ?_) fun _ _ _ _ => .fail _
  have hlength : rest.length ≤ b := by simpa [hrest] using hc
  refine .bind (hinner _ hlength) fun ts _ e _ _ => ?_
  refine .discard_consume (by decide) fun r rest' _ hr => .pure fun he => ?_
  exact Expr.grouping (List.mem_singleton.mp ht) he hr

/-- Where fewer arguments than may be have been read nothing is complained about. -/
theorem limitArguments_passes {α : Type} {seen : Nat} {f : Unit → Reader α} {c : Cursor}
    {post : List Token → α → List Token → Prop}
    (h : ∀ c' : Cursor, c'.rest = c.rest → Passes (f ()) c' post) :
    Passes (limitArguments seen >>= f) c
      fun ts a rest => seen < maxArguments ∧ post ts a rest := by
  rw [limitArguments]
  split
  · rw [bind_assoc]
    refine Passes.peek fun t rest _ => Passes.complain ?_
    have hafter := h { c with report := c.report.atToken t .tooManyArguments } rfl
    exact hafter.mono fun _ _ _ _ => trivial
  · rename_i hseen
    exact (h c rfl).mono fun _ _ _ hpost => ⟨by omega, hpost⟩

/-- Every further argument counts as one more that has been seen, and the limit is checked before
it. -/
theorem arguments_passes (hinner : Within b inner (IsExpr .expression)) :
    ∀ (count seen : Nat) (c : Cursor), c.rest.length ≤ count → c.rest.length ≤ b →
      Passes (arguments inner count seen) c fun ts as _ =>
        Expr .arguments ts (.list as) ∧ seen + as.length ≤ maxArguments := by
  intro count
  induction count with
  | zero => exact fun seen c hcount _ => .of_nothing hcount
  | succ count ih =>
      intro seen c hcount hb
      -- whether the limit has been complained about or not, the argument is read in the same way
      have hpost : ∀ c' : Cursor, c'.rest = c.rest →
          Passes (do
            let a ← inner
            if ← accept [.comma] then
              return a :: (← arguments inner count (seen + 1))
            else
              return [a]) c' fun ts as _ => Expr .arguments ts (.list as) ∧
                (seen < maxArguments → seen + as.length ≤ maxArguments) := by
        intro c' hc'
        refine Passes.bind (hinner c' (hc' ▸ hb)) fun xs _ a c₁ hmoved => ?_
        have hlength := hmoved.length_rest
        rw [hc'] at hlength
        refine Passes.accept (by decide) (fun t rest hrest ht => ?_) (fun t rest hrest ht => ?_)
        · simp only [hrest, List.length_cons] at hlength
          refine Passes.bind (ih (seen + 1) _ ?_ ?_) fun ys _ as _ _ => Passes.pure ?_
          · simp only [Cursor.past]; omega
          · simp only [Cursor.past]; omega
          · rintro ⟨has, hle⟩ ha
            rw [List.append_nil]
            refine ⟨.argument ha (List.mem_singleton.mp ht) has, fun _ => ?_⟩
            rw [List.length_cons]
            omega
        · refine Passes.pure fun ha => ⟨?_, fun h => h⟩
          rw [List.append_nil]
          exact .lastArgument ha
      rw [arguments]
      refine (limitArguments_passes hpost).mono ?_
      rintro ts as rest ⟨hseen, has, hle⟩
      exact ⟨has, hle hseen⟩

/-- No argument at all, or a list of them within the limit. -/
theorem argumentsIfAny_passes (hinner : Within b inner (IsExpr .expression)) {count : Nat}
    {c : Cursor} (hcount : c.rest.length ≤ count) (hb : c.rest.length ≤ b) :
    Passes (argumentsIfAny inner count) c fun ts as _ =>
      ts = [] ∧ as = [] ∨ Expr .arguments ts (.list as) ∧ as.length ≤ maxArguments := by
  refine Passes.check (by decide) (fun _ _ _ _ => Passes.pure (.inl ⟨rfl, rfl⟩)) fun _ _ _ _ => ?_
  -- none has been seen yet
  refine (arguments_passes hinner count 0 c hcount hb).mono ?_
  rintro ts as _ ⟨has, hle⟩
  exact .inr ⟨has, by omega⟩

/-- The rest of a call continues whatever is called, by its parenthesis. -/
theorem finishCall_passes (hinner : Within b inner (IsExpr .expression)) {count : Nat}
    {c : Cursor} (hcount : c.rest.length ≤ count) (hb : c.rest.length ≤ b) (f : Node) :
    Passes (finishCall inner count f) c fun ts e _ => ∀ xs l, Expr .call xs f →
      l.kind = .leftParen → Expr .call (xs ++ l :: ts) e := by
  refine Passes.bind (argumentsIfAny_passes hinner hcount hb) fun ts _ as c' _ => ?_
  refine Passes.consume (by decide) fun r rest _ hr => Passes.pure ?_
  rintro (⟨rfl, rfl⟩ | ⟨has, hle⟩) xs l hf hl
  · exact .callAlone hf hl hr
  · simpa using Expr.callWith hf hl has hle hr

/-- Calls continue what stands in front of them. -/
theorem foldCalls_passes (hinner : Within b inner (IsExpr .expression)) :
    ∀ (count : Nat) (f : Node) (c : Cursor), c.rest.length ≤ count → c.rest.length ≤ b + 1 →
      Passes (foldCalls inner count f) c fun ts e _ =>
        ∀ xs, Expr .call xs f → Expr .call (xs ++ ts) e := by
  intro count
  induction count with
  | zero => exact fun f c hcount _ => .of_nothing hcount
  | succ count ih =>
      intro f c hcount hb
      refine Passes.accept (by decide) (fun l rest hrest hl => ?_) (fun _ _ _ _ => ?_)
      · simp only [hrest, List.length_cons, Nat.add_le_add_iff_right] at hcount hb
        -- the result of this call is what the next one calls
        refine Passes.bind (finishCall_passes hinner hcount hb f) fun ts _ g c' hmoved => ?_
        have hlength : rest.length = ts.length + c'.rest.length := hmoved.length_rest
        refine (ih g c' (by omega) (by omega)).mono fun us e _ he hg xs hf => ?_
        have := he _ (hg xs l hf (List.mem_singleton.mp hl))
        simpa using this
      · exact Passes.pure fun xs hf => by simpa using hf

/-- A callee with the calls that follow it. -/
theorem call_passes (hinner : Within b inner (IsExpr .expression)) {bound : Nat} {c : Cursor}
    (hbound : c.rest.length ≤ bound) (hb : c.rest.length ≤ b + 1) :
    Passes (call inner bound) c (IsExpr .call) := by
  refine Passes.bind (primary_passes hinner c hb) fun ts _ f c' hmoved => ?_
  have hlength := hmoved.length_rest
  refine (foldCalls_passes hinner bound f c' (by omega) (by omega)).mono ?_
  exact fun us e _ he hf => he ts (.primary hf)

/-- An operator with its operand, or a call. -/
theorem unary_passes (hinner : Within b inner (IsExpr .expression)) :
    ∀ (bound : Nat) (c : Cursor), c.rest.length ≤ bound → c.rest.length ≤ b + 1 →
      Passes (unary inner bound) c (IsExpr .unary) := by
  intro bound
  induction bound with
  | zero => exact fun c hbound hb => (call_passes hinner hbound hb).mono fun _ _ _ => .call
  | succ bound ih =>
      intro c hbound hb
      refine Passes.accept (by decide) (fun o rest hrest ho => ?_) (fun _ _ _ _ => ?_)
      · simp only [hrest, List.length_cons, Nat.add_le_add_iff_right] at hbound hb
        refine Passes.previous rfl (Passes.bind (ih _ hbound (Nat.le_succ_of_le hb)) ?_)
        intro ts _ e c' _
        exact Passes.pure fun he => by simpa [IsExpr] using Expr.unary ho he
      · exact (call_passes hinner hbound hb).mono fun _ _ _ => .call

/-- The operators of a level and their operands continue what stands on the left. -/
theorem foldOperators_passes {l : Level} {operand : Reader Node}
    (hoperand : Within b operand (IsExpr l.operand)) :
    ∀ (count : Nat) (left : Node) (c : Cursor), c.rest.length ≤ b →
      Passes (foldOperators l.operators l.join operand count left) c fun ts e _ =>
        ∀ xs, Expr (.level l) xs left → Expr (.level l) (xs ++ ts) e := by
  intro count
  induction count with
  | zero =>
      intro left c _
      rw [foldOperators, run_discard]
      exact Passes.peek fun _ _ _ => Passes.pure fun xs h => by simpa using h
  | succ count ih =>
      intro left c hb
      -- the operators of no level are the end
      have heof : Kind.eof ∉ l.operators := by cases l <;> decide
      refine Passes.accept heof (fun o rest hrest ho => ?_) (fun _ _ _ _ => ?_)
      · simp only [hrest, List.length_cons] at hb
        have hrest : rest.length ≤ b := by omega
        refine Passes.previous rfl (Passes.bind (hoperand _ hrest) fun ts _ right c' hmoved => ?_)
        have hlength : rest.length = ts.length + c'.rest.length := hmoved.length_rest
        refine (ih (l.join left o right) c' (by omega)).mono fun us e _ he hright xs hleft => ?_
        simpa using he _ (.operation hleft ho hright)
      · exact Passes.pure fun xs h => by simpa using h

/-- An operand with the operations that follow it. -/
theorem leftAssociative_passes {l : Level} {operand : Reader Node} {bound : Nat}
    (hoperand : Within b operand (IsExpr l.operand)) :
    Within b (leftAssociative l.operators l.join operand bound) (IsExpr (.level l)) := by
  intro c hc
  refine Passes.bind (hoperand c hc) fun ts _ first c' hmoved => ?_
  have hlength := hmoved.length_rest
  refine (foldOperators_passes hoperand bound first c' (by omega)).mono ?_
  exact fun us e _ he hfirst => he ts (.operand hfirst)

/-- Each level reads its operands as the one below it. -/
theorem disjunction_passes (hinner : Within b inner (IsExpr .expression)) :
    Within (b + 1) (disjunction inner (b + 1)) (IsExpr (.level .disjunction)) := by
  have hunary : Within (b + 1) (unary inner (b + 1)) (IsExpr .unary) :=
    fun c hc => unary_passes hinner (b + 1) c hc hc
  have hfactor : Within (b + 1) (factor inner (b + 1)) (IsExpr (.level .factor)) :=
    leftAssociative_passes (l := .factor) hunary
  have hterm : Within (b + 1) (term inner (b + 1)) (IsExpr (.level .term)) :=
    leftAssociative_passes (l := .term) hfactor
  have hcomparison : Within (b + 1) (comparison inner (b + 1)) (IsExpr (.level .comparison)) :=
    leftAssociative_passes (l := .comparison) hterm
  have hequality : Within (b + 1) (equality inner (b + 1)) (IsExpr (.level .equality)) :=
    leftAssociative_passes (l := .equality) hcomparison
  have hconjunction : Within (b + 1) (conjunction inner (b + 1)) (IsExpr (.level .conjunction)) :=
    leftAssociative_passes (l := .conjunction) hequality
  exact leftAssociative_passes (l := .disjunction) hconjunction

/-- The target of an assignment is read as a disjunction first, which a name is only when
nothing else belongs to it. -/
theorem assignment_passes (hinner : Within b inner (IsExpr .expression)) :
    Within (b + 1) (assignment inner (b + 1)) (IsExpr .expression) := by
  intro c hc
  refine Passes.bind (disjunction_passes hinner c hc) fun ts _ target c' hmoved => ?_
  have hlength := hmoved.length_rest
  refine Passes.accept (by decide) (fun q rest hrest hq => ?_) (fun _ _ _ _ => ?_)
  · simp only [hrest, List.length_cons] at hlength
    have hrest : rest.length ≤ b := by omega
    refine Passes.previous rfl (Passes.bind (hinner _ hrest) fun us _ value c'' _ => ?_)
    split
    · -- a disjunction whose tree is a reference is the name and nothing else
      refine Passes.pure fun hvalue htarget => ?_
      obtain ⟨rfl, hname⟩ := htarget.of_reference
      simpa [IsExpr] using
        Expr.whole (.assignment hname (List.mem_singleton.mp hq) hvalue.of_expression)
    · exact Passes.complain (Passes.pure trivial)
  · exact Passes.pure fun h => by simpa [IsExpr] using Expr.whole (.disjunction h)

/-- Expressions in parentheses are shorter than the ones they stand in. -/
theorem expressionWithin_passes (bound : Nat) :
    Within bound (expressionWithin bound) (IsExpr .expression) := by
  induction bound with
  | zero => exact fun c _ => Passes.fail _
  | succ bound ih => exact assignment_passes ih

end

/-! ## Statements -/

/-- The property of a reader of statements. -/
def IsStmt : List Token → Node → List Token → Prop := fun ts s rest =>
  ∃ d, Stmt .statement d ts s ∧ Settled d rest

/-- The property of what follows the first token of a statement. -/
def EndsStmt (t : Token) : List Token → Node → List Token → Prop := fun ts s rest =>
  IsStmt (t :: ts) s rest

section

variable {b : Nat} {expression statement : Reader Node}

/-- A part behind a token of the kind, or no such token. -/
theorem ifAfter_passes {k : Kind} (hk : k ≠ .eof) {r : Reader Node}
    {post : List Token → Node → List Token → Prop} (hr : Within b r post) :
    Within b (ifAfter k r) fun ts e rest =>
      (ts = [] ∧ e = .absent ∧ ∀ t ∈ rest.head?, t.kind ≠ k) ∨
        ∃ t us, ts = t :: us ∧ t.kind = k ∧ post us e rest := by
  intro c hc
  refine Passes.accept (by simpa using hk.symm) (fun t rest hrest ht => ?_)
    (fun t rest hrest ht => ?_)
  · have hlength : rest.length ≤ b := by simp [hrest] at hc; omega
    refine (hr (c.past t rest) hlength).mono fun us e _ hpost => ?_
    exact .inr ⟨t, us, rfl, List.mem_singleton.mp ht, hpost⟩
  · exact Passes.pure (.inl ⟨rfl, rfl, by simpa [hrest] using ht⟩)

/-- A clause that is read unless a token of the kind follows may be missing. -/
theorem unlessAt_passes {k : Kind} (hk : k ≠ .eof)
    (hexpression : Within b expression (IsExpr .expression)) :
    Within b (unlessAt k expression) fun ts e _ => Maybe ts e :=
  .check hk (.pure fun _ => .absent) (hexpression.mono fun _ _ _ => .present)

/-- What follows the keyword completes a declaration. -/
theorem varDeclaration_passes (hexpression : Within b expression (IsExpr .expression)) :
    Within b (varDeclaration expression) fun ts s _ =>
      ∀ v, v.kind = .kwVar → Simple .varDecl (v :: ts) s := by
  refine .consume (by decide) fun n hn => .bind (ifAfter_passes (by decide) hexpression) ?_
  refine fun ts e => .discard_consume (by decide) fun s hs => .pure fun rest => ?_
  rintro (⟨rfl, rfl, -⟩ | ⟨q, us, rfl, hq, he⟩) v hv
  · exact .bare hv hn hs
  · exact .initialized hv hn hq he hs

theorem expressionStatement_passes (hexpression : Within b expression (IsExpr .expression)) :
    Within b (expressionStatement expression) fun ts s _ => Simple .exprStmt ts s :=
  .bind hexpression fun _ _ =>
    .discard_consume (by decide) fun _ hs => .pure fun _ he => .expression he hs

theorem printStatement_passes (hexpression : Within b expression (IsExpr .expression)) {t : Token}
    (ht : t.kind = .kwPrint) : Within b (printStatement expression) (EndsStmt t) := by
  refine .bind hexpression fun ts e => .discard_consume (by decide) fun s hs => .pure ?_
  exact fun rest he => ⟨false, .printStmt (.print ht he hs), settled_false rest⟩

theorem whileStatement_passes (hexpression : Within b expression (IsExpr .expression))
    (hstatement : Within b statement IsStmt) {t : Token} (ht : t.kind = .kwWhile) :
    Within b (whileStatement expression statement) (EndsStmt t) := by
  refine .discard_consume (by decide) fun l hl => .bind hexpression fun cs e => ?_
  refine .discard_consume (by decide) fun r hr => .bind hstatement fun ts s => .pure ?_
  rintro rest ⟨d, hs, hsettled⟩ he
  exact ⟨d, by simpa using Stmt.whileLoop ht hl he hr hs, hsettled⟩

/-- An `else` is taken by the nearest statement that can have it. -/
theorem ifStatement_passes (hexpression : Within b expression (IsExpr .expression))
    (hstatement : Within b statement IsStmt) {t : Token} (ht : t.kind = .kwIf) :
    Within b (ifStatement expression statement) (EndsStmt t) := by
  refine .discard_consume (by decide) fun l hl => .bind hexpression fun cs e => ?_
  refine .discard_consume (by decide) fun r hr => .bind hstatement fun ts s => ?_
  refine .bind (ifAfter_passes (by decide) hstatement) fun es o => .pure ?_
  rintro rest (⟨rfl, rfl, hnone⟩ | ⟨k, us, rfl, hk, d', ho, hsettled'⟩) ⟨d, hs, hsettled⟩ he
  · exact ⟨true, by simpa using Stmt.ifAlone ht hl he hr hs, fun _ => hnone⟩
  · -- an `else` follows the first branch, which therefore does not dangle
    cases d with
    | false => exact ⟨d', by simpa using Stmt.ifElse ht hl he hr hs hk ho, hsettled'⟩
    | true => exact absurd hk (hsettled rfl k rfl)

/-- A loop begins with a semicolon, a declaration or an expression. -/
theorem forInitializer_passes (hexpression : Within b expression (IsExpr .expression)) :
    Within b (forInitializer expression) fun ts i _ => Initializer ts i := by
  refine .accept (by decide) (fun s hs => .pure fun _ => .absent (List.mem_singleton.mp hs)) ?_
  refine .accept (by decide) (fun v hv => ?_) ?_
  · refine ((varDeclaration_passes hexpression).weaken (Nat.sub_le b 1)).mono fun ts s _ hs => ?_
    exact .varDecl (hs v (List.mem_singleton.mp hv))
  · exact (expressionStatement_passes hexpression).mono fun _ _ _ => .exprStmt

/-- The clauses of a loop make the block that it stands for. -/
theorem forStatement_passes (hexpression : Within b expression (IsExpr .expression))
    (hstatement : Within b statement IsStmt) {t : Token} (ht : t.kind = .kwFor) :
    Within b (forStatement expression statement) (EndsStmt t) := by
  refine .discard_consume (by decide) fun l hl => ?_
  refine .bind (forInitializer_passes hexpression) fun is i => ?_
  refine .bind (unlessAt_passes (by decide) hexpression) fun cs e => ?_
  refine .discard_consume (by decide) fun s hs => ?_
  refine .bind (unlessAt_passes (by decide) hexpression) fun ns n => ?_
  refine .discard_consume (by decide) fun r hr => .bind hstatement fun bs body => .pure ?_
  -- each part has been read in silence, so each is a phrase
  rintro rest ⟨d, hbody, hsettled⟩ hn he hi
  rw [forLoop_eq]
  exact ⟨d, by simpa using Stmt.forLoop ht hl hi he hs hn hr hbody, hsettled⟩

/-- The property of a reader of one declaration that may be left out. -/
def IsDeclaration : List Token → Option Node → List Token → Prop := fun ts s? _ =>
  ∃ s d, s? = some s ∧ Stmt .declaration d ts s

/-- A declaration that was not complained about is there, with its tree. -/
theorem declarationWith_passes (hexpression : Within b expression (IsExpr .expression))
    (hstatement : Within b statement IsStmt) {c : Cursor} (hc : c.rest.length ≤ b)
    (hmove : c.Movable) : Passes (declarationWith expression statement) c IsDeclaration := by
  -- before recovery it is a declaration of a variable or a statement
  have hread : Within b (do if ← accept [.kwVar] then varDeclaration expression else statement)
      fun ts s _ => ∃ d, Stmt .declaration d ts s := by
    refine .accept (by decide) (fun v hv => ?_) ?_
    · refine ((varDeclaration_passes hexpression).weaken (Nat.sub_le b 1)).mono fun ts s _ hs => ?_
      exact ⟨false, .varDecl (hs v (List.mem_singleton.mp hv))⟩
    · refine hstatement.mono ?_
      rintro ts s _ ⟨d, hs, -⟩
      exact ⟨d, .statement hs⟩
  refine (Passes.recovering (hread c hc) hmove).mono ?_
  rintro ts _ _ ⟨s, rfl, d, hs⟩
  exact ⟨s, d, rfl, hs⟩

/-- The declarations of a block, one after the other. -/
theorem declarationsToBrace_passes (hexpression : Within b expression (IsExpr .expression))
    (hstatement : Within b statement IsStmt) :
    ∀ (count : Nat) (c : Cursor), c.rest.length ≤ b → c.Movable →
      Passes (declarationsToBrace (declarationWith expression statement) count) c
        fun ts ss _ => Stmt .declarations false ts (.list ss) := by
  intro count
  induction count with
  | zero =>
      intro c _ _
      rw [declarationsToBrace, run_discard]
      exact Passes.peek fun _ _ _ => Passes.pure .none
  | succ count ih =>
      intro c hc hmove
      refine Passes.check (by decide) (fun _ _ _ _ => Passes.pure .none) fun t rest hrest _ => ?_
      refine Passes.bind_run (fun _ => run_isAtEnd hrest) (fun _ => .refl c) ?_
      split
      · exact Passes.pure .none
      -- a declaration that is left out has been complained about, so `s?` is there
      refine Passes.bind (declarationWith_passes hexpression hstatement hc hmove) ?_
      intro xs _ s? c' hmoved
      have hlength := hmoved.length_rest
      refine Passes.bind (ih c' (by omega) (hmoved.movable hmove)) fun ys _ ss _ _ => Passes.pure ?_
      rintro hss ⟨s, d, rfl, hs⟩
      simpa using Stmt.cons hs hss

/-- Declarations with the brace that closes them. -/
theorem blockWith_passes (hexpression : Within b expression (IsExpr .expression))
    (hstatement : Within b statement IsStmt) {count : Nat} {l : Token} (hl : l.kind = .leftBrace)
    {c : Cursor} (hc : c.rest.length ≤ b) (hmove : c.Movable) :
    Passes (blockWith (declarationWith expression statement) count) c
      fun ts ss _ => Stmt .statement false (l :: ts) (.block ss) := by
  refine Passes.bind (declarationsToBrace_passes hexpression hstatement count c hc hmove) ?_
  intro ts _ ss c' _
  refine Passes.discard_consume (by decide) fun r rest _ hr => Passes.pure fun hss => ?_
  exact .block hl hss hr

end

/-- A statement is what its first token says. -/
theorem statementWithin_passes (bound : Nat) : Within bound (statementWithin bound) IsStmt := by
  induction bound with
  | zero => exact fun c _ => Passes.fail _
  | succ bound ih =>
      have hexpression := expressionWithin_passes (bound + 1)
      have hless := hexpression.weaken (Nat.le_succ bound)
      refine .accept (by decide) (fun t ht => ?_) ?_
      · exact forStatement_passes hless ih (List.mem_singleton.mp ht)
      refine .accept (by decide) (fun t ht => ?_) ?_
      · exact ifStatement_passes hless ih (List.mem_singleton.mp ht)
      refine .accept (by decide) (fun t ht => ?_) ?_
      · exact printStatement_passes hless (List.mem_singleton.mp ht)
      refine .accept (by decide) (fun t ht => ?_) ?_
      · exact whileStatement_passes hless ih (List.mem_singleton.mp ht)
      intro c hc
      refine Passes.accept (by decide) (fun t rest hrest ht => ?_) fun _ _ _ _ => ?_
      · have hlength : rest.length ≤ bound := by simpa [hrest] using hc
        refine Passes.bind (blockWith_passes hless ih (c := c.past t rest)
          (List.mem_singleton.mp ht) hlength (.inl (by simp [Cursor.past]))) ?_
        intro ts _ ss c' _
        refine Passes.pure fun hblock => ?_
        rw [List.append_nil]
        exact ⟨false, hblock, settled_false _⟩
      · refine (expressionStatement_passes hexpression c hc).mono fun ts s rest hs => ?_
        exact ⟨false, .exprStmt hs, settled_false rest⟩

/-! ## Programs -/

/-- The declarations are read up to the end token, unless they are more than `count`. -/
theorem declarationsToEnd_passes {b : Nat} : ∀ (count : Nat) (c : Cursor), c.rest.length ≤ b →
    Passes (declarationsToEnd (declarationWithin b) count) c fun ts ss rest =>
      c.rest.length ≤ count → Program ts ss ∧ ∀ t ∈ rest.head?, t.kind = .eof := by
  intro count
  induction count with
  | zero =>
      intro c _
      rw [declarationsToEnd, run_discard]
      refine Passes.peek fun t rest hrest => Passes.pure fun hcount => ?_
      simp [hrest] at hcount
  | succ count ih =>
      intro c hc hready
      obtain ⟨t, rest, hrest⟩ := hready.exists_cons
      refine Passes.bind_run (fun _ => run_isAtEnd hrest) (fun _ => .refl c) ?_ hready
      split
      · rename_i ht
        exact Passes.pure fun _ => ⟨.none, by simpa [hrest] using ht⟩
      rename_i ht
      have hmove : c.Movable := .inr (by simpa [hrest] using ht)
      refine Passes.bind (declarationWith_passes (expressionWithin_passes b)
        (statementWithin_passes b) hc hmove) fun xs _ s? c' hmoved => ?_
      have hlength := hmoved.length_rest
      refine Passes.bind (ih c' (by omega)) fun ys _ ss _ _ => Passes.pure ?_
      rintro hss ⟨s, d, rfl, hs⟩ hcount
      -- a declaration has a first token, so fewer tokens are left for the other ones
      obtain ⟨t, us, rfl, -⟩ := hs.first (by simp)
      rw [List.length_cons] at hlength
      obtain ⟨hss, hend⟩ := hss (by omega)
      exact ⟨by simpa [Program] using Stmt.cons hs hss, hend⟩

/-- A program is read to the first end token. -/
theorem program_passes (c : Cursor) :
    Passes program c fun ts ss rest => Program ts ss ∧ ∀ t ∈ rest.head?, t.kind = .eof := by
  refine Passes.bind_run (a := c.rest.length) (fun _ => rfl) (fun _ => .refl c) ?_
  exact (declarationsToEnd_passes c.rest.length c (Nat.le_refl _)).mono
    fun ts ss rest h => h (Nat.le_refl _)

/-- There is only one way to divide tokens at the first end token. -/
theorem front_unique {ts us xs ys : List Token} {t u : Token} (h : ts ++ t :: us = xs ++ u :: ys)
    (hts : ∀ t ∈ ts, t.kind ≠ .eof) (ht : t.kind = .eof) (hxs : ∀ t ∈ xs, t.kind ≠ .eof)
    (hu : u.kind = .eof) : ts = xs := by
  -- the front is what is taken while no end token has come
  have hfront : ∀ {ts us : List Token} {t : Token}, (∀ t ∈ ts, t.kind ≠ .eof) → t.kind = .eof →
      (ts ++ t :: us).takeWhile (·.kind != .eof) = ts := by
    intro ts us t hts ht
    rw [List.takeWhile_append_of_pos (by simpa using hts),
      List.takeWhile_cons_of_neg (by simp [ht]), List.append_nil]
  rw [← hfront hts ht, h, hfront hxs hu]

/-- A token list whose only end token is the last one is read without a fault. What is
read without a complaint is a program, and nothing of it is left out. -/
theorem read_sound {tokens : List Token} {stop : Token} (htokens : ∀ t ∈ tokens, t.kind ≠ .eof)
    (hstop : stop.kind = .eof) (r : Report) :
    ∃ ds, (read (tokens ++ [stop]) r).2 = r.addAll ds ∧
      (ds = [] → (program.run ⟨[], tokens ++ [stop], r⟩).1 = .ok (read (tokens ++ [stop]) r).1 ∧
        Program tokens (read (tokens ++ [stop]) r).1) := by
  have hready : (⟨[], tokens ++ [stop], r⟩ : Cursor).Ready := ⟨stop, by simp, hstop⟩
  cases program_passes ⟨[], tokens ++ [stop], r⟩ hready with
  | @yields ts ds ss c' hrun hmoved hpost =>
      refine ⟨ds, by rw [read, hrun]; exact hmoved.report, fun hds => ?_⟩
      obtain ⟨hprogram, hend⟩ := hpost hds
      have hread : (read (tokens ++ [stop]) r).1 = ss := by rw [read, hrun]
      rw [hread, hrun]
      refine ⟨rfl, ?_⟩
      obtain ⟨t, rest, hrest⟩ := (hmoved.ready hready).exists_cons
      -- the tokens passed are those in front of the first end token, and so are `tokens`
      have hsplit : tokens ++ [stop] = ts ++ t :: rest := hrest ▸ hmoved.rest
      rwa [front_unique hsplit htokens hstop hmoved.inner (hend t (by simp [hrest]))]
  | @stops ts ds m c' hrun hmoved hds =>
      exact ⟨ds, by rw [read, hrun]; exact hmoved.report, fun h => (hds h).elim⟩

end NovaLang.Descent
