import NovaLang.Proofs.Phrase
import NovaLang.Proofs.Reader

namespace NovaLang.Descent

open Phrase

/-! # Every phrase is read, with its tree

The converse: from the tokens of a phrase the reader of its rule yields the tree of the
phrase and stops behind it, provided that what follows does not continue the phrase.
Repetitions group to the left, while the readers go from left to right: a phrase that
ends in an operation leads a reader to the middle of its repetition.
-/

/-! ## What continues a phrase -/

/-- How loosely a token of a kind binds what stands in front of it. -/
def looseness : Kind → Nat
  | .leftParen => 0
  | .slash | .star => 1
  | .minus | .plus => 2
  | .greater | .greaterEqual | .less | .lessEqual => 3
  | .bangEqual | .equalEqual => 4
  | .kwAnd => 5
  | .kwOr => 6
  | .equal => 7
  | .comma => 8
  | _ => 9

/-- How loosely the operators of a level bind. -/
def ofLevel : Level → Nat
  | .factor => 1
  | .term => 2
  | .comparison => 3
  | .equality => 4
  | .conjunction => 5
  | .disjunction => 6

/-- An operator is as loose as its level. -/
theorem looseness_of_operator {l : Level} {k : Kind} (h : k ∈ l.operators) :
    looseness k = ofLevel l := by
  revert h
  cases l <;> revert k <;> simp [Level.operators, looseness, ofLevel]

/-- The first of some tokens binds what stands in front of it more loosely than `n`. -/
def Loose (n : Nat) (rest : List Token) : Prop :=
  ∃ t more, rest = t :: more ∧ n < looseness t.kind

/-- What binds loosely binds more loosely than anything tighter. -/
theorem Loose.mono {m n : Nat} (hmn : m ≤ n) {rest : List Token} (h : Loose n rest) :
    Loose m rest := by
  obtain ⟨t, more, rfl, ht⟩ := h
  exact ⟨t, more, rfl, Nat.lt_of_le_of_lt hmn ht⟩

/-- What follows is not accepted where only tokens that bind more tightly are. -/
theorem Loose.declined {β : Type} {n : Nat} {rest : List Token} (h : Loose n rest)
    {kinds : List Kind} (heof : Kind.eof ∉ kinds) (hkinds : ∀ k ∈ kinds, looseness k ≤ n)
    {yes no : Reader β} :
    Leads (accept kinds >>= fun b => if b = true then yes else no) [] no rest := by
  obtain ⟨t, more, rfl, ht⟩ := h
  exact .accept_no heof fun hkind => Nat.not_le_of_lt ht (hkinds _ hkind)

/-! ## The readers of the levels -/

/-- The reader of a level. -/
def readLevel (inner : Reader Node) (bound : Nat) : Level → Reader Node
  | .disjunction => disjunction inner bound
  | .conjunction => conjunction inner bound
  | .equality => equality inner bound
  | .comparison => comparison inner bound
  | .term => term inner bound
  | .factor => factor inner bound

/-- The reader of the operands of a level. -/
def readOperand (inner : Reader Node) (bound : Nat) : Level → Reader Node
  | .disjunction => conjunction inner bound
  | .conjunction => equality inner bound
  | .equality => comparison inner bound
  | .comparison => term inner bound
  | .term => factor inner bound
  | .factor => unary inner bound

theorem readLevel_eq (inner : Reader Node) (bound : Nat) (l : Level) :
    readLevel inner bound l =
      leftAssociative l.operators l.join (readOperand inner bound l) bound := by
  cases l <;> rfl

section

variable {inner : Reader Node} {rest : List Token}

/-- Where no operator of the level follows, what has been read is the result. -/
theorem foldOperators_stops {l : Level} {operand : Reader Node} (count : Nat) (e : Node)
    (h : Loose (ofLevel l) rest) :
    Yields (foldOperators l.operators l.join operand count e) [] e rest := by
  cases count with
  | zero =>
      obtain ⟨t, more, rfl, -⟩ := h
      exact Leads.discard_peek
  | succ count =>
      -- an operator of the level is exactly as loose as the level, not looser
      have heof : Kind.eof ∉ l.operators := by cases l <;> decide
      exact h.declined heof fun k hk => Nat.le_of_eq (looseness_of_operator hk)

/-- Where no parenthesis follows there is no further call. -/
theorem foldCalls_stops (count : Nat) (e : Node) (h : Loose 0 rest) :
    Yields (foldCalls inner count e) [] e rest := by
  cases count with
  | zero =>
      obtain ⟨t, more, rfl, -⟩ := h
      exact Leads.discard_peek
  | succ count => exact h.declined (by decide) (by decide)

/-- An operand alone is read as an expression of its level. -/
theorem leftAssociative_operand (bound : Nat) {l : Level} {operand : Reader Node}
    {ts : List Token} {e : Node} (h : Yields operand ts e rest) (hrest : Loose (ofLevel l) rest) :
    Yields (leftAssociative l.operators l.join operand bound) ts e rest :=
  .settle (.bind h) (foldOperators_stops bound e hrest)

/-! ## Primary expressions -/

/-- A constant is its value, after the kinds that are tried before its own have been passed
over. -/
theorem primary_constant {t : Token} {v : Value} (h : t.constant? = some v) :
    Yields (primary inner) [t] (.literal v) rest := by
  rcases Token.constant?_eq_some h with ⟨ht, rfl⟩ | ⟨ht, rfl⟩ | ⟨ht, rfl⟩ | ⟨ht, rfl⟩
  · exact .accept_yes (by decide) (by simp [ht])
  · refine .decline (by decide) (by simp [ht]) ?_
    exact .accept_yes (by decide) (by simp [ht])
  · refine .decline (by decide) (by simp [ht]) (.decline (by decide) (by simp [ht]) ?_)
    exact .accept_yes (by decide) (by simp [ht])
  · -- numbers and strings share a branch, and are none of the constants before
    have hkind : t.kind = .number ∨ t.kind = .string := by simpa using ht
    refine .decline (by decide) (by rcases hkind with h | h <;> simp [h]) ?_
    refine .decline (by decide) (by rcases hkind with h | h <;> simp [h]) ?_
    refine .decline (by decide) (by rcases hkind with h | h <;> simp [h]) ?_
    exact .accept_previous (by decide) ht

/-- A name refers to what is declared under it. -/
theorem primary_name {t : Token} (ht : t.kind = .identifier) :
    Yields (primary inner) [t] (.reference t) rest := by
  refine .decline (by decide) (by simp [ht]) (.decline (by decide) (by simp [ht]) ?_)
  refine .decline (by decide) (by simp [ht]) (.decline (by decide) (by simp [ht]) ?_)
  exact .accept_previous (by decide) (by simp [ht])

/-- Behind a parenthesis an expression is read. -/
theorem primary_grouping {l : Token} (hl : l.kind = .leftParen) :
    Leads (primary inner) [l]
      (inner >>= fun e => discard (consume .rightParen (.expected .parenAfterExpression)) >>=
        fun _ => pure (.grouping e)) rest := by
  refine .decline (by decide) (by simp [hl]) (.decline (by decide) (by simp [hl]) ?_)
  refine .decline (by decide) (by simp [hl]) (.decline (by decide) (by simp [hl]) ?_)
  refine .decline (by decide) (by simp [hl]) ?_
  exact .accept_yes (by decide) (by simp [hl])

/-- Where no expression begins, the next token is to blame. -/
theorem primary_fails {t : Token} (ht : t.kind ∉ primaryStarts) :
    Leads (primary inner) [] (fail (.expected .expression)) (t :: rest) := by
  have hno : ∀ {kinds}, kinds ⊆ primaryStarts → t.kind ∉ kinds := fun hkinds h => ht (hkinds h)
  refine .look (.accept_no (by decide) (hno (by decide))) ?_
  refine .look (.accept_no (by decide) (hno (by decide))) ?_
  refine .look (.accept_no (by decide) (hno (by decide))) ?_
  refine .look (.accept_no (by decide) (hno (by decide))) ?_
  refine .look (.accept_no (by decide) (hno (by decide))) ?_
  exact .accept_no (by decide) (hno (by decide))

/-- What begins like a call has no operator in front of it. -/
theorem unary_leads {t : Token} (ht : t.kind ∈ exprStarts .call) (bound : Nat) :
    Leads (unary inner bound) [] (call inner bound) (t :: rest) := by
  have hnone : ∀ k ∈ [Kind.bang, .minus], k ∉ exprStarts .call := by decide
  cases bound with
  | zero => exact .refl _ _
  | succ bound => exact .accept_no (by decide) fun hop => hnone _ hop ht

/-- A single name is a disjunction where nothing that continues one follows. -/
theorem disjunction_name {n : Token} (hn : n.kind = .identifier) (bound : Nat)
    (h : Loose 6 rest) : Yields (disjunction inner bound) [n] (.reference n) rest := by
  have hcall : Yields (call inner bound) [n] (.reference n) rest :=
    .settle (.bind (primary_name hn)) (foldCalls_stops bound _ (h.mono (by decide)))
  have hunary : Yields (unary inner bound) [n] (.reference n) rest :=
    .look (unary_leads (by rw [hn]; decide) bound) hcall
  -- the name is the only operand of every level, from the inside to the outside
  have hfactor := leftAssociative_operand bound (l := .factor) hunary (h.mono (by decide))
  have hterm := leftAssociative_operand bound (l := .term) hfactor (h.mono (by decide))
  have hcomparison :=
    leftAssociative_operand bound (l := .comparison) hterm (h.mono (by decide))
  have hequality :=
    leftAssociative_operand bound (l := .equality) hcomparison (h.mono (by decide))
  have hconjunction :=
    leftAssociative_operand bound (l := .conjunction) hequality (h.mono (by decide))
  exact leftAssociative_operand bound (l := .disjunction) hconjunction h

end

/-! ## Expressions -/

/-- What is read of the tokens of an expression of a rule. Where the phrase ends in a
repetition, the reader is left in the middle of it. -/
def Completed : Rule → List Token → Node → Prop
  | .primary, ts, e => ∀ b rest, ts.length ≤ b + 1 →
      Yields (primary (expressionWithin b)) ts e rest
  | .call, ts, e => ∀ b bound rest, ts.length ≤ b + 1 → ts.length ≤ bound →
      ∃ count, bound ≤ count + ts.length ∧
        Leads (call (expressionWithin b) bound) ts (foldCalls (expressionWithin b) count e) rest
  | .unary, ts, e => ∀ b bound rest, ts.length ≤ b + 1 → ts.length ≤ bound → Loose 0 rest →
      Yields (unary (expressionWithin b) bound) ts e rest
  | .level l, ts, e => ∀ b rest, ts.length ≤ b + 1 → Loose (ofLevel l - 1) rest →
      ∃ count, b + 1 ≤ count + ts.length ∧
        Leads (readLevel (expressionWithin b) (b + 1) l) ts
          (foldOperators l.operators l.join (readOperand (expressionWithin b) (b + 1) l) count e) rest
  | .arguments, ts, e => ∀ as, e = .list as → ∀ b count seen rest, ts.length ≤ b →
      ts.length ≤ count → seen + as.length ≤ maxArguments → Loose 8 rest →
      Yields (arguments (expressionWithin b) count seen) ts as rest
  | .assignment, ts, e | .expression, ts, e => ∀ b rest, ts.length ≤ b → Loose 7 rest →
      Yields (expressionWithin b) ts e rest
  | _, _, _ => True

/-- The reader of the level below reads an operand to its end, if the operators that follow are
looser. -/
theorem Completed.operand {l : Level} {ts : List Token} {e : Node} (h : Completed l.operand ts e)
    {b : Nat} {rest : List Token} (hb : ts.length ≤ b + 1) (hrest : Loose (ofLevel l - 1) rest) :
    Yields (readOperand (expressionWithin b) (b + 1) l) ts e rest := by
  -- an operand that is itself an expression of a level is read to its end
  have hlevel : ∀ l' : Level, Completed (.level l') ts e → Loose (ofLevel l') rest →
      Yields (readLevel (expressionWithin b) (b + 1) l') ts e rest := by
    intro l' h' hrest'
    obtain ⟨count, -, hread⟩ := h' b rest hb (hrest'.mono (Nat.sub_le _ _))
    exact hread.settle (foldOperators_stops count e hrest')
  cases l with
  | factor => exact h b (b + 1) rest hb hb hrest
  | term => exact hlevel .factor h hrest
  | comparison => exact hlevel .term h hrest
  | equality => exact hlevel .comparison h hrest
  | conjunction => exact hlevel .equality h hrest
  | disjunction => exact hlevel .conjunction h hrest

/-- Nothing is complained about before the arguments are too many. -/
theorem limitArguments_silent {seen : Nat} (h : seen < maxArguments) (rest : List Token) :
    Yields (limitArguments seen) [] () rest := by
  rw [limitArguments, if_neg (by omega)]
  exact .refl _ _

/-- Arguments do not begin with the parenthesis that closes a call. -/
theorem argumentsIfAny_some {b count : Nat} {ys rest : List Token} {as : List Node}
    (has : Expr .arguments ys (.list as))
    (hread : Yields (arguments (expressionWithin b) count 0) ys as rest) :
    Yields (argumentsIfAny (expressionWithin b) count) ys as rest := by
  obtain ⟨t, us, rfl, ht⟩ := has.first
  have hno : t.kind ≠ .rightParen := fun h => by
    rw [h] at ht
    exact absurd ht (by decide)
  exact .look (.check_no (by decide) hno) hread

/-- Every expression is read. -/
theorem expr_completed {r : Rule} {ts : List Token} {e : Node} (h : Expr r ts e) :
    Completed r ts e := by
  induction h with
  | constant ht => exact fun b rest _ => primary_constant ht
  | name ht => exact fun b rest _ => primary_name ht
  | @grouping l r ts e hl he hr ih =>
      intro b rest hb
      have hlength : ts.length ≤ b := by simp at hb; omega
      have hloose : Loose 7 ([r] ++ rest) := ⟨r, rest, rfl, by simp [hr, looseness]⟩
      refine .pass (primary_grouping hl) ?_
      exact .trans (.bind (ih b _ hlength hloose)) (.discard_consume (by decide) hr)
  | @primary ts e _ ih =>
      intro b bound rest hb hbound
      exact ⟨bound, Nat.le_add_right _ _, .bind (ih b rest hb)⟩
  | @callAlone l r ts f _ hl hr ih =>
      intro b bound rest hb hbound
      simp only [List.length_append, List.length_cons, List.length_nil] at hb hbound
      -- what is called leaves the reader in its loop, with rounds left for this call
      obtain ⟨count, hcount, hread⟩ := ih b bound ([l, r] ++ rest) (by omega) (by omega)
      obtain ⟨count, rfl⟩ : ∃ n, count = n + 1 := ⟨count - 1, by omega⟩
      refine ⟨count, by simp; omega, .trans hread (.pass (.accept_yes (by decide) (by simp [hl])) ?_)⟩
      refine .bind (.look (.bind (.look (.check_yes (by decide) hr) (.refl _ _))) ?_)
      exact .consume (by decide) hr
  | @callWith l r xs ys f as _ hl has hlimit hr ihf ihas =>
      intro b bound rest hb hbound
      rw [List.append_assoc] at hb hbound ⊢
      simp only [List.length_append, List.length_cons, List.length_nil] at hb hbound
      obtain ⟨count, hcount, hread⟩ := ihf b bound ((l :: ys ++ [r]) ++ rest) (by omega) (by omega)
      obtain ⟨count, rfl⟩ : ∃ n, count = n + 1 := ⟨count - 1, by omega⟩
      have hloose : Loose 8 ([r] ++ rest) := ⟨r, rest, rfl, by simp [hr, looseness]⟩
      have hargs := argumentsIfAny_some has
        (ihas as rfl b count 0 _ (by omega) (by omega) (by omega) hloose)
      refine ⟨count, by simp; omega, .trans hread (.pass (.accept_yes (by decide) (by simp [hl])) ?_)⟩
      exact .bind (.trans (.bind hargs) (.consume (by decide) hr))
  | @lastArgument ts a ha ih =>
      rintro as ⟨⟩ b count seen rest hb hcount hseen hrest
      -- an argument has a token, so there is a round left for it
      obtain ⟨t, us, rfl, -⟩ := ha.first
      obtain ⟨count, rfl⟩ : ∃ n, count = n + 1 := ⟨count - 1, by simp at hcount; omega⟩
      have hlimit : seen < maxArguments := by simp at hseen; omega
      refine .look (.bind (limitArguments_silent hlimit _)) ?_
      refine .settle (.bind (ih b rest hb (hrest.mono (by decide)))) ?_
      exact hrest.declined (by decide) (by decide)
  | @argument c xs ys a as _ hc _ iha ihas =>
      rintro _ ⟨⟩ b count seen rest hb hcount hseen hrest
      simp only [List.length_append, List.length_cons] at hb hcount hseen
      obtain ⟨count, rfl⟩ : ∃ n, count = n + 1 := ⟨count - 1, by omega⟩
      have hloose : Loose 7 (c :: ys ++ rest) := ⟨c, ys ++ rest, rfl, by simp [hc, looseness]⟩
      refine .look (.bind (limitArguments_silent (by omega) _)) ?_
      refine .trans (.bind (iha b _ (by omega) hloose)) ?_
      refine .pass (.accept_yes (by decide) (by simp [hc])) ?_
      exact .bind (ihas as rfl b count (seen + 1) rest (by omega) (by omega) (by omega) hrest)
  | @call ts e he ih =>
      intro b bound rest hb hbound hrest
      obtain ⟨count, -, hread⟩ := ih b bound rest hb hbound
      obtain ⟨t, us, rfl, ht⟩ := he.first
      exact .look (unary_leads ht bound) (hread.settle (foldCalls_stops count e hrest))
  | @unary o ts e ho _ ih =>
      intro b bound rest hb hbound hrest
      simp only [List.length_cons] at hb hbound
      obtain ⟨bound, rfl⟩ : ∃ n, bound = n + 1 := ⟨bound - 1, by omega⟩
      refine .pass (.accept_previous (by decide) ho) (.bind (ih b bound rest ?_ ?_ hrest))
      · omega
      · omega
  | @operand l ts e _ ih =>
      intro b rest hb hrest
      refine ⟨b + 1, Nat.le_add_right _ _, ?_⟩
      rw [readLevel_eq]
      exact .bind (Completed.operand (by cases l <;> exact ih) hb hrest)
  | @operation l o xs ys x y _ ho _ ihx ihy =>
      intro b rest hb hrest
      simp only [List.length_append, List.length_cons] at hb
      -- the operator ends the left operand, since it binds more loosely than what is in it
      have hop : Loose (ofLevel l - 1) (o :: ys ++ rest) := by
        refine ⟨o, ys ++ rest, rfl, ?_⟩
        rw [looseness_of_operator ho]
        cases l <;> decide
      obtain ⟨count, hcount, hread⟩ := ihx b _ (by omega) hop
      obtain ⟨count, rfl⟩ : ∃ n, count = n + 1 := ⟨count - 1, by omega⟩
      have heof : Kind.eof ∉ l.operators := by cases l <;> decide
      refine ⟨count, by simp; omega, .trans hread (.pass (.accept_previous heof ho) ?_)⟩
      exact .bind (Completed.operand (by cases l <;> exact ihy) (by omega) hrest)
  | @disjunction ts e he ih =>
      intro b rest hb hrest
      obtain ⟨t, us, rfl, -⟩ := he.first
      obtain ⟨b, rfl⟩ : ∃ n, b = n + 1 := ⟨b - 1, by simp at hb; omega⟩
      obtain ⟨count, -, hread⟩ := ih b rest hb (hrest.mono (by decide))
      have htarget := hread.settle (foldOperators_stops count e (hrest.mono (by decide)))
      exact .settle (.bind htarget) (hrest.declined (by decide) (by decide))
  | @assignment n q ts e hn hq _ ih =>
      intro b rest hb hrest
      simp only [List.length_cons] at hb
      obtain ⟨b, rfl⟩ : ∃ n, b = n + 1 := ⟨b - 1, by omega⟩
      -- the name is read as a disjunction, which the equals sign ends
      have hloose : Loose 6 (q :: ts ++ rest) := ⟨q, ts ++ rest, rfl, by simp [hq, looseness]⟩
      refine .trans (.bind (disjunction_name hn (b + 1) hloose)) ?_
      exact .pass (.accept_previous (by decide) (by simp [hq])) (.bind (ih b rest (by omega) hrest))
  | whole _ ih => exact ih

/-! ## Statements -/

section

variable {b : Nat} {t : Token} {ts rest : List Token}

/-- An expression is read to its end in front of a token that no expression goes on with. -/
theorem expression_yields {e : Node} (h : Expr .expression ts e) (hb : ts.length ≤ b)
    (ht : 7 < looseness t.kind) : Yields (expressionWithin b) ts e (t :: rest) :=
  expr_completed h b _ hb ⟨t, rest, rfl, ht⟩

theorem not_first {k : Kind} (ht : t.kind ∈ exprStarts .expression)
    (hk : k ∉ exprStarts .expression) : t.kind ≠ k :=
  fun h => hk (h ▸ ht)

/-- Behind a token of the kind the reader goes on. -/
theorem ifAfter_yes {k : Kind} (hk : k ≠ .eof) (ht : t.kind = k) {r : Reader Node} :
    Leads (ifAfter k r) [t] r rest :=
  .accept_yes (by simpa using hk.symm) (by simp [ht])

/-- Without one a part is missing. -/
theorem ifAfter_no {k : Kind} (hk : k ≠ .eof) (ht : t.kind ≠ k) {r : Reader Node} :
    Yields (ifAfter k r) [] .absent (t :: rest) :=
  .accept_no (by simpa using hk.symm) (by simpa using ht)

/-- A clause of a loop ends at its semicolon or parenthesis, and is missing where that comes
first. -/
theorem unlessAt_yields {k : Kind} (hk : k = .semicolon ∨ k = .rightParen) {e : Node}
    (h : Maybe ts e) (hb : ts.length ≤ b) (ht : t.kind = k) :
    Yields (unlessAt k (expressionWithin b)) ts e (t :: rest) := by
  have heof : k ≠ .eof := by rcases hk with rfl | rfl <;> decide
  cases h with
  | absent => exact .check_yes heof ht
  | present he =>
      have hloose : 7 < looseness t.kind := by rw [ht]; rcases hk with rfl | rfl <;> decide
      have hread : Yields (expressionWithin b) ts e (t :: rest) := expression_yields he hb hloose
      obtain ⟨u, us, rfl, hu⟩ := he.first
      have hno : u.kind ≠ k := not_first hu (by rcases hk with rfl | rfl <;> decide)
      exact .look (.check_no heof hno) hread

/-- A declaration is read behind its keyword. -/
theorem varDeclaration_yields {v : Token} {s : Node} (h : Simple .varDecl (v :: ts) s)
    (hb : ts.length ≤ b) : Yields (varDeclaration (expressionWithin b)) ts s rest := by
  cases h with
  | bare _ hn hs =>
      refine .pass (.consume (by decide) hn) ?_
      -- the semicolon comes where the equals sign might
      refine .look (.bind (ifAfter_no (by decide) (by rw [hs]; decide))) ?_
      exact .discard_consume (by decide) hs
  | @initialized _ n q s ts e _ hn hq he hs =>
      have hlength : ts.length ≤ b := by simp at hb; omega
      refine .pass (.consume (by decide) hn) ?_
      refine .trans (.bind (.pass (ifAfter_yes (by decide) hq) (expression_yields he hlength ?_))) ?_
      · rw [hs]; decide
      · exact .discard_consume (by decide) hs

theorem expressionStatement_yields {s : Node} (h : Simple .exprStmt ts s) (hb : ts.length ≤ b) :
    Yields (expressionStatement (expressionWithin b)) ts s rest := by
  cases h with
  | expression he hs =>
      simp only [List.length_append, List.length_cons] at hb
      refine .trans (.bind (expression_yields he (by omega) ?_)) (.discard_consume (by decide) hs)
      rw [hs]; decide

theorem printStatement_yields {p : Token} {s : Node} (h : Simple .printStmt (p :: ts) s)
    (hb : ts.length ≤ b) : Yields (printStatement (expressionWithin b)) ts s rest := by
  cases h with
  | print _ he hs =>
      simp only [List.append_eq, List.length_append, List.length_cons] at hb
      refine .trans (.bind (expression_yields he (by omega) ?_)) (.discard_consume (by decide) hs)
      rw [hs]; decide

/-- What a loop begins with is told by its first token. -/
theorem forInitializer_yields {i : Node} (h : Initializer ts i) (hb : ts.length ≤ b) :
    Yields (forInitializer (expressionWithin b)) ts i rest := by
  cases h with
  | absent hs => exact .accept_yes (by decide) (by simp [hs])
  | varDecl h =>
      obtain ⟨v, us, rfl, hv⟩ := h.first
      refine .look (.accept_no (by decide) (by simp [List.mem_singleton.mp hv])) ?_
      refine .pass (.accept_yes (by decide) hv) (varDeclaration_yields h ?_)
      exact Nat.le_of_succ_le hb
  | exprStmt h =>
      obtain ⟨t, us, rfl, ht⟩ := h.first
      have hsemicolon : t.kind ≠ .semicolon := not_first ht (by decide)
      have hvar : t.kind ≠ .kwVar := not_first ht (by decide)
      refine .look (.accept_no (by decide) (by simpa using hsemicolon)) ?_
      refine .look (.accept_no (by decide) (by simpa using hvar)) ?_
      exact expressionStatement_yields h hb

end

/-- What is read of the tokens of a part of a program. -/
def StmtCompleted : Part → Bool → List Token → Node → Prop
  | .statement, d, ts, s => ∀ b t rest, ts.length ≤ b → Settled d (t :: rest) →
      Yields (statementWithin b) ts s (t :: rest)
  | .declaration, d, ts, s => ∀ b b' t rest, ts.length ≤ b → ts.length ≤ b' →
      Settled d (t :: rest) →
      Yields (declarationWith (expressionWithin b) (statementWithin b')) ts (some s) (t :: rest)
  | .declarations, _, ts, s => ∀ ss, s = .list ss →
      (∀ b b' count t rest, ts.length ≤ b → ts.length ≤ b' → ts.length ≤ count →
        t.kind = .rightBrace →
        Yields (declarationsToBrace (declarationWith (expressionWithin b) (statementWithin b')) count)
          ts ss (t :: rest)) ∧
      (∀ b count t rest, ts.length ≤ b → ts.length ≤ count → t.kind = .eof →
        Yields (declarationsToEnd (declarationWithin b) count) ts ss (t :: rest))

/-! The first token of a statement determines which reader goes on. -/

section

variable {b : Nat} {t : Token} {rest : List Token}

theorem for_leads (ht : t.kind = .kwFor) : Leads (statementWithin (b + 1)) [t]
    (forStatement (expressionWithin (b + 1)) (statementWithin b)) rest :=
  .accept_yes (by decide) (by simp [ht])

theorem if_leads (ht : t.kind = .kwIf) : Leads (statementWithin (b + 1)) [t]
    (ifStatement (expressionWithin (b + 1)) (statementWithin b)) rest := by
  refine .look (.accept_no (by decide) (by simp [ht])) ?_
  exact .accept_yes (by decide) (by simp [ht])

theorem print_leads (ht : t.kind = .kwPrint) : Leads (statementWithin (b + 1)) [t]
    (printStatement (expressionWithin (b + 1))) rest := by
  refine .look (.accept_no (by decide) (by simp [ht])) ?_
  refine .look (.accept_no (by decide) (by simp [ht])) ?_
  exact .accept_yes (by decide) (by simp [ht])

theorem while_leads (ht : t.kind = .kwWhile) : Leads (statementWithin (b + 1)) [t]
    (whileStatement (expressionWithin (b + 1)) (statementWithin b)) rest := by
  refine .look (.accept_no (by decide) (by simp [ht])) ?_
  refine .look (.accept_no (by decide) (by simp [ht])) ?_
  refine .look (.accept_no (by decide) (by simp [ht])) ?_
  exact .accept_yes (by decide) (by simp [ht])

theorem block_leads (ht : t.kind = .leftBrace) : Leads (statementWithin (b + 1)) [t]
    (blockWith (declarationWith (expressionWithin (b + 1)) (statementWithin b)) b >>=
      fun ss => pure (.block ss)) rest := by
  refine .look (.accept_no (by decide) (by simp [ht])) ?_
  refine .look (.accept_no (by decide) (by simp [ht])) ?_
  refine .look (.accept_no (by decide) (by simp [ht])) ?_
  refine .look (.accept_no (by decide) (by simp [ht])) ?_
  exact .accept_yes (by decide) (by simp [ht])

/-- A statement that begins like an expression is one. -/
theorem expression_leads (ht : t.kind ∈ exprStarts .expression) :
    Leads (statementWithin (b + 1)) [] (expressionStatement (expressionWithin (b + 1)))
      (t :: rest) := by
  have hnot : ∀ k ∉ exprStarts .expression, t.kind ∉ [k] := fun k hk => by
    simpa using not_first ht hk
  refine .look (.accept_no (by decide) (hnot .kwFor (by decide))) ?_
  refine .look (.accept_no (by decide) (hnot .kwIf (by decide))) ?_
  refine .look (.accept_no (by decide) (hnot .kwPrint (by decide))) ?_
  refine .look (.accept_no (by decide) (hnot .kwWhile (by decide))) ?_
  exact .accept_no (by decide) (hnot .leftBrace (by decide))

end

/-- No `else` follows a declaration: what follows is another one, or the end of them. -/
theorem declarations_settle {ys : List Token} {d : Bool} {n : Node} {t : Token}
    (h : Stmt .declarations d ys n) (ht : t.kind ≠ .kwElse) (rest : List Token) :
    ∃ u more, ys ++ t :: rest = u :: more ∧ ∀ d, Settled d (u :: more) := by
  have hsettled : ∀ (u : Token) (more : List Token), u.kind ≠ .kwElse →
      ∀ d, Settled d (u :: more) := fun u more hu d _ => by simpa using hu
  cases h with
  | none => exact ⟨t, rest, rfl, hsettled t rest ht⟩
  | cons hs =>
      obtain ⟨u, us, rfl, hu⟩ := hs.first (by simp)
      refine ⟨u, _, rfl, hsettled u _ fun helse => ?_⟩
      rw [helse] at hu
      exact absurd hu (by decide)

/-- Every part of a program is read. -/
theorem stmt_completed {p : Part} {d : Bool} {ts : List Token} {s : Node} (h : Stmt p d ts s) :
    StmtCompleted p d ts s := by
  induction h with
  | @exprStmt ts s h =>
      intro b u rest hb _
      obtain ⟨t, us, rfl, ht⟩ := h.first
      obtain ⟨b, rfl⟩ : ∃ n, b = n + 1 := ⟨b - 1, by simp at hb; omega⟩
      exact .look (expression_leads ht) (expressionStatement_yields h hb)
  | @printStmt ts s h =>
      intro b u rest hb _
      obtain ⟨p, us, rfl, hp⟩ := h.first
      simp only [List.length_cons] at hb
      obtain ⟨b, rfl⟩ : ∃ n, b = n + 1 := ⟨b - 1, by omega⟩
      exact .pass (print_leads (List.mem_singleton.mp hp)) (printStatement_yields h (by omega))
  | @forLoop d f l s r is cs ns bs i c n body hf hl hi hc hs hn hr _ ih =>
      intro b u rest hb hsettled
      have hts : f :: l :: is ++ cs ++ s :: ns ++ r :: bs =
          f :: l :: (is ++ (cs ++ s :: (ns ++ r :: bs))) := by simp
      rw [hts] at hb ⊢
      simp only [List.length_cons, List.length_append] at hb
      obtain ⟨b, rfl⟩ : ∃ n, b = n + 1 := ⟨b - 1, by omega⟩
      refine .pass (for_leads hf) (.pass (.discard_consume (by decide) hl) ?_)
      refine .trans (.bind (forInitializer_yields hi (by omega))) ?_
      refine .trans (.bind (unlessAt_yields (.inl rfl) hc (by omega) hs)) ?_
      refine .pass (.discard_consume (by decide) hs) ?_
      refine .trans (.bind (unlessAt_yields (.inr rfl) hn (by omega) hr)) ?_
      exact .pass (.discard_consume (by decide) hr) (.bind (ih b u rest (by omega) hsettled))
  | @whileLoop d w l r cs bs c body hw hl hc hr _ ih =>
      intro b u rest hb hsettled
      simp only [List.length_cons, List.length_append, List.cons_append] at hb ⊢
      obtain ⟨b, rfl⟩ : ∃ n, b = n + 1 := ⟨b - 1, by omega⟩
      refine .pass (while_leads hw) (.pass (.discard_consume (by decide) hl) ?_)
      refine .trans (.bind (expression_yields hc (by omega) (by rw [hr]; decide))) ?_
      exact .pass (.discard_consume (by decide) hr) (.bind (ih b u rest (by omega) hsettled))
  | @ifAlone d i l r cs ts c t hi hl hc hr _ ih =>
      intro b u rest hb hsettled
      simp only [List.length_cons, List.length_append, List.cons_append] at hb ⊢
      obtain ⟨b, rfl⟩ : ∃ n, b = n + 1 := ⟨b - 1, by omega⟩
      -- the statement dangles, so what follows it is no `else`
      have hu : u.kind ≠ .kwElse := hsettled rfl u rfl
      refine .pass (if_leads hi) (.pass (.discard_consume (by decide) hl) ?_)
      refine .trans (.bind (expression_yields hc (by omega) (by rw [hr]; decide))) ?_
      refine .pass (.discard_consume (by decide) hr) ?_
      exact .settle (.bind (ih b u rest (by omega) fun _ => hsettled rfl))
        (.bind (ifAfter_no (by decide) hu))
  | @ifElse d i l r o cs ts es c t e hi hl hc hr _ ho _ iht ihe =>
      intro b u rest hb hsettled
      have hts : i :: l :: cs ++ r :: ts ++ o :: es = i :: l :: (cs ++ r :: (ts ++ o :: es)) := by
        simp
      rw [hts] at hb ⊢
      simp only [List.length_cons, List.length_append] at hb
      obtain ⟨b, rfl⟩ : ∃ n, b = n + 1 := ⟨b - 1, by omega⟩
      refine .pass (if_leads hi) (.pass (.discard_consume (by decide) hl) ?_)
      refine .trans (.bind (expression_yields hc (by omega) (by rw [hr]; decide))) ?_
      refine .pass (.discard_consume (by decide) hr) ?_
      -- the first branch does not dangle, so it is read to its end in front of the `else`
      refine .trans (.bind (iht b o _ (by omega) (settled_false _))) ?_
      exact .bind (.pass (ifAfter_yes (by decide) ho) (ihe b u rest (by omega) hsettled))
  | @block l r ts ss hl _ hr ih =>
      intro b u rest hb _
      simp only [List.length_cons, List.length_append, List.cons_append] at hb ⊢
      obtain ⟨b, rfl⟩ : ∃ n, b = n + 1 := ⟨b - 1, by omega⟩
      have hread := (ih ss rfl).1 (b + 1) b b r (u :: rest) (by omega) (by omega) (by omega) hr
      exact .pass (block_leads hl) (.bind (.trans (.bind hread) (.discard_consume (by decide) hr)))
  | @varDecl ts s h =>
      intro b b' u rest hb _ _
      obtain ⟨v, us, rfl, hv⟩ := h.first
      refine Yields.recovering (.pass (.accept_yes (by decide) hv) ?_)
      exact varDeclaration_yields h (Nat.le_of_succ_le hb)
  | @statement d ts s h ih =>
      intro b b' u rest _ hb' hsettled
      obtain ⟨t, us, rfl, ht⟩ := h.first (by simp)
      -- a statement does not begin with the keyword of a declaration
      have hvar : t.kind ∉ [Kind.kwVar] := fun hv => by
        rw [List.mem_singleton.mp hv] at ht
        exact absurd ht (by decide)
      exact Yields.recovering (.look (.accept_no (by decide) hvar) (ih b' u rest hb' hsettled))
  | none =>
      rintro ss ⟨⟩
      constructor
      · intro b b' count u rest _ _ _ hu
        cases count with
        | zero => exact .discard_peek
        | succ count => exact .check_yes (by decide) hu
      · intro b count u rest _ _ hu
        cases count with
        | zero => exact .discard_peek
        | succ count => exact .look .isAtEnd (by simpa [hu] using Leads.refl _ _)
  | @cons d xs ys s ss hs hss ihs ihss =>
      rintro _ ⟨⟩
      obtain ⟨t, us, rfl, ht⟩ := hs.first (by simp)
      have hbrace : t.kind ≠ .rightBrace := fun h => by
        rw [h] at ht
        exact absurd ht (by decide)
      have heof : (t.kind == .eof) = false := by
        rw [beq_eq_false_iff_ne]
        intro h
        rw [h] at ht
        exact absurd ht (by decide)
      simp only [List.length_append, List.length_cons]
      -- in a block and in a program: the first declaration, and then the others behind it
      constructor
      · intro b b' count u rest hb hb' hcount hu
        obtain ⟨count, rfl⟩ : ∃ n, count = n + 1 := ⟨count - 1, by omega⟩
        obtain ⟨v, more, heq, hsettled⟩ := declarations_settle hss (by rw [hu]; decide) rest
        have hfirst := ihs b b' v more (by simp; omega) (by simp; omega) (hsettled d)
        rw [← heq] at hfirst
        have hmore := (ihss ss rfl).1 b b' count u rest (by omega) (by omega) (by omega) hu
        refine .look (.check_no (by decide) hbrace) (.look .isAtEnd ?_)
        simp only [heof]
        exact .trans (.bind hfirst) (.bind hmore)
      · intro b count u rest hb hcount hu
        obtain ⟨count, rfl⟩ : ∃ n, count = n + 1 := ⟨count - 1, by omega⟩
        obtain ⟨v, more, heq, hsettled⟩ := declarations_settle hss (by rw [hu]; decide) rest
        have hfirst := ihs b b v more (by simp; omega) (by simp; omega) (hsettled d)
        rw [← heq] at hfirst
        have hmore := (ihss ss rfl).2 b count u rest (by omega) (by omega) hu
        refine .look .isAtEnd ?_
        simp only [heof]
        exact .trans (.bind hfirst) (.bind hmore)

/-- Every program is read, with its statements, and nothing is reported. -/
theorem read_complete {tokens : List Token} {stop : Token} {ss : List Node}
    (h : Program tokens ss) (hstop : stop.kind = .eof) (r : Report) :
    read (tokens ++ [stop]) r = (ss, r) := by
  have hread := (stmt_completed h ss rfl).2 (tokens.length + 1) (tokens.length + 1) stop []
    (Nat.le_succ _) (Nat.le_succ _) hstop [] r
  have hprogram : program.run ⟨[], tokens ++ [stop], r⟩ =
      (declarationsToEnd (declarationWithin (tokens.length + 1)) (tokens.length + 1)).run
        ⟨[], tokens ++ [stop], r⟩ := by
    rw [program]
    refine (run_bind_ok (a := (tokens ++ [stop]).length) rfl).trans ?_
    rw [List.length_append, List.length_singleton]
  rw [read, hprogram, hread]
  rfl

end NovaLang.Descent
