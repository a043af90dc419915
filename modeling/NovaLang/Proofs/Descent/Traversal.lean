import Mathlib.Data.List.Forall2
import NovaLang.Proofs.Descent.Steady
import NovaLang.Proofs.Phrase

namespace NovaLang

/-- How tightly the operators of a level bind. -/
def Level.precedence : Level → Nat
  | .disjunction => 1
  | .conjunction => 2
  | .equality => 3
  | .comparison => 4
  | .term => 5
  | .factor => 6

/-- Where a statement stands: in a program or a block, or as the body of another statement. -/
inductive Node.Position where
  | inSequence | asBody

namespace Descent

open Node

/-! # The readers of the descent, walked through once

A property of two readers that every single step keeps holds of the readers of all rules. The
steps are the constructors of `Descends`, the least such property, and here every rule is shown
to be made of them. A fact about readers is then proved by induction on `Descends`, one case for
each step, and where a rule is read differently only this module is concerned. Two readers
are spoken of, since some facts compare one reader with another.
-/

/-! ## What readers have in common -/

/-- What a reader may do at a syntax error. -/
inductive Manner where
  /-- It may stop there, and looks at nothing but what is near. -/
  | near
  /-- It may stop there, and has perhaps gone on after others, for which it looks back. -/
  | far
  /-- It never stops at one. -/
  | safe
  deriving DecidableEq

/-- A reader of the manner may stop at a syntax error. -/
def Manner.Fails : Manner → Prop
  | .near | .far => True
  | .safe => False

/-- A part of a tree that may be missing is missing from both trees, or related. -/
def IfPresent (R : Node → Node → Prop) (e e' : Node) : Prop :=
  (e = .absent ↔ e' = .absent) ∧ (e ≠ .absent → R e e')

/-- Two parts that are missing are related, whatever the relation. -/
theorem IfPresent.absent {R : Node → Node → Prop} : IfPresent R .absent .absent :=
  ⟨Iff.rfl, fun h => absurd rfl h⟩

/-- Which tokens and trees count as alike: expressions by how tightly they bind at least, and
statements by where they stand. Trees with parts that are alike are alike. -/
structure Likeness where
  token : Token → Token → Prop
  expression : Nat → Node → Node → Prop
  statement : Position → Node → Node → Prop
  /-- The bounds of two readers may differ, if no more tokens are in sight than both allow. -/
  elastic : Prop
  literal (v : Value) : expression 9 (.literal v) (.literal v)
  constant {t t' : Token} : token t t' → expression 9 (.literal t.literal) (.literal t'.literal)
  reference {t t' : Token} :
    token t t' → t.kind = .identifier → expression 9 (.reference t) (.reference t')
  grouping {e e' : Node} : expression 0 e e' → expression 9 (.grouping e) (.grouping e')
  call {f f' : Node} {p p' : Token} {as as' : List Node} :
    expression 8 f f' → token p p' → p.kind = .rightParen → List.Forall₂ (expression 0) as as' →
    expression 8 (.call f p as) (.call f' p' as')
  unary {o o' : Token} {e e' : Node} :
    token o o' → o.kind ∈ [Kind.bang, .minus] → expression 7 e e' →
    expression 7 (.unary o e) (.unary o' e')
  join {l : Level} {a a' b b' : Node} {o o' : Token} :
    expression l.precedence a a' → token o o' → o.kind ∈ l.operators →
    expression (l.precedence + 1) b b' → expression l.precedence (l.join a o b) (l.join a' o' b')
  /-- What is like a name is a name, and is assigned to in its place. -/
  assign {n : Token} {e v v' : Node} : expression 0 (.reference n) e → expression 0 v v' →
    ∃ n', e = .reference n' ∧ expression 0 (.assign n v) (.assign n' v')
  name {e : Node} {n' : Token} : expression 0 e (.reference n') → ∃ n, e = .reference n
  looser {j k : Nat} {e e' : Node} : j ≤ k → expression k e e' → expression j e e'
  there {e e' : Node} : expression 0 e e' → (e = .absent ↔ e' = .absent)
  evaluated {e e' : Node} :
    expression 0 e e' → statement .asBody (.expression e) (.expression e')
  printed {e e' : Node} : expression 0 e e' → statement .asBody (.print e) (.print e')
  declared {n n' : Token} {e e' : Node} :
    token n n' → n.kind = .identifier → IfPresent (expression 0) e e' →
    statement .inSequence (.var n e) (.var n' e')
  block {ss ss' : List Node} :
    List.Forall₂ (statement .inSequence) ss ss' → statement .asBody (.block ss) (.block ss')
  branch {c c' s s' e e' : Node} :
    expression 0 c c' → statement .asBody s s' → IfPresent (statement .asBody) e e' →
    statement .asBody (.branch c s e) (.branch c' s' e')
  loop {c c' s s' : Node} :
    expression 0 c c' → statement .asBody s s' → statement .asBody (.loop c s) (.loop c' s')
  inSequence {s s' : Node} : statement .asBody s s' → statement .inSequence s s'
  stands {p : Position} {s s' : Node} : statement p s s' → (s = .absent ↔ s' = .absent)

namespace Likeness

variable (C : Likeness)

/-- The block that a `for` stands for is made of the statements of its clauses. -/
theorem forLoop {i i' c c' n n' b b' : Node} (hi : IfPresent (C.statement .inSequence) i i')
    (hc : IfPresent (C.expression 0) c c') (hn : IfPresent (C.expression 0) n n')
    (hb : C.statement .asBody b b') :
    C.statement .asBody (Descent.forLoop i c n b) (Descent.forLoop i' c' n' b') := by
  -- the step, if there is one, comes after the body in every round
  have hrounds : List.Forall₂ (C.statement .inSequence) (forRounds n b) (forRounds n' b') := by
    by_cases h : n = .absent
    · rw [h, hn.1.mp h]
      exact .cons (C.inSequence hb) .nil
    · rw [forRounds_present h, forRounds_present (mt hn.1.mpr h)]
      exact .cons (C.inSequence hb) (.cons (C.inSequence (C.evaluated (hn.2 h))) .nil)
  -- a missing test is `true`, which is like itself
  have htest : C.expression 0 (forTest c) (forTest c') := by
    by_cases h : c = .absent
    · rw [h, hc.1.mp h]
      exact C.looser (Nat.zero_le 9) (C.literal _)
    · rw [forTest_present h, forTest_present (mt hc.1.mpr h)]
      exact hc.2 h
  have hloop := C.inSequence (C.loop htest (C.block hrounds))
  rw [forLoop_eq, forLoop_eq]
  -- the beginning stays outside of the loop
  by_cases h : i = .absent
  · rw [h, hi.1.mp h]
    exact C.block (.cons hloop .nil)
  · rw [forBlock_present h, forBlock_present (mt hi.1.mpr h)]
    exact C.block (.cons (hi.2 h) (.cons hloop .nil))

/-- With so many tokens in sight, two readers may have these bounds. -/
def Fits (n bound bound' : Nat) : Prop :=
  bound = bound' ∨ C.elastic ∧ n ≤ bound ∧ n ≤ bound'

variable {C}

/-- Equal bounds fit however many tokens are in sight. -/
theorem Fits.refl (n bound : Nat) : C.Fits n bound bound := .inl rfl

/-- Bounds that fit still fit inside, where a token has been passed. -/
theorem Fits.pred {n b b' : Nat} (h : C.Fits n b b') : C.Fits (n - 1) (b - 1) (b' - 1) := by
  rcases h with rfl | ⟨helastic, hb, hb'⟩
  · exact .inl rfl
  · exact .inr ⟨helastic, Nat.sub_le_sub_right hb 1, Nat.sub_le_sub_right hb' 1⟩

/-- Bounds that fit inside fit one token earlier. -/
theorem Fits.succ {n b b' : Nat} (h : C.Fits (n - 1) b b') : C.Fits n (b + 1) (b' + 1) := by
  rcases h with rfl | ⟨helastic, hb, hb'⟩
  · exact .inl rfl
  · exact .inr ⟨helastic, by omega, by omega⟩

protected theorem Fits.mono {m n b b' : Nat} (h : C.Fits n b b') (hm : m ≤ n) : C.Fits m b b' := by
  rcases h with rfl | ⟨helastic, hb, hb'⟩
  · exact .inl rfl
  · exact .inr ⟨helastic, Nat.le_trans hm hb, Nat.le_trans hm hb'⟩

/-- Induction on two bounds. Where one of them is used up before the other, nothing is in sight. -/
theorem Fits.induction {P : ∀ n b b', C.Fits n b b' → Prop} (zero : ∀ n, P n 0 0 (.inl rfl))
    (blind : ∀ (helastic : C.elastic) b b',
      P 0 b b' (.inr ⟨helastic, Nat.zero_le b, Nat.zero_le b'⟩))
    (succ : ∀ n b b' (h : C.Fits (n - 1) b b'), P (n - 1) b b' h → P n (b + 1) (b' + 1) h.succ) :
    ∀ n b b' (h : C.Fits n b b'), P n b b' h := by
  -- equal bounds are used up together, and different ones only after the tokens in sight
  rintro n b b' (rfl | ⟨helastic, hb, hb'⟩)
  · induction b generalizing n with
    | zero => exact zero n
    | succ b ih => exact succ n b b (.inl rfl) (ih (n - 1))
  · induction n generalizing b b' with
    | zero => exact blind helastic b b'
    | succ n ih =>
        obtain ⟨b, rfl⟩ : ∃ a, b = a + 1 := ⟨b - 1, by omega⟩
        obtain ⟨b', rfl⟩ : ∃ a, b' = a + 1 := ⟨b' - 1, by omega⟩
        have hless := Nat.le_of_succ_le_succ hb
        have hless' := Nat.le_of_succ_le_succ hb'
        exact succ (n + 1) b b' (.inr ⟨helastic, hless, hless'⟩) (ih b b' hless hless')

end Likeness

/-! ## Readers made of steps -/

/-- Two readers are made of the same steps, in the given manner. With no more than `n` tokens in
sight each passes `d` tokens at least for a result, and their results are related by `V`. -/
inductive Descends (C : Likeness) :
    Manner → (n d : Nat) → {α : Type} → (V : α → α → Prop) → Reader α → Reader α → Prop where
  | pure {m : Manner} {n : Nat} {α : Type} {V : α → α → Prop} {a a' : α} :
      V a a' → Descends C m n 0 V (pure a) (pure a')
  | bind {m : Manner} {n d k : Nat} {α β : Type} {V : α → α → Prop} {W : β → β → Prop}
      {r r' : Reader α} {f f' : α → Reader β} :
      Descends C m n d V r r' →
      (∀ a a', V a a' → Descends C m (n - d) (k - d) W (f a) (f' a')) →
      Descends C m n k W (r >>= f) (r' >>= f')
  | weaken {m : Manner} {n n' d d' : Nat} {α : Type} {V W : α → α → Prop} {r r' : Reader α} :
      Descends C m n d V r r' → n' ≤ n → d' ≤ d → (∀ a a', V a a' → W a a') →
      Descends C m n' d' W r r'
  | far {m : Manner} {n d : Nat} {α : Type} {V : α → α → Prop} {r r' : Reader α} :
      Descends C m n d V r r' → Descends C .far n d V r r'
  | blind {m : Manner} {d : Nat} {α : Type} {V : α → α → Prop} {r r' : Reader α} :
      C.elastic → Looks r → Looks r' → Descends C m 0 d V r r'
  | peek {m : Manner} {n : Nat} : Descends C m n 0 C.token peek peek
  | complain {m : Manner} {n : Nat} {t t' : Token} (complaint : Complaint) :
      C.token t t' →
      Descends C m n 0 (fun _ _ => True) (complain t complaint) (complain t' complaint)
  | fail {m : Manner} {n d : Nat} {α : Type} {V : α → α → Prop} (complaint : Complaint) :
      m.Fails → Descends C m n d V (fail complaint) (fail complaint)
  | check {m : Manner} {n : Nat} {kind : Kind} :
      kind ≠ .eof → Descends C m n 0 (· = ·) (check kind) (check kind)
  | consume {m : Manner} {n : Nat} {kind : Kind} (complaint : Complaint) :
      m.Fails → kind ≠ .eof →
      Descends C m n 1 (fun t t' => C.token t t' ∧ t.kind = kind) (consume kind complaint)
        (consume kind complaint)
  | accept {m : Manner} {n d : Nat} {α : Type} {V : α → α → Prop} {kind : Kind}
      {kinds : List Kind} {yes yes' no no' : Reader α} :
      Kind.eof ∉ kind :: kinds →
      Descends C m (n - 1) (d - 1) V yes yes' → Descends C m n d V no no' →
      Descends C m n d V (accept (kind :: kinds) >>= fun b => if b = true then yes else no)
        (accept (kind :: kinds) >>= fun b => if b = true then yes' else no')
  /-- An accepted token is the last one passed. -/
  | acceptPrevious {m : Manner} {n d : Nat} {α : Type} {V : α → α → Prop} {kind : Kind}
      {kinds : List Kind} {f f' : Token → Reader α} {no no' : Reader α} :
      Kind.eof ∉ kind :: kinds →
      (∀ t t', C.token t t' → t.kind ∈ kind :: kinds →
        Descends C m (n - 1) (d - 1) V (f t) (f' t')) →
      Descends C m n d V no no' →
      Descends C m n d V
        (accept (kind :: kinds) >>= fun b => if b = true then previous >>= f else no)
        (accept (kind :: kinds) >>= fun b => if b = true then previous >>= f' else no')
  /-- Behind an opening brace a reader may go on after a syntax error. -/
  | acceptBrace {n d : Nat} {α : Type} {V : α → α → Prop} {yes yes' no no' : Reader α} :
      Descends C .far (n - 1) (d - 1) V yes yes' → Descends C .near n d V no no' →
      Descends C .near n d V (accept [.leftBrace] >>= fun b => if b = true then yes else no)
        (accept [.leftBrace] >>= fun b => if b = true then yes' else no')
  | remaining {m : Manner} {n d : Nat} {α : Type} {V : α → α → Prop}
      {r r' : Nat → Reader α} :
      m ≠ .near → (∀ n b b', C.Fits n b b' → Descends C m n d V (r b) (r' b')) →
      Descends C m n d V (remaining >>= r) (remaining >>= r')
  | recovering {n d : Nat} {α : Type} {V : α → α → Prop} {r r' : Reader α} :
      Descends C .far n d V r r' →
      Descends C .safe n 0 (Option.Rel V) (recovering r) (recovering r')
  /-- Where the end has not come a token is passed, whether what is read is broken or not. -/
  | next {n : Nat} {α β : Type} {V : α → α → Prop} {W : β → β → Prop} {r r' : Reader α}
      {f f' : Option α → Reader β} {b b' : β} :
      Descends C .far n 1 V r r' → W b b' →
      (∀ a a', Option.Rel V a a' → Descends C .safe (n - 1) 0 W (f a) (f' a')) →
      Descends C .safe n 0 W
        (isAtEnd >>= fun ended => if ended = true then pure b else recovering r >>= f)
        (isAtEnd >>= fun ended => if ended = true then pure b' else recovering r' >>= f')

namespace Descends

variable {C : Likeness} {m : Manner} {n d : Nat} {α β : Type} {V : α → α → Prop}
  {W : β → β → Prop} {r r' : Reader α}

protected theorem mono {n' : Nat} (h : Descends C m n d V r r') (hn : n' ≤ n) :
    Descends C m n' d V r r' :=
  h.weaken hn (Nat.le_refl d) fun _ _ => id

/-- That tokens have been passed need not be said. -/
theorem zero (h : Descends C m n d V r r') : Descends C m n 0 V r r' :=
  h.weaken (Nat.le_refl n) (Nat.zero_le d) fun _ _ => id

/-- What follows may pass nothing, and see as much as the first reader. -/
theorem followed {f f' : α → Reader β} (h : Descends C m n d V r r')
    (hf : ∀ a a', V a a' → Descends C m n 0 W (f a) (f' a')) :
    Descends C m n d W (r >>= f) (r' >>= f') := by
  refine .bind h fun a a' hV => ?_
  rw [Nat.sub_self]
  exact (hf a a' hV).mono (Nat.sub_le n d)

theorem discard_peek {b b' : β} (h : W b b') :
    Descends C m n 0 W (discard Descent.peek >>= fun _ => Pure.pure b)
      (discard Descent.peek >>= fun _ => Pure.pure b') := by
  rw [run_discard, run_discard]
  exact .bind .peek fun _ _ _ => .pure h

/-- A closing token is the last one passed. -/
theorem close {kind : Kind} {complaint : Complaint} {b b' : β} (hm : m.Fails)
    (hkind : kind ≠ .eof) (h : W b b') :
    Descends C m n 1 W (discard (Descent.consume kind complaint) >>= fun _ => Pure.pure b)
      (discard (Descent.consume kind complaint) >>= fun _ => Pure.pure b') := by
  rw [run_discard, run_discard]
  exact .bind (.consume complaint hm hkind) fun _ _ _ => .pure h

theorem discard_consume {kind : Kind} {complaint : Complaint} {f f' : Unit → Reader β}
    (hm : m.Fails) (hkind : kind ≠ .eof) (h : Descends C m (n - 1) 0 W (f ()) (f' ())) :
    Descends C m n 1 W (discard (Descent.consume kind complaint) >>= f)
      (discard (Descent.consume kind complaint) >>= f') := by
  rw [run_discard, run_discard]
  exact .bind (.consume complaint hm hkind) fun _ _ _ => h

/-- Both readers see the same kind, and go the same way. -/
theorem check_else {kind : Kind} {yes yes' no no' : Reader β} (hkind : kind ≠ .eof)
    (hyes : Descends C m n d W yes yes') (hno : Descends C m n d W no no') :
    Descends C m n d W (Descent.check kind >>= fun b => if b = true then yes else no)
      (Descent.check kind >>= fun b => if b = true then yes' else no') := by
  refine .bind (.check hkind) fun b _ hb => ?_
  obtain rfl := hb
  split
  · exact hyes
  · exact hno

end Descends

/-! ## What looks first -/

/-- The first token decides what a primary expression is. -/
theorem primary_looks (inner : Reader Node) : Looks (primary inner) := (Looks.accept _ _).bind _

/-- Before the first argument at most a complaint is made, for which a token is looked at. -/
theorem arguments_looks {inner : Reader Node} (h : Looks inner) (count seen : Nat) :
    Looks (arguments inner count seen) := by
  cases count with
  | zero => exact Looks.peek.discard _
  | succ count =>
      unfold arguments limitArguments
      split
      · rw [bind_assoc]
        exact Looks.peek.bind _
      · exact h.bind _

theorem foldCalls_looks (inner : Reader Node) (count : Nat) (f : Node) :
    Looks (foldCalls inner count f) := by
  cases count with
  | zero => exact Looks.peek.discard _
  | succ count => exact (Looks.accept _ _).bind _

theorem call_looks (inner : Reader Node) (bound : Nat) : Looks (call inner bound) :=
  (primary_looks inner).bind _

theorem unary_looks (inner : Reader Node) (bound : Nat) : Looks (unary inner bound) := by
  cases bound with
  | zero => exact call_looks inner 0
  | succ bound => exact (Looks.accept _ _).bind _

theorem foldOperators_looks (l : Level) (operand : Reader Node) (count : Nat) (left : Node) :
    Looks (foldOperators l.operators l.join operand count left) := by
  cases count with
  | zero => exact Looks.peek.discard _
  | succ count => cases l <;> exact (Looks.accept _ _).bind _

/-- Through all levels the first to look is the reader of a unary expression. -/
theorem expressionWithin_looks (bound : Nat) : Looks (expressionWithin bound) := by
  cases bound with
  | zero => exact .fail _
  | succ bound =>
      have hunary := unary_looks (expressionWithin bound) (bound + 1)
      -- six levels of binary operators and the assignment stand above
      exact ((((((hunary.bind _).bind _).bind _).bind _).bind _).bind _).bind _

/-- The first token decides what a statement is. -/
theorem statementWithin_looks (bound : Nat) : Looks (statementWithin bound) := by
  cases bound with
  | zero => exact .fail _
  | succ bound => exact (Looks.accept _ _).bind _

theorem declarationsToBrace_looks (declaration : Reader (Option Node)) (count : Nat) :
    Looks (declarationsToBrace declaration count) := by
  cases count with
  | zero => exact Looks.peek.discard _
  | succ count => exact (Looks.check _).bind _

theorem declarationsToEnd_looks (declaration : Reader (Option Node)) (count : Nat) :
    Looks (declarationsToEnd declaration count) := by
  cases count with
  | zero => exact Looks.peek.discard _
  | succ count => exact Looks.isAtEnd.bind _

/-! ## Expressions -/

section

variable {C : Likeness} {m : Manner} {n : Nat} {inner inner' : Reader Node}

/-- The complaint about too many arguments does not stop the reader. -/
theorem limitArguments_descends (seen : Nat) :
    Descends C m n 0 (fun _ _ => True) (limitArguments seen) (limitArguments seen) := by
  unfold limitArguments
  split
  · exact .bind .peek fun t t' ht => .complain _ ht
  · exact .pure trivial

variable (hm : m.Fails)

include hm

/-- Only what stands in parentheses reads on, and has one token less in sight. -/
theorem primary_descends (hinner : Descends C m (n - 1) 1 (C.expression 0) inner inner') :
    Descends C m n 1 (C.expression 9) (primary inner) (primary inner') := by
  refine .accept (by decide) (.pure (C.literal _)) ?_
  refine .accept (by decide) (.pure (C.literal _)) ?_
  refine .accept (by decide) (.pure (C.literal _)) ?_
  -- numbers and strings have a value, and names are looked up later
  refine .acceptPrevious (by decide) (fun t t' ht _ => .pure (C.constant ht)) ?_
  refine .acceptPrevious (by decide) (fun t t' ht hkind => ?_) ?_
  · exact .pure (C.reference ht (List.mem_singleton.mp hkind))
  refine .accept (by decide) ?_ (.fail _ hm)
  exact .bind hinner fun e e' he => (Descends.close hm (by decide) (C.grouping he)).zero

omit hm in
/-- Each argument is an expression of its own, so that the readers pass a token in each round. -/
theorem arguments_descends (hinner : Descends C m n 1 (C.expression 0) inner inner')
    (hlooks : Looks inner) (hlooks' : Looks inner') {j bound bound' : Nat} (hj : j ≤ n)
    (hbound : C.Fits j bound bound') (seen : Nat) :
    Descends C m j 0 (List.Forall₂ (C.expression 0)) (arguments inner bound seen)
      (arguments inner' bound' seen) := by
  induction j, bound, bound', hbound using Likeness.Fits.induction generalizing seen with
  | zero j => exact .discard_peek .nil
  | blind helastic bound bound' =>
      exact .blind helastic (arguments_looks hlooks bound seen)
        (arguments_looks hlooks' bound' seen)
  | succ j bound bound' _ ih =>
      refine .followed (limitArguments_descends seen) fun _ _ _ => ?_
      -- an argument passes a token, though one that may not be of this call
      refine .zero (d := 1) (.bind (hinner.mono hj) fun a a' ha => ?_)
      refine .accept (by decide) ?_ (.pure (.cons ha .nil))
      have hmore := ih (Nat.le_trans (Nat.sub_le j 1) hj) (seen + 1)
      exact .bind (hmore.mono (Nat.sub_le _ 1)) fun as as' has => .pure (.cons ha has)

/-- A call is finished by its closing parenthesis, and is made of what stood before it. -/
theorem finishCall_descends (hinner : Descends C m n 1 (C.expression 0) inner inner')
    (hlooks : Looks inner) (hlooks' : Looks inner') {bound bound' : Nat}
    (hbound : C.Fits n bound bound') {f f' : Node} (hf : C.expression 8 f f') :
    Descends C m n 1 (C.expression 8) (finishCall inner bound f) (finishCall inner' bound' f') := by
  have harguments : Descends C m n 0 (List.Forall₂ (C.expression 0)) (argumentsIfAny inner bound)
      (argumentsIfAny inner' bound') :=
    .check_else (by decide) (.pure .nil)
      (arguments_descends hinner hlooks hlooks' (Nat.le_refl n) hbound 0)
  refine .bind harguments fun as as' has => ?_
  refine .bind (.consume _ hm (by decide)) fun p p' hp => ?_
  exact .pure (C.call hf hp.1 hp.2 has)

/-- The parenthesis of each call has been passed when its arguments are read. -/
theorem foldCalls_descends (hinner : Descends C m n 1 (C.expression 0) inner inner')
    (hlooks : Looks inner) (hlooks' : Looks inner') {j bound bound' : Nat} (hj : j ≤ n + 1)
    (hbound : C.Fits j bound bound') {f f' : Node} (hf : C.expression 8 f f') :
    Descends C m j 0 (C.expression 8) (foldCalls inner bound f) (foldCalls inner' bound' f') := by
  induction j, bound, bound', hbound using Likeness.Fits.induction generalizing f f' with
  | zero j => exact .discard_peek hf
  | blind helastic bound bound' =>
      exact .blind helastic (foldCalls_looks inner bound f) (foldCalls_looks inner' bound' f')
  | succ j bound bound' hbound ih =>
      refine .accept (by decide) ?_ (.pure hf)
      have hless : j - 1 ≤ n := Nat.sub_le_of_le_add hj
      have hcall := finishCall_descends hm (hinner.mono hless) hlooks hlooks' hbound hf
      exact .followed hcall.zero fun g g' hg => ih (Nat.le_succ_of_le hless) hg

omit hm in
/-- The operands of a level bind more tightly than its operators. -/
theorem leftAssociative_descends {l : Level} {operand operand' : Reader Node}
    (hoperand : Descends C m n 1 (C.expression (l.precedence + 1)) operand operand')
    {bound bound' : Nat} (hbound : C.Fits n bound bound') :
    Descends C m n 1 (C.expression l.precedence)
      (leftAssociative l.operators l.join operand bound)
      (leftAssociative l.operators l.join operand' bound') := by
  have hfold : ∀ {j bound bound' : Nat}, C.Fits j bound bound' → j ≤ n →
      ∀ {left left' : Node}, C.expression l.precedence left left' →
        Descends C m j 0 (C.expression l.precedence)
          (foldOperators l.operators l.join operand bound left)
          (foldOperators l.operators l.join operand' bound' left') := by
    intro j bound bound' hbound hj left left' hleft
    induction j, bound, bound', hbound using Likeness.Fits.induction generalizing left left' with
    | zero j => exact .discard_peek hleft
    | blind helastic bound bound' =>
        exact .blind helastic (foldOperators_looks l operand bound left)
          (foldOperators_looks l operand' bound' left')
    | succ j bound bound' _ ih =>
        have hless : j - 1 ≤ n := Nat.le_trans (Nat.sub_le j 1) hj
        have hyes : ∀ t t', C.token t t' → t.kind ∈ l.operators →
            Descends C m (j - 1) 0 (C.expression l.precedence)
              (operand >>= fun b =>
                foldOperators l.operators l.join operand bound (l.join left t b))
              (operand' >>= fun b =>
                foldOperators l.operators l.join operand' bound' (l.join left' t' b)) :=
          fun t t' ht hkind => .followed (hoperand.mono hless).zero fun b b' hb =>
            ih hless (C.join hleft ht hkind hb)
        -- each level has an operator, and none of them is the end
        cases l <;> exact .acceptPrevious (by decide) hyes (.pure hleft)
  -- the first operand binds more tightly than it has to
  refine .bind hoperand fun first first' hfirst => ?_
  exact (hfold hbound (Nat.le_refl n) (C.looser (Nat.le_succ _) hfirst)).mono (Nat.sub_le n 1)

variable (hinner : Descends C m (n - 1) 1 (C.expression 0) inner inner') (hlooks : Looks inner)
  (hlooks' : Looks inner') {bound bound' : Nat} (hbound : C.Fits n bound bound')

include hinner hlooks hlooks' hbound

/-- What is called binds more tightly than the call. -/
theorem call_descends :
    Descends C m n 1 (C.expression 8) (call inner bound) (call inner' bound') := by
  refine .bind (primary_descends hm hinner) fun f f' hf => ?_
  exact foldCalls_descends hm hinner hlooks hlooks' (Nat.le_succ _)
    (hbound.mono (Nat.sub_le n 1)) (C.looser (Nat.le_succ 8) hf)

/-- Each operator in front of an operand leaves one token less in sight for it. -/
theorem unary_descends :
    Descends C m n 1 (C.expression 7) (unary inner bound) (unary inner' bound') := by
  -- the operand of an operator is unary as well, with a bound of its own
  induction n, bound, bound', hbound using Likeness.Fits.induction with
  | zero n =>
      have hcall := call_descends hm hinner hlooks hlooks' (.refl n 0)
      exact hcall.weaken (Nat.le_refl n) (Nat.le_refl 1) fun _ _ => C.looser (Nat.le_succ 7)
  | blind helastic bound bound' =>
      exact .blind helastic (unary_looks inner bound) (unary_looks inner' bound')
  | succ n bound bound' hbound ih =>
      refine .acceptPrevious (by decide) (fun o o' ho hkind => ?_) ?_
      · have hoperand := ih (hinner.mono (Nat.sub_le _ 1))
        exact .followed hoperand.zero fun e e' he => .pure (C.unary ho hkind he)
      · have hcall := call_descends hm hinner hlooks hlooks' hbound.succ
        exact hcall.weaken (Nat.le_refl n) (Nat.le_refl 1) fun _ _ => C.looser (Nat.le_succ 7)

theorem factor_descends :
    Descends C m n 1 (C.expression 6) (factor inner bound) (factor inner' bound') :=
  leftAssociative_descends (l := .factor) (unary_descends hm hinner hlooks hlooks' hbound) hbound

theorem term_descends :
    Descends C m n 1 (C.expression 5) (term inner bound) (term inner' bound') :=
  leftAssociative_descends (l := .term) (factor_descends hm hinner hlooks hlooks' hbound) hbound

theorem comparison_descends :
    Descends C m n 1 (C.expression 4) (comparison inner bound) (comparison inner' bound') :=
  leftAssociative_descends (l := .comparison) (term_descends hm hinner hlooks hlooks' hbound)
    hbound

theorem equality_descends :
    Descends C m n 1 (C.expression 3) (equality inner bound) (equality inner' bound') :=
  leftAssociative_descends (l := .equality)
    (comparison_descends hm hinner hlooks hlooks' hbound) hbound

theorem conjunction_descends :
    Descends C m n 1 (C.expression 2) (conjunction inner bound) (conjunction inner' bound') :=
  leftAssociative_descends (l := .conjunction)
    (equality_descends hm hinner hlooks hlooks' hbound) hbound

theorem disjunction_descends :
    Descends C m n 1 (C.expression 1) (disjunction inner bound) (disjunction inner' bound') :=
  leftAssociative_descends (l := .disjunction)
    (conjunction_descends hm hinner hlooks hlooks' hbound) hbound

/-- A target that is no name is complained about at the equals sign, and kept. -/
theorem assignment_descends :
    Descends C m n 1 (C.expression 0) (assignment inner bound) (assignment inner' bound') := by
  refine .bind (disjunction_descends hm hinner hlooks hlooks' hbound) fun target target' hlike => ?_
  have htarget := C.looser (Nat.zero_le 1) hlike
  refine .acceptPrevious (by decide) (fun q q' hq _ => ?_) (.pure htarget)
  refine .followed (hinner.mono (Nat.sub_le _ 1)).zero fun v v' hv => ?_
  -- names are assigned to; anything else is like something that is no name either
  split
  · rcases C.assign htarget hv with ⟨n', rfl, hassign⟩
    exact .pure hassign
  · rename_i hother
    split
    · rcases C.name htarget with ⟨n, rfl⟩
      exact absurd rfl (hother n)
    · exact .bind (.complain _ hq) fun _ _ _ => .pure htarget

end

/-- An expression inside another one has fewer tokens in sight, and a smaller bound. -/
theorem expressionWithin_descends {C : Likeness} {n bound bound' : Nat}
    (hbound : C.Fits n bound bound') :
    Descends C .near n 1 (C.expression 0) (expressionWithin bound) (expressionWithin bound') := by
  induction n, bound, bound', hbound using Likeness.Fits.induction with
  | zero n => exact .fail _ trivial
  | blind helastic bound bound' =>
      exact .blind helastic (expressionWithin_looks bound) (expressionWithin_looks bound')
  | succ n bound bound' hbound ih =>
      have hnear : Manner.near.Fails := trivial
      exact assignment_descends hnear ih (expressionWithin_looks bound)
        (expressionWithin_looks bound') hbound.succ

/-! ## Statements -/

/-- A declaration, before anything is done about a syntax error. -/
def unguarded (expression statement : Reader Node) : Reader Node := do
  if ← accept [.kwVar] then varDeclaration expression else statement

/-- Of a broken declaration nothing is left but its complaint. -/
theorem declarationWith_eq (expression statement : Reader Node) :
    declarationWith expression statement = recovering (unguarded expression statement) := rfl

section

variable {C : Likeness} {m : Manner} {n d : Nat} {expression expression' : Reader Node}
  {statement statement' : Reader Node}

/-- A part behind a token of the kind is missing from both trees or from neither. -/
theorem ifAfter_descends {R : Node → Node → Prop} {r r' : Reader Node} {kind : Kind}
    (hkind : kind ≠ .eof) (hr : Descends C m (n - 1) d R r r')
    (hthere : ∀ {e e'}, R e e' → (e = .absent ↔ e' = .absent)) :
    Descends C m n 0 (IfPresent R) (ifAfter kind r) (ifAfter kind r') := by
  refine .accept (by simpa using hkind.symm) ?_ (.pure .absent)
  exact hr.weaken (Nat.le_refl _) (Nat.zero_le d) fun e e' he => ⟨hthere he, fun _ => he⟩

variable (hm : m.Fails) (hexpression : Descends C m n 1 (C.expression 0) expression expression')

include hexpression

/-- So is a part that is read unless a token of the kind follows. -/
theorem unlessAt_descends {kind : Kind} (hkind : kind ≠ .eof) :
    Descends C m n 0 (IfPresent (C.expression 0)) (unlessAt kind expression)
      (unlessAt kind expression') := by
  refine .check_else hkind (.pure .absent) ?_
  exact hexpression.weaken (Nat.le_refl n) (Nat.zero_le 1) fun e e' he => ⟨C.there he, fun _ => he⟩

include hm

/-- What is declared is a name, with a value or without. -/
theorem varDeclaration_descends :
    Descends C m n 1 (C.statement .inSequence) (varDeclaration expression)
      (varDeclaration expression') := by
  refine .bind (.consume _ hm (by decide)) fun name name' hname => ?_
  -- the name and the equals sign have been passed
  have hvalue := hexpression.mono (Nat.le_trans (Nat.sub_le _ 1) (Nat.sub_le n 1))
  refine .bind (ifAfter_descends (by decide) hvalue C.there) fun e e' he => ?_
  exact (Descends.close hm (by decide) (C.declared hname.1 hname.2 he)).zero

/-- An expression with a semicolon passes what the expression passes. -/
theorem expressionStatement_descends :
    Descends C m n 1 (C.statement .asBody) (expressionStatement expression)
      (expressionStatement expression') :=
  .followed hexpression fun _ _ he => (Descends.close hm (by decide) (C.evaluated he)).zero

theorem printStatement_descends :
    Descends C m n 1 (C.statement .asBody) (printStatement expression)
      (printStatement expression') :=
  .followed hexpression fun _ _ he => (Descends.close hm (by decide) (C.printed he)).zero

/-- A loop may begin with a declaration, an expression or neither. -/
theorem forInitializer_descends :
    Descends C m n 0 (IfPresent (C.statement .inSequence)) (forInitializer expression)
      (forInitializer expression') := by
  refine .accept (by decide) (.pure .absent) (.accept (by decide) ?_ ?_)
  · have hread := varDeclaration_descends hm (hexpression.mono (Nat.sub_le n 1))
    exact hread.weaken (Nat.le_refl _) (Nat.zero_le 1) fun s s' hs => ⟨C.stands hs, fun _ => hs⟩
  · have hread := expressionStatement_descends hm hexpression
    exact hread.weaken (Nat.le_refl _) (Nat.zero_le 1)
      fun s s' hs => ⟨C.stands hs, fun _ => C.inSequence hs⟩

variable (hstatement : Descends C m n 1 (C.statement .asBody) statement statement')

include hstatement

/-- The parentheses leave two tokens less in sight for the body. -/
theorem whileStatement_descends :
    Descends C m n 1 (C.statement .asBody) (whileStatement expression statement)
      (whileStatement expression' statement') := by
  have hless := hexpression.mono (Nat.sub_le n 1)
  have hbody := hstatement.mono (Nat.le_trans (Nat.sub_le _ 1) (Nat.sub_le n 1))
  refine .discard_consume hm (by decide) (.followed hless.zero fun c c' hc => ?_)
  refine .zero (.discard_consume hm (by decide) (.followed hbody.zero fun s s' hs => ?_))
  exact .pure (C.loop hc hs)

/-- The second branch is missing from both trees or from neither. -/
theorem ifStatement_descends :
    Descends C m n 1 (C.statement .asBody) (ifStatement expression statement)
      (ifStatement expression' statement') := by
  have hless := hexpression.mono (Nat.sub_le n 1)
  have hthen := hstatement.mono (Nat.le_trans (Nat.sub_le _ 1) (Nat.sub_le n 1))
  refine .discard_consume hm (by decide) (.followed hless.zero fun c c' hc => ?_)
  refine .zero (.discard_consume hm (by decide) (.followed hthen.zero fun s s' hs => ?_))
  refine .bind (ifAfter_descends (by decide) (hthen.mono (Nat.sub_le _ 1)) C.stands) ?_
  exact fun e e' he => .pure (C.branch hc hs he)

/-- Each clause of a loop may be missing, and each is read with fewer tokens in sight. -/
theorem forStatement_descends :
    Descends C m n 1 (C.statement .asBody) (forStatement expression statement)
      (forStatement expression' statement') := by
  -- the parenthesis, the semicolons and the other parenthesis are passed one after the other
  have hless := hexpression.mono (Nat.sub_le n 1)
  have hlesser := hless.mono (Nat.sub_le _ 1)
  have hbody := hstatement.mono
    (Nat.le_trans (Nat.sub_le _ 1) (Nat.le_trans (Nat.sub_le _ 1) (Nat.sub_le n 1)))
  refine .discard_consume hm (by decide) ?_
  refine .followed (forInitializer_descends hm hless) fun i i' hi => ?_
  refine .followed (unlessAt_descends hless (by decide)) fun c c' hc => ?_
  refine .zero (.discard_consume hm (by decide) ?_)
  refine .followed (unlessAt_descends hlesser (by decide)) fun e e' he => ?_
  refine .zero (.discard_consume hm (by decide) (.followed hbody.zero fun s s' hs => ?_))
  exact .pure (C.forLoop hi hc he hs)

/-- A declaration is one of a variable or a statement that may stand in its place. -/
theorem unguarded_descends :
    Descends C m n 1 (C.statement .inSequence) (unguarded expression statement)
      (unguarded expression' statement') := by
  refine .accept (by decide) ?_ ?_
  · exact (varDeclaration_descends hm (hexpression.mono (Nat.sub_le n 1))).zero
  · exact hstatement.weaken (Nat.le_refl n) (Nat.le_refl 1) fun _ _ => C.inSequence

end

section

variable {C : Likeness} {n : Nat} {r r' : Reader Node}
  (hr : Descends C .far n 1 (C.statement .inSequence) r r') {j bound bound' : Nat}

include hr

/-- Each declaration passes a token, and one that was broken is left out. -/
theorem declaration_next {more more' : Reader (List Node)} (hj : j ≤ n)
    (hmore : Descends C .safe (j - 1) 0 (List.Forall₂ (C.statement .inSequence)) more more') :
    Descends C .safe j 0 (List.Forall₂ (C.statement .inSequence))
      (isAtEnd >>= fun ended => if ended = true then pure [] else
        recovering r >>= fun first => more >>= fun ss => pure (first.toList ++ ss))
      (isAtEnd >>= fun ended => if ended = true then pure [] else
        recovering r' >>= fun first => more' >>= fun ss => pure (first.toList ++ ss)) := by
  refine .next (hr.mono hj) .nil fun first first' hfirst => ?_
  refine .bind hmore fun ss ss' hss => .pure ?_
  cases hfirst with
  | none => exact hss
  | some hs => exact .cons hs hss

/-- Declarations up to a brace, of which each passes a token. -/
theorem declarationsToBrace_descends (hj : j ≤ n) (hbound : C.Fits j bound bound') :
    Descends C .safe j 0 (List.Forall₂ (C.statement .inSequence))
      (declarationsToBrace (recovering r) bound) (declarationsToBrace (recovering r') bound') := by
  induction j, bound, bound', hbound using Likeness.Fits.induction with
  | zero j => exact .discard_peek .nil
  | blind helastic bound bound' =>
      exact .blind helastic (declarationsToBrace_looks _ bound) (declarationsToBrace_looks _ bound')
  | succ j bound bound' _ ih =>
      refine .check_else (by decide) (.pure .nil) (declaration_next hr hj ?_)
      exact ih (Nat.le_trans (Nat.sub_le j 1) hj)

/-- Declarations up to the end, of which each passes a token. -/
theorem declarationsToEnd_descends (hj : j ≤ n) (hbound : C.Fits j bound bound') :
    Descends C .safe j 0 (List.Forall₂ (C.statement .inSequence))
      (declarationsToEnd (recovering r) bound) (declarationsToEnd (recovering r') bound') := by
  induction j, bound, bound', hbound using Likeness.Fits.induction with
  | zero j => exact .discard_peek .nil
  | blind helastic bound bound' =>
      exact .blind helastic (declarationsToEnd_looks _ bound) (declarationsToEnd_looks _ bound')
  | succ j bound bound' _ ih =>
      exact declaration_next hr hj (ih (Nat.le_trans (Nat.sub_le j 1) hj))

/-- Inside a block reading goes on after a syntax error, and a missing brace is one more. -/
theorem blockWith_descends (hbound : C.Fits n bound bound') :
    Descends C .far n 0 (List.Forall₂ (C.statement .inSequence))
      (blockWith (recovering r) bound) (blockWith (recovering r') bound') := by
  have hall := declarationsToBrace_descends hr (Nat.le_refl n) hbound
  have hfar : Manner.far.Fails := trivial
  exact .bind hall.far fun ss ss' hss => (Descends.close hfar (by decide) hss).zero

end

/-- A statement inside another one has fewer tokens in sight, and a smaller bound. -/
theorem statementWithin_descends {C : Likeness} {n bound bound' : Nat}
    (hbound : C.Fits n bound bound') :
    Descends C .near n 1 (C.statement .asBody) (statementWithin bound)
      (statementWithin bound') := by
  have hnear : Manner.near.Fails := trivial
  induction n, bound, bound', hbound using Likeness.Fits.induction with
  | zero n => exact .fail _ hnear
  | blind helastic bound bound' =>
      exact .blind helastic (statementWithin_looks bound) (statementWithin_looks bound')
  | succ n bound bound' hbound ih =>
      have hexpression : Descends C .near n 1 (C.expression 0) _ _ :=
        expressionWithin_descends hbound.succ
      have hless := hexpression.mono (Nat.sub_le n 1)
      refine .accept (by decide) (forStatement_descends hnear hless ih).zero ?_
      refine .accept (by decide) (ifStatement_descends hnear hless ih).zero ?_
      refine .accept (by decide) (printStatement_descends hnear hless).zero ?_
      refine .accept (by decide) (whileStatement_descends hnear hless ih).zero ?_
      -- only a block goes on after a syntax error inside it
      refine .acceptBrace ?_ (expressionStatement_descends hnear hexpression)
      have hblock := blockWith_descends (unguarded_descends hnear hless ih).far hbound
      exact .bind hblock fun ss ss' hss => .pure (C.block hss)

/-- A declaration with bounds for its expressions and statements. -/
theorem unguardedWithin_descends {C : Likeness} {n b b' d d' : Nat} (hb : C.Fits n b b')
    (hd : C.Fits n d d') :
    Descends C .near n 1 (C.statement .inSequence)
      (unguarded (expressionWithin b) (statementWithin d))
      (unguarded (expressionWithin b') (statementWithin d')) :=
  unguarded_descends trivial (expressionWithin_descends hb) (statementWithin_descends hd)

/-! ## Readers that measure what is left -/

section

variable (C : Likeness) (n : Nat)

/-- An expression that may be as long as what is left. -/
theorem expression_descends : Descends C .far n 1 (C.expression 0) expression expression :=
  .remaining (by decide) fun _ _ _ hb => (expressionWithin_descends hb).far

theorem statement_descends : Descends C .far n 1 (C.statement .asBody) statement statement :=
  .remaining (by decide) fun _ _ _ hb => (statementWithin_descends hb).far

theorem expression_looks : Looks expression :=
  fun c hc => expressionWithin_looks c.rest.length c hc

/-- A level of expressions, with expressions inside that are as long as they may be. -/
theorem expressionOf_descends {V : Node → Node → Prop} {level : Reader Node → Nat → Reader Node}
    (h : ∀ {n inner inner'}, Descends C .far (n - 1) 1 (C.expression 0) inner inner' →
      Looks inner → Looks inner' → ∀ {b b'}, C.Fits n b b' →
        Descends C .far n 1 V (level inner b) (level inner' b')) :
    Descends C .far n 1 V (expressionOf level) (expressionOf level) :=
  .remaining (by decide) fun _ _ _ hb => h (expressionWithin_descends hb.pred).far
    (expressionWithin_looks _) (expressionWithin_looks _) hb

/-- Calls with arguments that may be as long as what is left. -/
theorem finishCall_expression_descends {f f' : Node} (hf : C.expression 8 f f') :
    Descends C .far n 1 (C.expression 8) (remaining >>= fun bound => finishCall expression bound f)
      (remaining >>= fun bound => finishCall expression bound f') := by
  have hfar : Manner.far.Fails := trivial
  refine .remaining (by decide) fun n _ _ hb => ?_
  exact finishCall_descends hfar (expression_descends C n) expression_looks expression_looks hb hf

/-- It makes no difference whether what is left is measured before or behind the point from which
a broken declaration is given up. -/
theorem declaration_eq : declaration = recovering (remaining >>= fun bound =>
    unguarded (expressionWithin bound) (statementWithin bound)) := by
  -- measuring changes nothing, so an error leads to the same cursor
  funext c
  change declaration.run c = (recovering _).run c
  rw [declaration, run_recovering]
  exact run_recovering _ c

/-- What a declaration is, before anything is done about a syntax error. -/
theorem measured_descends :
    Descends C .far n 1 (C.statement .inSequence)
      (remaining >>= fun bound => unguarded (expressionWithin bound) (statementWithin bound))
      (remaining >>= fun bound => unguarded (expressionWithin bound) (statementWithin bound)) :=
  .remaining (by decide) fun _ _ _ hb => (unguardedWithin_descends hb hb).far

/-- A declaration, with what is done after a syntax error. -/
theorem declaration_descends :
    Descends C .safe n 0 (Option.Rel (C.statement .inSequence)) declaration declaration := by
  rw [declaration_eq]
  exact .recovering (measured_descends C n)

theorem block_descends :
    Descends C .far n 0 (List.Forall₂ (C.statement .inSequence)) block block := by
  rw [block, declaration_eq]
  exact .remaining (by decide) fun _ _ _ hb =>
    blockWith_descends (measured_descends C _) hb

/-- The whole program, from any cursor. -/
theorem program_descends :
    Descends C .safe n 0 (List.Forall₂ (C.statement .inSequence)) program program :=
  .remaining (by decide) fun n _ _ hb =>
    declarationsToEnd_descends (unguardedWithin_descends hb hb).far (Nat.le_refl n) hb

end

end Descent

end NovaLang
