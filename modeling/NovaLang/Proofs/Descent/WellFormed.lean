import NovaLang.Proofs.Descent.Recovery
import NovaLang.Proofs.Eval.Soundness

namespace NovaLang

/-! # Trees of any token list are well formed

Whatever tokens are read, and wherever a syntax error breaks the reading off, the statements
that come of it have expressions and statements where they belong, tokens of the list in their
places, and operands that bind as tightly as their operators ask. Every reader keeps the cursor
among the tokens of the list, also when it stops, so that what is read after a syntax error is
as well formed as what is read before it.
-/

/-- How tightly a binary or logical operator binds. -/
def Kind.precedence : Kind → Nat
  | .kwOr => 1
  | .kwAnd => 2
  | .bangEqual | .equalEqual => 3
  | .greater | .greaterEqual | .less | .lessEqual => 4
  | .minus | .plus => 5
  | .slash | .star => 6
  | _ => 0

/-- An operator binds as tightly as its level. -/
theorem precedence_of_operator {l : Level} {k : Kind} (h : k ∈ l.operators) :
    k.precedence = l.precedence := by
  revert h
  cases l <;> revert k <;> simp [Level.operators, Kind.precedence, Level.precedence]

namespace Node

/-- How tightly an expression binds. What has one token, or parentheses around it, binds the
tightest; then come calls, prefix operators, the levels of operators, and assignments. -/
def precedence : Node → Nat
  | .assign _ _ => 0
  | .binary _ o _ | .logical _ o _ => o.kind.precedence
  | .unary _ _ => 7
  | .call _ _ _ => 8
  | _ => 9

/-- A well-formed expression, whose tokens are of the list. -/
inductive ExpressionOver (ts : List Token) : Node → Prop where
  | literal {v : Value} : ExpressionOver ts (.literal v)
  | grouping {e : Node} : ExpressionOver ts e → ExpressionOver ts (.grouping e)
  | reference {n : Token} : n ∈ ts → n.kind = .identifier → ExpressionOver ts (.reference n)
  | assign {n : Token} {e : Node} :
      n ∈ ts → n.kind = .identifier → ExpressionOver ts e → ExpressionOver ts (.assign n e)
  | unary {o : Token} {e : Node} :
      o ∈ ts → o.kind ∈ [Kind.bang, .minus] →
      ExpressionOver ts e → 7 ≤ e.precedence → ExpressionOver ts (.unary o e)
  | binary {a b : Node} {o : Token} :
      o ∈ ts → o.kind ∈ binaryKinds →
      ExpressionOver ts a → o.kind.precedence ≤ a.precedence →
      ExpressionOver ts b → o.kind.precedence < b.precedence → ExpressionOver ts (.binary a o b)
  | logical {a b : Node} {o : Token} :
      o ∈ ts → o.kind ∈ [Kind.kwAnd, .kwOr] →
      ExpressionOver ts a → o.kind.precedence ≤ a.precedence →
      ExpressionOver ts b → o.kind.precedence < b.precedence → ExpressionOver ts (.logical a o b)
  | call {f : Node} {p : Token} {as : List Node} :
      ExpressionOver ts f → 8 ≤ f.precedence → p ∈ ts → p.kind = .rightParen →
      (∀ a ∈ as, ExpressionOver ts a) → ExpressionOver ts (.call f p as)

/-- A well-formed statement at a position, whose tokens are of the list. -/
inductive StatementOver (ts : List Token) : Position → Node → Prop where
  | expression {p : Position} {e : Node} :
      ExpressionOver ts e → StatementOver ts p (.expression e)
  | print {p : Position} {e : Node} : ExpressionOver ts e → StatementOver ts p (.print e)
  | var {n : Token} {e : Node} :
      n ∈ ts → n.kind = .identifier → (e ≠ .absent → ExpressionOver ts e) →
      StatementOver ts .inSequence (.var n e)
  | block {p : Position} {ss : List Node} :
      (∀ s ∈ ss, StatementOver ts .inSequence s) → StatementOver ts p (.block ss)
  | branch {p : Position} {c t e : Node} :
      ExpressionOver ts c → StatementOver ts .asBody t →
      (e ≠ .absent → StatementOver ts .asBody e) → StatementOver ts p (.branch c t e)
  | loop {p : Position} {c b : Node} :
      ExpressionOver ts c → StatementOver ts .asBody b → StatementOver ts p (.loop c b)

end Node

namespace Descent

open Node

variable {α β : Type} {ts : List Token}

/-! ## Readers among the tokens of a list -/

/-- The tokens passed and those still to come are tokens of the list. -/
structure Cursor.Over (ts : List Token) (c : Cursor) : Prop where
  before : c.before ⊆ ts
  rest : c.rest ⊆ ts

/-- A step leads from tokens of the list to tokens of the list. -/
theorem Cursor.Over.past {c : Cursor} {t : Token} {rest : List Token} (h : c.Over ts)
    (hrest : c.rest = t :: rest) : t ∈ ts ∧ (c.past t rest).Over ts := by
  have hsub : t :: rest ⊆ ts := hrest ▸ h.rest
  rcases List.cons_subset.mp hsub with ⟨ht, hmore⟩
  exact ⟨ht, List.cons_subset.mpr ⟨ht, h.before⟩, hmore⟩

/-- At the cursor the reader stays among the tokens of the list, whether it stops or not, and
what it yields has the property. -/
def DeliversAt (ts : List Token) (c : Cursor) (r : Reader α) (post : α → Prop) : Prop :=
  (r.run c).2.Over ts ∧ ∀ a, (r.run c).1 = .ok a → post a

/-- The reader does so at every cursor among the tokens of the list. -/
def Delivers (ts : List Token) (r : Reader α) (post : α → Prop) : Prop :=
  ∀ c : Cursor, c.Over ts → DeliversAt ts c r post

namespace Delivers

variable {r : Reader α} {P : α → Prop} {Q : β → Prop} {kinds : List Kind}

protected theorem mono {P' : α → Prop} (h : Delivers ts r P) (hpost : ∀ a, P a → P' a) :
    Delivers ts r P' :=
  fun c hc => ⟨(h c hc).1, fun a ha => hpost a ((h c hc).2 a ha)⟩

theorem pure {a : α} (h : P a) : Delivers ts (pure a) P := by
  intro c hc
  refine ⟨hc, ?_⟩
  rintro _ ⟨⟩
  exact h

/-- Stopping leaves the cursor where it is. -/
theorem throw (stop : Stop) : Delivers ts (throw stop : Reader α) P := fun _ hc => ⟨hc, nofun⟩

/-- What the first reader yields may be used in what the second one promises. -/
theorem bind {f : α → Reader β} (h : Delivers ts r P) (hf : ∀ a, P a → Delivers ts (f a) Q) :
    Delivers ts (r >>= f) Q := by
  intro c hc
  rcases h c hc with ⟨hover, hpost⟩
  rw [DeliversAt, run_bind]
  -- a reader that stops has a cursor as well, which is still among the tokens
  rcases hrun : r.run c with ⟨stop | a, c'⟩
  · rw [hrun] at hover
    exact ⟨hover, nofun⟩
  · rw [hrun] at hover hpost
    exact hf a (hpost a rfl) c' hover

theorem discard {f : Unit → Reader β} (h : Delivers ts r P) (hf : Delivers ts (f ()) Q) :
    Delivers ts (discard r >>= f) Q := by
  rw [run_discard]
  exact h.bind fun _ _ => hf

/-- A choice by what a reader yields. -/
theorem choose {r : Reader Bool} {yes no : Reader β} (h : Delivers ts r fun _ => True)
    (hyes : Delivers ts yes Q) (hno : Delivers ts no Q) :
    Delivers ts (r >>= fun b => if b = true then yes else no) Q := by
  refine h.bind fun b _ => ?_
  split
  · exact hyes
  · exact hno

/-- After a look at the next token it is still there. -/
theorem look {f : Token → Reader β}
    (h : ∀ c t rest, c.Over ts → c.rest = t :: rest → DeliversAt ts c (f t) Q) :
    Delivers ts (peek >>= f) Q := by
  intro c hc
  rcases c with ⟨before, _ | ⟨t, rest⟩, report⟩
  · exact ⟨hc, nofun⟩
  · rw [DeliversAt, run_bind_ok (run_peek rfl)]
    exact h _ t rest hc rfl

/-- A token that is looked at is one of the list. -/
theorem peek : Delivers ts peek (· ∈ ts) := by
  rw [← bind_pure Descent.peek]
  exact look fun c t rest hc hrest => pure (hc.past hrest).1 c hc

/-- So is a token that is looked back at. -/
theorem previous : Delivers ts previous (· ∈ ts) := by
  rintro ⟨_ | ⟨t, before⟩, rest, report⟩ hc
  · exact ⟨hc, nofun⟩
  · refine ⟨hc, ?_⟩
    rintro _ ⟨⟩
    exact hc.before List.mem_cons_self

theorem step : Delivers ts step fun _ => True := by
  rintro ⟨before, _ | ⟨t, rest⟩, report⟩ hc
  · exact ⟨hc, fun _ _ => trivial⟩
  · exact ⟨(hc.past rfl).2, fun _ _ => trivial⟩

theorem complain (t : Token) (m : Complaint) : Delivers ts (complain t m) fun _ => True :=
  fun _ hc => ⟨⟨hc.before, hc.rest⟩, fun _ _ => trivial⟩

theorem remaining : Delivers ts remaining fun _ => True :=
  fun _ hc => ⟨hc, fun _ _ => trivial⟩

theorem fail (m : Complaint) : Delivers ts (fail m : Reader α) P :=
  peek.bind fun t _ => (complain t m).bind fun _ _ => throw _

theorem isAtEnd : Delivers ts isAtEnd fun _ => True := peek.bind fun _ _ => pure trivial

theorem check (kind : Kind) : Delivers ts (check kind) fun _ => True :=
  peek.bind fun _ _ => pure trivial

/-- Whether a token is accepted or not, the cursor stays among them. -/
theorem accept (kinds : List Kind) : Delivers ts (accept kinds) fun _ => True := by
  unfold Descent.accept
  split
  · exact pure trivial
  refine peek.bind fun t _ => ?_
  split
  · exact step.bind fun _ _ => pure trivial
  · exact pure trivial

/-- The last token passed is the one that was accepted. -/
theorem accept_previous {yes : Token → Reader β} {no : Reader β}
    (hyes : ∀ t ∈ ts, t.kind ∈ kinds → Delivers ts (yes t) Q) (hno : Delivers ts no Q) :
    Delivers ts
      (Descent.accept kinds >>= fun b => if b = true then Descent.previous >>= yes else no) Q := by
  unfold Descent.accept
  split
  · exact hno
  rw [bind_assoc]
  refine look fun c t rest hc hrest => ?_
  split
  · rename_i ht
    have hkind : t.kind ∈ kinds := by simpa using (Bool.and_eq_true_iff.mp ht).2
    rcases hc.past hrest with ⟨hmem, hpast⟩
    rw [DeliversAt, bind_assoc, run_bind_ok (run_step hrest)]
    exact hyes t hmem hkind _ hpast
  · exact hno c hc

/-- A token that is asked for is of the list and has its kind. -/
theorem consume (kind : Kind) (m : Complaint) :
    Delivers ts (consume kind m) fun t => t ∈ ts ∧ t.kind = kind := by
  rw [Descent.consume, Descent.check, bind_assoc]
  refine look fun c t rest hc hrest => ?_
  rw [pure_bind]
  split
  · rename_i ht
    have hkind : t.kind = kind := by simpa using (Bool.and_eq_true_iff.mp ht).2
    rcases hc.past hrest with ⟨hmem, hpast⟩
    rw [DeliversAt, run_bind_ok (run_peek hrest), run_bind_ok (run_step hrest)]
    exact pure ⟨hmem, hkind⟩ _ hpast
  · exact fail m c hc

theorem advance : Delivers ts advance (· ∈ ts) := by
  refine isAtEnd.bind fun _ _ => ?_
  split
  · exact step.bind fun _ _ => previous
  · exact previous

/-- Skipping stays among the tokens of the list. -/
theorem skipToStatement (count : Nat) : Delivers ts (skipToStatement count) fun _ => True := by
  induction count with
  | zero =>
      rw [← bind_pure (Descent.skipToStatement 0)]
      exact peek.discard (pure trivial)
  | succ count ih =>
      unfold Descent.skipToStatement
      refine isAtEnd.choose (pure trivial) (previous.bind fun t _ => ?_)
      split
      · exact pure trivial
      refine peek.bind fun u _ => ?_
      split
      · exact pure trivial
      · exact advance.discard ih

/-- Going on after a syntax error stays there as well. -/
theorem synchronize : Delivers ts synchronize fun _ => True :=
  advance.discard (remaining.bind fun count _ => skipToStatement count)

/-- After a syntax error nothing is yielded, and the cursor is still among the tokens. -/
theorem recovering {V : α → α → Prop} (h : Delivers ts r fun a => ∃ a', V a a') :
    Delivers ts (recovering r) fun a? => ∃ a'?, Option.Rel V a? a'? := by
  intro c hc
  rcases h c hc with ⟨hover, hpost⟩
  rw [DeliversAt, run_recovering]
  -- the three outcomes: a syntax error, a look beyond the tokens, a result
  rcases hrun : r.run c with ⟨(_ | _) | a, c'⟩
  · rw [hrun] at hover
    exact (synchronize.bind fun _ _ => pure ⟨none, .none⟩) c' hover
  · rw [hrun] at hover
    exact ⟨hover, nofun⟩
  · rw [hrun] at hover hpost
    refine ⟨hover, ?_⟩
    rintro _ ⟨⟩
    rcases hpost a rfl with ⟨a', hV⟩
    exact ⟨some a', .some hV⟩

end Delivers

/-! ## Trees made of the tokens of a list -/

/-- A well-formed expression that binds at least so tightly. -/
def Operand (ts : List Token) (n : Nat) (e : Node) : Prop := ExpressionOver ts e ∧ n ≤ e.precedence

/-- An operation on operands that bind tightly enough is well formed. -/
theorem Operand.join {l : Level} {o : Token} {a b : Node} (ho : o ∈ ts)
    (hkind : o.kind ∈ l.operators) (ha : Operand ts l.precedence a)
    (hb : Operand ts (l.precedence + 1) b) : Operand ts l.precedence (l.join a o b) := by
  -- two levels make logical operations, the others binary ones
  have hjoin : (l.join = .logical ∧ ∀ k ∈ l.operators, k ∈ [Kind.kwAnd, .kwOr]) ∨
      (l.join = .binary ∧ ∀ k ∈ l.operators, k ∈ binaryKinds) := by
    cases l with
    | disjunction | conjunction => exact .inl ⟨rfl, by decide⟩
    | equality | comparison | term | factor => exact .inr ⟨rfl, by decide⟩
  have hprecedence := precedence_of_operator hkind
  -- the left operand may be of the same level, the right one may not
  have hleft : o.kind.precedence ≤ a.precedence := hprecedence ▸ ha.2
  have hright : o.kind.precedence < b.precedence := hprecedence ▸ hb.2
  have hself : l.precedence ≤ o.kind.precedence := Nat.le_of_eq hprecedence.symm
  rcases hjoin with ⟨hjoin, hkinds⟩ | ⟨hjoin, hkinds⟩
  · rw [hjoin]
    exact ⟨.logical ho (hkinds _ hkind) ha.1 hleft hb.1 hright, hself⟩
  · rw [hjoin]
    exact ⟨.binary ho (hkinds _ hkind) ha.1 hleft hb.1 hright, hself⟩

/-- What may stand as the body of a statement may stand in a block as well. -/
theorem StatementOver.inSequence {s : Node} (h : StatementOver ts .asBody s) :
    StatementOver ts .inSequence s := by
  cases h with
  | expression he => exact .expression he
  | print he => exact .print he
  | block hss => exact .block hss
  | branch hc ht he => exact .branch hc ht he
  | loop hc hb => exact .loop hc hb

/-- Lists that agree part by part share what is said of the parts. -/
theorem forall₂_over {P : Node → Prop} {ns ns' : List Node}
    (h : List.Forall₂ (fun e e' => P e ∧ e = e') ns ns') : (∀ e ∈ ns, P e) ∧ ns = ns' := by
  rcases (List.forall₂_and_left _ _).mp h with ⟨hall, heq⟩
  exact ⟨hall, forall₂_eq heq⟩

/-- A part that is there has the property, and is there on both sides. -/
theorem IfPresent.over {P : Node → Prop} {e e' : Node}
    (h : IfPresent (fun e e' => P e ∧ e = e') e e') : (e ≠ .absent → P e) ∧ e = e' := by
  by_cases he : e = .absent
  · exact ⟨fun hne => absurd he hne, by rw [he, h.1.mp he]⟩
  · exact ⟨fun _ => (h.2 he).1, (h.2 he).2⟩

/-- What is alike is the same, made of tokens of the list and well formed. -/
def Likeness.over (ts : List Token) : Likeness where
  token t t' := t ∈ ts ∧ t = t'
  expression n e e' := Operand ts n e ∧ e = e'
  statement p s s' := StatementOver ts p s ∧ s = s'
  elastic := False
  literal _ := ⟨⟨.literal, Nat.le_refl 9⟩, rfl⟩
  constant h := ⟨⟨.literal, Nat.le_refl 9⟩, by rw [h.2]⟩
  reference h hkind := ⟨⟨.reference h.1 hkind, Nat.le_refl 9⟩, by rw [h.2]⟩
  grouping h := ⟨⟨.grouping h.1.1, Nat.le_refl 9⟩, by rw [h.2]⟩
  call hf hp hkind has := by
    rcases forall₂_over has with ⟨hall, rfl⟩
    exact ⟨⟨.call hf.1.1 hf.1.2 hp.1 hkind fun a ha => (hall a ha).1, Nat.le_refl 8⟩,
      by rw [hf.2, hp.2]⟩
  unary ho hkind he :=
    ⟨⟨.unary ho.1 hkind he.1.1 he.1.2, Nat.le_refl 7⟩, by rw [ho.2, he.2]⟩
  join ha ho hkind hb := ⟨.join ho.1 hkind ha.1 hb.1, by rw [ha.2, ho.2, hb.2]⟩
  assign he hv := by
    refine ⟨_, he.2.symm, ⟨?_, Nat.zero_le _⟩, by rw [hv.2]⟩
    cases he.1.1 with
    | reference hn hkind => exact .assign hn hkind hv.1.1
  name h := ⟨_, h.2⟩
  looser hjk h := ⟨⟨h.1.1, Nat.le_trans hjk h.1.2⟩, h.2⟩
  there h := by rw [h.2]
  evaluated h := ⟨.expression h.1.1, by rw [h.2]⟩
  printed h := ⟨.print h.1.1, by rw [h.2]⟩
  declared hn hkind he := by
    rcases he.over with ⟨hpresent, rfl⟩
    exact ⟨.var hn.1 hkind fun hne => (hpresent hne).1, by rw [hn.2]⟩
  block hss := by
    rcases forall₂_over hss with ⟨hall, rfl⟩
    exact ⟨.block hall, rfl⟩
  branch hc hs he := by
    rcases he.over with ⟨hpresent, rfl⟩
    exact ⟨.branch hc.1.1 hs.1 hpresent, by rw [hc.2, hs.2]⟩
  loop hc hs := ⟨.loop hc.1.1 hs.1, by rw [hc.2, hs.2]⟩
  inSequence h := ⟨StatementOver.inSequence h.1, h.2⟩
  stands h := by rw [h.2]

/-- Readers of the same steps stay among the tokens of the list, and yield what is made of them. -/
theorem Descends.delivers {m : Manner} {n d : Nat} {V : α → α → Prop} {r r' : Reader α}
    (h : Descends (.over ts) m n d V r r') : Delivers ts r fun a => ∃ a', V a a' := by
  induction h with
  | pure hV => exact .pure ⟨_, hV⟩
  | bind _ _ ih ihf => exact ih.bind fun a ⟨a', hV⟩ => ihf a a' hV
  | weaken _ _ _ hV ih => exact ih.mono fun a ⟨a', h⟩ => ⟨a', hV a a' h⟩
  | far _ ih => exact ih
  -- the bounds are equal, so none is used up first
  | blind helastic => exact helastic.elim
  | peek => exact Delivers.peek.mono fun t ht => ⟨t, ht, rfl⟩
  | complain complaint _ => exact (Delivers.complain _ complaint).mono fun _ _ => ⟨(), trivial⟩
  | fail complaint _ => exact .fail complaint
  | check _ => exact (Delivers.check _).mono fun _ _ => ⟨_, rfl⟩
  | consume complaint _ _ =>
      exact (Delivers.consume _ complaint).mono fun t ht => ⟨t, ⟨ht.1, rfl⟩, ht.2⟩
  | accept _ _ _ ihyes ihno => exact (Delivers.accept _).choose ihyes ihno
  | acceptPrevious _ _ _ ihyes ihno =>
      exact .accept_previous (fun t ht hkind => ihyes t t ⟨ht, rfl⟩ hkind) ihno
  | acceptBrace _ _ ihyes ihno => exact (Delivers.accept _).choose ihyes ihno
  | remaining _ _ ih => exact Delivers.remaining.bind fun b _ => ih 0 b b (.inl rfl)
  | recovering _ ih => exact ih.recovering
  | next _ hb _ ih ihf =>
      refine Delivers.isAtEnd.choose (.pure ⟨_, hb⟩) ?_
      exact ih.recovering.bind fun a ⟨a', hV⟩ => ihf a a' hV

/-- From any cursor among the tokens of the list a program is well formed. -/
theorem program_delivers :
    Delivers ts program fun ss => ∀ s ∈ ss, StatementOver ts .inSequence s :=
  (program_descends (.over ts) 0).delivers.mono fun _ ⟨_, hss⟩ => (forall₂_over hss).1

/-! ## Programs -/

/-- A token list with an end token, however malformed, is read to a program. Every statement of
the program is well formed and made of tokens of the list. -/
theorem read_well_formed {ts : List Token} (hend : ∃ t ∈ ts, t.kind = .eof) (r : Report) :
    (∃ c, program.run ⟨[], ts, r⟩ = (.ok (read ts r).1, c)) ∧
      ∀ s ∈ (read ts r).1, StatementOver ts .inSequence s := by
  -- what is behind the first end token is not read
  obtain ⟨xs, stop, us, rfl, hxs, hstop⟩ := exists_first_end hend
  rcases ends_at_end hxs hstop r with ⟨ss, ds, hends⟩
  have hrun := (hends us).1
  have hread : (read (xs ++ stop :: us) r).1 = ss := by rw [read, hrun]
  have hover : (⟨[], xs ++ stop :: us, r⟩ : Cursor).Over (xs ++ stop :: us) :=
    ⟨List.nil_subset _, List.Subset.refl _⟩
  have hwell := (program_delivers _ hover).2
  rw [hrun] at hwell
  rw [hread]
  exact ⟨⟨_, hrun⟩, hwell ss rfl⟩

/-- An assignment to a sum, and a block without an end. -/
def misassigned : List Token := [
  .scanned .identifier "a" .nil 1, .scanned .plus "+" .nil 1, .scanned .identifier "b" .nil 1,
  .scanned .equal "=" .nil 1, .scanned .identifier "c" .nil 1, .scanned .semicolon ";" .nil 1,
  .scanned .leftBrace "\x7b" .nil 2, .scanned .eof "" .nil 2]

theorem read_well_formed_misassigned :
    (∃ t ∈ misassigned, t.kind = .eof) ∧
      (read misassigned {}).1 = [.expression (.binary (.reference (.scanned .identifier "a" .nil 1))
        (.scanned .plus "+" .nil 1) (.reference (.scanned .identifier "b" .nil 1)))] ∧
      (∃ c, program.run ⟨[], misassigned, {}⟩ = (.ok (read misassigned {}).1, c)) ∧
      ∀ s ∈ (read misassigned {}).1, StatementOver misassigned .inSequence s := by
  have hend : ∃ t ∈ misassigned, t.kind = .eof := by decide
  exact ⟨hend, rfl, read_well_formed hend {}⟩

end Descent

end NovaLang
