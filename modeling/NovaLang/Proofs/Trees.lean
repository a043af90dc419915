import NovaLang.Proofs.Phrase

namespace NovaLang.Phrase

/-! # What trees of phrases are built of

A property of expressions and one of statements hold of the trees of all phrases if every form of
phrases hands them on from its parts. The tokens of a phrase count where its tree keeps them.
-/

/-- The forms of phrases hand on a property of expressions and a property of statements, where their
tokens have the property `P`. -/
structure Builds (P : Token → Prop) (E S : Node → Prop) : Prop where
  literal {t : Token} {v : Value} : P t → t.constant? = some v → E (.literal v)
  reference {n : Token} : P n → n.kind = .identifier → E (.reference n)
  grouping {e : Node} : E e → E (.grouping e)
  call {f : Node} {p : Token} {as : List Node} :
    E f → P p → p.kind = .rightParen → (∀ a ∈ as, E a) → E (.call f p as)
  unary {o : Token} {e : Node} : P o → o.kind ∈ [Kind.bang, .minus] → E e → E (.unary o e)
  operation {l : Level} {a b : Node} {o : Token} :
    E a → P o → o.kind ∈ l.operators → E b → E (l.join a o b)
  assign {n : Token} {e : Node} : P n → n.kind = .identifier → E e → E (.assign n e)
  /-- What a `for` without a condition tests. -/
  always : E (.literal (.bool true))
  expression {e : Node} : E e → S (.expression e)
  print {e : Node} : E e → S (.print e)
  declaration {n : Token} : P n → n.kind = .identifier → S (.var n .absent)
  definition {n : Token} {e : Node} : P n → n.kind = .identifier → E e → S (.var n e)
  block {ss : List Node} : (∀ s ∈ ss, S s) → S (.block ss)
  branch {c t : Node} : E c → S t → S (.branch c t .absent)
  branches {c t e : Node} : E c → S t → S e → S (.branch c t e)
  loop {c b : Node} : E c → S b → S (.loop c b)

namespace Builds

variable {P : Token → Prop} {E S : Node → Prop} (hb : Builds P E S) {ts : List Token}

/-- What is read by a rule of expressions: for arguments, a list. -/
def Reads (E : Node → Prop) (r : Rule) (e : Node) : Prop :=
  match r with
  | .arguments => ∃ as, e = .list as ∧ ∀ a ∈ as, E a
  | _ => E e

/-- What a part of a program stands for: declarations are a list of statements. -/
def Stands (S : Node → Prop) (p : Part) (s : Node) : Prop :=
  match p with
  | .declarations => ∃ ss, s = .list ss ∧ ∀ s ∈ ss, S s
  | _ => S s

include hb

/-- What holds of every form holds of every expression that is read. -/
theorem reads {r : Rule} {e : Node} (h : Expr r ts e) (hts : ∀ t ∈ ts, P t) : Reads E r e := by
  induction h with
  | constant hv => exact hb.literal (hts _ List.mem_cons_self) hv
  | name hn => exact hb.reference (hts _ List.mem_cons_self) hn
  | grouping _ _ _ ih => exact hb.grouping (ih fun t ht => hts t (by simp [ht]))
  | primary _ ih | call _ ih | disjunction _ ih | whole _ ih => exact ih hts
  | callAlone _ _ hr ih =>
      exact hb.call (ih fun t ht => hts t (by simp [ht])) (hts _ (by simp)) hr nofun
  | callWith _ _ _ _ hr ihf ihas =>
      rcases ihas fun t ht => hts t (by simp [ht]) with ⟨as, has, hall⟩
      cases has
      exact hb.call (ihf fun t ht => hts t (by simp [ht])) (hts _ (by simp)) hr hall
  | lastArgument _ ih => exact ⟨_, rfl, List.forall_mem_singleton.mpr (ih hts)⟩
  | argument _ _ _ iha ihas =>
      rcases ihas fun t ht => hts t (by simp [ht]) with ⟨as, has, hall⟩
      cases has
      exact ⟨_, rfl, List.forall_mem_cons.mpr ⟨iha fun t ht => hts t (by simp [ht]), hall⟩⟩
  | unary ho _ ih =>
      exact hb.unary (hts _ List.mem_cons_self) ho (ih fun t ht => hts t (by simp [ht]))
  | @operand l _ _ _ ih =>
      -- what stands between operators is read by a rule of the next level, never by `arguments`
      have he := ih hts
      cases l <;> exact he
  | @operation l _ _ _ _ b _ ho _ iha ihb =>
      have hright := ihb fun t ht => hts t (by simp [ht])
      have hoperand : E b := by cases l <;> exact hright
      exact hb.operation (iha fun t ht => hts t (by simp [ht])) (hts _ (by simp)) ho hoperand
  | assignment hn _ _ ih =>
      exact hb.assign (hts _ List.mem_cons_self) hn (ih fun t ht => hts t (by simp [ht]))

theorem expr {e : Node} (h : Expr .expression ts e) (hts : ∀ t ∈ ts, P t) : E e := hb.reads h hts

/-- The same of an expression that may be left out, when it is not. -/
theorem maybe {e : Node} (h : Maybe ts e) (hts : ∀ t ∈ ts, P t) (he : e ≠ .absent) : E e := by
  cases h with
  | absent => exact absurd rfl he
  | present h => exact hb.expr h hts

/-- What holds of every form of simple statement holds of every one that is read. -/
theorem simple {r : Rule} {s : Node} (h : Simple r ts s) (hts : ∀ t ∈ ts, P t) : S s := by
  cases h with
  | bare _ hn => exact hb.declaration (hts _ (by simp)) hn
  | initialized _ hn _ he =>
      exact hb.definition (hts _ (by simp)) hn (hb.expr he fun t ht => hts t (by simp [ht]))
  | expression he => exact hb.expression (hb.expr he fun t ht => hts t (by simp [ht]))
  | print _ he => exact hb.print (hb.expr he fun t ht => hts t (by simp [ht]))

/-- The same of an initializer that is not left out. -/
theorem initializer {s : Node} (h : Initializer ts s) (hts : ∀ t ∈ ts, P t) (hs : s ≠ .absent) :
    S s := by
  cases h with
  | absent => exact absurd rfl hs
  | varDecl h | exprStmt h => exact hb.simple h hts

/-- A `for` is made of the statements that its clauses are, where they are there. -/
theorem forLoop {i c n b : Node} (hi : i ≠ .absent → S i) (hc : c ≠ .absent → E c)
    (hn : n ≠ .absent → E n) (hbody : S b) : S (Descent.forLoop i c n b) := by
  -- the clauses that are missing leave their statement out, except for the condition
  have hrounds : ∀ s ∈ Descent.forRounds n b, S s := by
    unfold Descent.forRounds
    split
    · exact List.forall_mem_singleton.mpr hbody
    · rename_i habsent
      exact List.forall_mem_cons.mpr
        ⟨hbody, List.forall_mem_singleton.mpr (hb.expression (hn habsent))⟩
  have htest : E (Descent.forTest c) := by
    unfold Descent.forTest
    split
    · exact hb.always
    · rename_i habsent
      exact hc habsent
  have hloop := hb.loop htest (hb.block hrounds)
  rw [Descent.forLoop_eq]
  unfold Descent.forBlock
  split
  · exact hb.block (List.forall_mem_singleton.mpr hloop)
  · rename_i habsent
    exact hb.block (List.forall_mem_cons.mpr ⟨hi habsent, List.forall_mem_singleton.mpr hloop⟩)

/-- What holds of every form of statement holds of every statement that is read. -/
theorem stands {p : Part} {d : Bool} {s : Node} (h : Stmt p d ts s) (hts : ∀ t ∈ ts, P t) :
    Stands S p s := by
  induction h with
  | exprStmt h | printStmt h | varDecl h => exact hb.simple h hts
  -- the parts of a loop that are left out are no nodes, so they need nothing
  | forLoop _ _ hi hc _ hn _ _ ih =>
      exact hb.forLoop (hb.initializer hi fun t ht => hts t (by simp [ht]))
        (hb.maybe hc fun t ht => hts t (by simp [ht]))
        (hb.maybe hn fun t ht => hts t (by simp [ht])) (ih fun t ht => hts t (by simp [ht]))
  | whileLoop _ _ hc _ _ ih =>
      exact hb.loop (hb.expr hc fun t ht => hts t (by simp [ht]))
        (ih fun t ht => hts t (by simp [ht]))
  | ifAlone _ _ hc _ _ ih =>
      exact hb.branch (hb.expr hc fun t ht => hts t (by simp [ht]))
        (ih fun t ht => hts t (by simp [ht]))
  | ifElse _ _ hc _ _ _ _ iht ihe =>
      exact hb.branches (hb.expr hc fun t ht => hts t (by simp [ht]))
        (iht fun t ht => hts t (by simp [ht])) (ihe fun t ht => hts t (by simp [ht]))
  | block _ _ _ ih =>
      rcases ih fun t ht => hts t (by simp [ht]) with ⟨ss, hss, hall⟩
      cases hss
      exact hb.block hall
  | statement _ ih => exact ih hts
  | none => exact ⟨[], rfl, nofun⟩
  -- for a sequence, the property is one of each member
  | cons _ _ ihs ihss =>
      rcases ihss fun t ht => hts t (by simp [ht]) with ⟨ss, hss, hall⟩
      cases hss
      have hs : S _ := ihs fun t ht => hts t (by simp [ht])
      exact ⟨_, rfl, List.forall_mem_cons.mpr ⟨hs, hall⟩⟩

/-- All statements of a program have the property. -/
theorem program {ss : List Node} (h : Program ts ss) (hts : ∀ t ∈ ts, P t) : ∀ s ∈ ss, S s := by
  rcases hb.stands h hts with ⟨ss', hss, hall⟩
  cases hss
  exact hall

end Builds

end NovaLang.Phrase
