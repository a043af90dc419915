import NovaLang.Proofs.Phrase

namespace NovaLang.Phrase

/-! # Expressions one behind another

An expression that begins with a minus sign or with a parenthesis goes on with an expression in
front of it: the two of them are a single expression, a difference or a call.
-/

/-- How loose an expression of a rule may be. Behind one, whatever can stand behind a tighter one
can stand; nothing is said of the rules of rank 0. -/
def rank : Rule → Nat
  | .call => 1
  | .unary => 2
  | .level .factor => 3
  | .level .term => 4
  | .level .comparison => 5
  | .level .equality => 6
  | .level .conjunction => 7
  | .level .disjunction => 8
  | .assignment => 9
  | .expression => 10
  | _ => 0

theorem rank_operand (l : Level) : rank (.level l) = rank l.operand + 1 := by
  cases l <;> rfl

theorem rank_inj {q r : Rule} (hq : 0 < rank q) (h : rank q = rank r) : q = r := by
  revert hq h
  fun_cases rank q <;> fun_cases rank r <;> simp

/-- Some tokens go on with every expression of a rule. -/
def Extends (q : Rule) (zs : List Token) : Prop :=
  ∀ xs a, Expr q xs a → ∃ c, Expr q (xs ++ zs) c

/-- What goes on with the expressions of a rule goes on with all looser ones. -/
theorem Expr.extend {q r : Rule} {xs zs : List Token} {a : Node} (h : Expr r xs a)
    (hq : 0 < rank q) (hzs : Extends q zs) (hr : rank q ≤ rank r) :
    ∃ c, Expr r (xs ++ zs) c := by
  -- by induction on the last part of the expression, down to one of the rule
  have htop : ∀ {r xs a}, Expr r xs a → rank q = rank r → ∃ c, Expr r (xs ++ zs) c := by
    intro r xs a h heq
    obtain rfl := rank_inj hq heq
    exact hzs _ _ h
  induction h with
  | constant | name | grouping | lastArgument | argument =>
      exact absurd (Nat.lt_of_lt_of_le hq hr) (Nat.lt_irrefl 0)
  | primary h => exact htop (.primary h) (Nat.le_antisymm hr hq)
  | callAlone h hl hr' => exact htop (.callAlone h hl hr') (Nat.le_antisymm hr hq)
  | callWith h hl has hlimit hr' =>
      exact htop (.callWith h hl has hlimit hr') (Nat.le_antisymm hr hq)
  | call h ih =>
      rcases Nat.eq_or_lt_of_le hr with heq | hlt
      · exact htop (.call h) heq
      · rcases ih (Nat.le_of_lt_succ hlt) with ⟨c, hc⟩
        exact ⟨_, .call hc⟩
  | unary ho h ih =>
      rcases ih hr with ⟨c, hc⟩
      exact ⟨_, .unary ho hc⟩
  | @operand l _ _ h ih =>
      rcases Nat.eq_or_lt_of_le hr with heq | hlt
      · exact htop (.operand h) heq
      · rw [rank_operand] at hlt
        rcases ih (Nat.le_of_lt_succ hlt) with ⟨c, hc⟩
        exact ⟨_, .operand hc⟩
  | @operation l _ _ _ _ _ hx ho hy _ ih =>
      rcases Nat.eq_or_lt_of_le hr with heq | hlt
      · exact htop (.operation hx ho hy) heq
      · rw [rank_operand] at hlt
        rcases ih (Nat.le_of_lt_succ hlt) with ⟨c, hc⟩
        exact ⟨_, by simpa using Expr.operation hx ho hc⟩
  | disjunction h ih =>
      rcases Nat.eq_or_lt_of_le hr with heq | hlt
      · exact htop (.disjunction h) heq
      · rcases ih (Nat.le_of_lt_succ hlt) with ⟨c, hc⟩
        exact ⟨_, .disjunction hc⟩
  | assignment hn he h ih =>
      rcases ih hr with ⟨c, hc⟩
      exact ⟨_, .assignment hn he hc⟩
  | whole h ih =>
      rcases Nat.eq_or_lt_of_le hr with heq | hlt
      · exact htop (.whole h) heq
      · rcases ih (Nat.le_of_lt_succ hlt) with ⟨c, hc⟩
        exact ⟨_, .whole hc⟩

theorem extends_operation {l : Level} {o : Token} {ys : List Token} {b : Node}
    (ho : o.kind ∈ l.operators) (hy : Expr l.operand ys b) : Extends (.level l) (o :: ys) :=
  fun _ _ hx => ⟨_, .operation hx ho hy⟩

theorem extends_callAlone {l r : Token} (hl : l.kind = .leftParen) (hr : r.kind = .rightParen) :
    Extends .call [l, r] :=
  fun _ _ h => ⟨_, .callAlone h hl hr⟩

theorem extends_callWith {l r : Token} {ys : List Token} {as : List Node}
    (hl : l.kind = .leftParen) (has : Expr .arguments ys (.list as))
    (hlimit : as.length ≤ maxArguments) (hr : r.kind = .rightParen) :
    Extends .call (l :: ys ++ [r]) :=
  fun _ _ h => ⟨_, by simpa using Expr.callWith h hl has hlimit hr⟩

/-- An expression that begins with a minus sign or a parenthesis goes on with any expression. -/
theorem Expr.juxtaposed {r : Rule} {t : Token} {us : List Token} {b : Node}
    (h : Expr r (t :: us) b) (hr : r ≠ .arguments) (ht : t.kind = .leftParen ∨ t.kind = .minus) :
    Extends .expression (t :: us) := by
  generalize hys : t :: us = ys at h
  -- the first part of the expression begins with the same token
  have hhead : ∀ {q : Rule} {us xs zs : List Token} {a : Node}, Expr q xs a →
      t :: us = xs ++ zs → ∃ xs', t :: xs' = xs := by
    intro q us xs zs a hx heq
    obtain ⟨u, xs', rfl, -⟩ := hx.first
    exact ⟨xs', by rw [(List.cons.inj heq).1]⟩
  induction h generalizing us with
  | @constant u v hu =>
      obtain ⟨rfl, -⟩ := List.cons.inj hys
      rcases ht with ht | ht <;> simp [Token.constant?, ht] at hu
  | name hn | assignment hn =>
      obtain ⟨rfl, -⟩ := List.cons.inj hys
      rcases ht with ht | ht <;> simp [ht] at hn
  | grouping hl he hr' =>
      -- a parenthesis behind an expression is a call with one argument
      have hone : 1 ≤ maxArguments := by decide
      have hcall := extends_callWith hl (.lastArgument he) hone hr'
      exact fun _ _ hx => hx.extend (by decide) hcall (by decide)
  | primary _ ih | call _ ih | disjunction _ ih | whole _ ih => exact ih (by decide) hys
  | @operand l _ _ _ ih => exact ih (by cases l <;> decide) hys
  | callAlone hf hl hr' ih =>
      obtain ⟨xs', hxs'⟩ := hhead hf hys
      intro xs a hx
      rcases ih (by decide) hxs' xs a hx with ⟨c, hc⟩
      rw [← List.append_assoc]
      exact hc.extend (by decide) (extends_callAlone hl hr') (by decide)
  | callWith hf hl has hlimit hr' ih =>
      rw [List.append_assoc] at hys ⊢
      obtain ⟨xs', hxs'⟩ := hhead hf hys
      intro xs a hx
      rcases ih (by decide) hxs' xs a hx with ⟨c, hc⟩
      rw [← List.append_assoc]
      exact hc.extend (by decide) (extends_callWith hl has hlimit hr') (by decide)
  | @unary o ts e ho he =>
      -- the sign joins the expressions as a difference
      obtain ⟨rfl, -⟩ := List.cons.inj hys
      have hminus : t.kind ∈ Level.term.operators := by
        rcases ht with ht | ht
        · rw [ht] at ho
          exact absurd ho (by decide)
        · simp [Level.operators, ht]
      have hterm := extends_operation hminus (.operand he)
      exact fun _ _ hx => hx.extend (by decide) hterm (by decide)
  | @operation l o _ _ _ _ hx ho hy ih =>
      obtain ⟨xs', hxs'⟩ := hhead hx hys
      intro xs a hxs
      rcases ih (by simp) hxs' xs a hxs with ⟨c, hc⟩
      rw [← List.append_assoc]
      exact hc.extend (by cases l <;> decide) (extends_operation ho hy) (by cases l <;> decide)
  | lastArgument => exact absurd rfl hr
  | argument => exact absurd rfl hr

end NovaLang.Phrase
