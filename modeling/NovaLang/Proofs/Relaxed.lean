import NovaLang.Proofs.Phrase

namespace NovaLang

/-! # The relaxed grammar

The grammar as a reader of tokens follows it: any operand of a disjunction may stand in
front of an equals sign, and a call has any number of arguments. It is given in the same
notation, and read in the same way: as the least meaning of its rules.
-/

/-! ## The least meaning of rules -/

namespace Ebnf

variable {body : Rule → Ebnf} {r : Rule} {ts : List Token}

/-- What an expression says is still said when the rules say more. -/
theorem Holds.mono {said said' : Rule → List Token → Prop}
    (h : ∀ r ts, said r ts → said' r ts) {e : Ebnf} (he : e.Holds said ts) : e.Holds said' ts := by
  induction e generalizing ts with
  | token | empty => exact he
  | never => exact he.elim
  | rule r => exact h r ts he
  | seq a b iha ihb =>
      rcases he with ⟨xs, ys, rfl, ha, hb⟩
      exact ⟨xs, ys, rfl, iha ha, ihb hb⟩
  | either a b iha ihb => exact he.imp iha ihb
  | optional a ih => exact he.imp_right ih
  | many a ih =>
      rcases he with ⟨parts, rfl, hparts⟩
      exact ⟨parts, rfl, fun part hpart => ih (hparts part hpart)⟩
  | atMost n a ih =>
      rcases he with ⟨parts, rfl, hn, hparts⟩
      exact ⟨parts, rfl, hn, fun part hpart => ih (hparts part hpart)⟩

/-- A rule says of the tokens what it has to say when it stands for its body. -/
def Least (body : Rule → Ebnf) (r : Rule) (ts : List Token) : Prop :=
  ∀ said : Rule → List Token → Prop, (∀ r ts, (body r).Holds said ts → said r ts) → said r ts

/-- What follows the body of a rule is in the least solution. -/
theorem Least.of_body (h : (body r).Holds (Least body) ts) : Least body r ts :=
  fun said closed => closed r ts (h.mono fun _ _ h => h said closed)

/-- Conversely, what is in it follows the body. -/
theorem Least.body_holds (h : Least body r ts) : (body r).Holds (Least body) ts :=
  h (fun r ts => (body r).Holds (Least body) ts) fun _ _ h => h.mono fun _ _ => Least.of_body

/-- Phrases by induction: what is to be shown of one may be used of those that it is made of. -/
theorem Least.induction {said : Rule → List Token → Prop}
    (closed : ∀ r ts, (body r).Holds (fun r ts => Least body r ts ∧ said r ts) ts → said r ts)
    (h : Least body r ts) : said r ts :=
  (h (fun r ts => Least body r ts ∧ said r ts) fun r ts hbody =>
    ⟨.of_body (hbody.mono fun _ _ => And.left), closed r ts hbody⟩).2

/-- The least meaning of the rules of the grammar is what they derive. -/
theorem least_body_iff : Least Rule.body r ts ↔ (Ebnf.rule r).Derives (Token.kinds ts) :=
  ⟨fun h => h _ fun _ _ => derives_of_body, fun h _ closed => h.holds closed ts rfl⟩

/-! ## First tokens -/

/-- The expression may say something of no tokens at all. -/
def nullable : Ebnf → Bool
  | token _ | rule _ | never => false
  | empty | optional _ | many _ | atMost _ _ => true
  | seq a b => a.nullable && b.nullable
  | either a b => a.nullable || b.nullable

/-- The kinds of tokens that an expression begins with, given those of the rules. -/
def firsts (starts : Rule → List Kind) : Ebnf → List Kind
  | token k => [k]
  | rule r => starts r
  | empty | never => []
  | seq a b => a.firsts starts ++ if a.nullable then b.firsts starts else []
  | either a b => a.firsts starts ++ b.firsts starts
  | optional a | many a | atMost _ a => a.firsts starts

/-- The first of the tokens is of one of the kinds. -/
def BeginsIn (kinds : List Kind) (ts : List Token) : Prop :=
  ∃ t us, ts = t :: us ∧ t.kind ∈ kinds

/-- The first token stays the first, whatever is added behind. -/
theorem BeginsIn.append {kinds : List Kind} (h : BeginsIn kinds ts) (us : List Token) :
    BeginsIn kinds (ts ++ us) := by
  rcases h with ⟨t, vs, rfl, ht⟩
  exact ⟨t, vs ++ us, rfl, ht⟩

/-- More kinds may be allowed in front. -/
theorem BeginsIn.mono {kinds kinds' : List Kind} (h : BeginsIn kinds ts)
    (hsub : kinds ⊆ kinds') : BeginsIn kinds' ts := by
  rcases h with ⟨t, us, rfl, ht⟩
  exact ⟨t, us, rfl, hsub ht⟩

/-- A list of parts begins like one of them, unless all are empty. -/
theorem beginsIn_flatten {kinds : List Kind} {parts : List (List Token)}
    (h : ∀ part ∈ parts, part = [] ∨ BeginsIn kinds part) :
    parts.flatten = [] ∨ BeginsIn kinds parts.flatten := by
  induction parts with
  | nil => exact .inl rfl
  | cons part parts ih =>
      rcases List.forall_mem_cons.mp h with ⟨rfl | hpart, hparts⟩
      · exact ih hparts
      · exact .inr (hpart.append parts.flatten)

theorem Holds.first {said : Rule → List Token → Prop} {starts : Rule → List Kind}
    (hsaid : ∀ r ts, said r ts → BeginsIn (starts r) ts) {e : Ebnf} (h : e.Holds said ts) :
    (ts = [] ∧ e.nullable = true) ∨ BeginsIn (e.firsts starts) ts := by
  -- a repetition may be empty, and else begins with its first part that is not
  have hparts : ∀ {a : Ebnf} {parts : List (List Token)},
      (∀ part ∈ parts, (part = [] ∧ a.nullable = true) ∨ BeginsIn (a.firsts starts) part) →
      (parts.flatten = [] ∧ true = true) ∨ BeginsIn (a.firsts starts) parts.flatten :=
    fun h => (beginsIn_flatten fun part hpart => (h part hpart).imp_left And.left).imp_left
      fun hnil => ⟨hnil, rfl⟩
  induction e generalizing ts with
  | token k =>
      rcases h with ⟨t, rfl, rfl⟩
      exact .inr ⟨t, [], rfl, List.mem_singleton_self _⟩
  | rule r => exact .inr (hsaid r ts h)
  | empty => exact .inl ⟨h, rfl⟩
  | never => exact h.elim
  | seq a b iha ihb =>
      rcases h with ⟨xs, ys, rfl, ha, hb⟩
      rcases iha ha with ⟨rfl, hnullable⟩ | hfirst
      · rcases ihb hb with ⟨rfl, hnullable'⟩ | hfirst
        · exact .inl ⟨rfl, by rw [nullable, hnullable, hnullable']; rfl⟩
        · refine .inr (hfirst.mono ?_)
          rw [firsts, if_pos hnullable]
          exact List.subset_append_right _ _
      · exact .inr ((hfirst.append ys).mono (List.subset_append_left _ _))
  | either a b iha ihb =>
      rcases h with ha | hb
      · exact (iha ha).imp (And.imp_right fun h => by rw [nullable, h]; rfl)
          fun h => h.mono (List.subset_append_left _ _)
      · exact (ihb hb).imp (And.imp_right fun h => by rw [nullable, h, Bool.or_true])
          fun h => h.mono (List.subset_append_right _ _)
  | optional a ih =>
      rcases h with rfl | ha
      · exact .inl ⟨rfl, rfl⟩
      · exact (ih ha).imp_left (And.imp_right fun _ => rfl)
  | many a ih =>
      rcases h with ⟨parts, rfl, hmany⟩
      exact hparts (a := a) fun part hpart => ih (hmany part hpart)
  | atMost n a ih =>
      rcases h with ⟨parts, rfl, -, hmany⟩
      exact hparts (a := a) fun part hpart => ih (hmany part hpart)

/-! ## Expressions that say something -/

/-- The expression says something of some tokens, if the known rules do. -/
def productive (known : Rule → Bool) : Ebnf → Bool
  | token _ | empty | optional _ | many _ | atMost _ _ => true
  | rule r => known r
  | never => false
  | seq a b => a.productive known && b.productive known
  | either a b => a.productive known || b.productive known

/-- Where each rule in use has a phrase, so has the whole. -/
theorem exists_holds {said : Rule → List Token → Prop} {known : Rule → Bool}
    (hknown : ∀ r, known r = true → ∃ ts, said r ts) {e : Ebnf}
    (h : e.productive known = true) : ∃ ts, e.Holds said ts := by
  induction e with
  | token k => exact ⟨[.scanned k "" .nil 0], _, rfl, rfl⟩
  | rule r => exact hknown r h
  | empty => exact ⟨[], rfl⟩
  | never => cases h
  | seq a b iha ihb =>
      rcases Bool.and_eq_true_iff.mp h with ⟨ha, hb⟩
      rcases iha ha with ⟨xs, hxs⟩
      rcases ihb hb with ⟨ys, hys⟩
      exact ⟨xs ++ ys, xs, ys, rfl, hxs, hys⟩
  | either a b iha ihb =>
      rcases Bool.or_eq_true_iff.mp h with ha | hb
      · exact (iha ha).imp fun _ => .inl
      · exact (ihb hb).imp fun _ => .inr
  | optional => exact ⟨[], .inl rfl⟩
  | many => exact ⟨[], [], rfl, nofun⟩
  | atMost => exact ⟨[], [], rfl, Nat.zero_le _, nofun⟩

end Ebnf

/-! ## The rules -/

section

open Kind Rule Ebnf

/-- What a rule of the relaxed grammar stands for. -/
def Rule.relaxed : Rule → Ebnf
  | assignment => sequence [level .disjunction, optional (sequence [equal, assignment])]
  | arguments => sequence [expression, many (sequence [comma, expression])]
  | r => r.body

end

/-- The tokens are a phrase of a rule of the relaxed grammar. -/
def Relaxed (r : Rule) (ts : List Token) : Prop := Ebnf.Least Rule.relaxed r ts

namespace Relaxed

open Ebnf Phrase

variable {r : Rule} {ts : List Token}

/-- A phrase of the relaxed body is a relaxed phrase. -/
theorem of_body (h : r.relaxed.Holds Relaxed ts) : Relaxed r ts := Least.of_body h

/-- A relaxed phrase is one of the relaxed body. -/
theorem body_holds (h : Relaxed r ts) : r.relaxed.Holds Relaxed ts := Least.body_holds h

/-! ## What the grammar derives -/

/-- The first part of a repetition alone. -/
theorem of_first {a p : Ebnf} (hr : r.relaxed = sequence [a, many p]) (h : a.Holds Relaxed ts) :
    Relaxed r ts := by
  refine of_body ?_
  rw [hr]
  exact holds_before_many.mpr ⟨ts, [], (List.append_nil ts).symm, h, nofun⟩

/-- A name is an expression of every level. -/
theorem of_name {t : Token} (ht : t.kind = .identifier) : Relaxed (.level .disjunction) [t] := by
  have hprimary : Relaxed .primary [t] :=
    of_body (.inr (.inr (.inr (.inr (.inr (.inr (.inl ⟨t, rfl, ht⟩)))))))
  have hunary : Relaxed .unary [t] := of_body (.inr (.inl (of_first rfl hprimary)))
  have hcomparison : Relaxed (.level .comparison) [t] :=
    of_first rfl (of_first (r := .level .term) rfl (of_first (r := .level .factor) rfl hunary))
  exact of_first rfl
    (of_first (r := .level .conjunction) rfl (of_first (r := .level .equality) rfl hcomparison))

/-- Relaxed phrases are closed under the rules of the grammar. -/
theorem of_strict_body (r : Rule) (ts : List Token) (h : r.body.Holds Relaxed ts) :
    Relaxed r ts := by
  cases r with
  -- the target of an assignment is a name, which is an operand as well
  | assignment =>
      rcases h with hname | hdisjunction | hnever
      · rw [holds_sequence_token] at hname
        rcases hname with ⟨n, ys, rfl, hn, hys⟩
        exact of_body ⟨[n], ys, rfl, of_name hn, holds_last (.inr hys)⟩
      · exact of_body ⟨ts, [], (List.append_nil ts).symm, hdisjunction, holds_last (.inl rfl)⟩
      · exact hnever.elim
  -- there is no limit on the number of arguments
  | arguments =>
      rcases holds_before_atMost.mp h with ⟨first, parts, rfl, hfirst, -, hparts⟩
      exact of_body (holds_before_many.mpr ⟨first, parts, rfl, hfirst, hparts⟩)
  | _ => exact of_body h

/-- What the grammar derives are relaxed phrases. -/
theorem of_derives (h : (Ebnf.rule r).Derives (Token.kinds ts)) : Relaxed r ts :=
  h.holds of_strict_body ts rfl

/-! ## Statements that end in a statement -/

section

variable {k l r s : Token} {is cs ns ts es : List Token}

/-- A loop is a statement, ... -/
theorem whileLoop (hk : k.kind = .kwWhile) (hl : l.kind = .leftParen)
    (hc : Relaxed .expression cs) (hr : r.kind = .rightParen) (ht : Relaxed .statement ts) :
    Relaxed .statement (k :: l :: (cs ++ r :: ts)) := by
  have hloop : Relaxed .whileStmt (k :: l :: (cs ++ r :: ts)) := .of_body
    (holds_token_then hk (holds_token_then hl (holds_then hc (holds_token_then hr
      (holds_last ht)))))
  exact .of_body (.inr (.inr (.inr (.inr (.inl hloop)))))

/-- ... and so is an `if`, with or without `else`, ... -/
theorem branch (hk : k.kind = .kwIf) (hl : l.kind = .leftParen)
    (hc : Relaxed .expression cs) (hr : r.kind = .rightParen) (ht : Relaxed .statement ts)
    (he : (optional (sequence [Kind.kwElse, Rule.statement])).Holds Relaxed es) :
    Relaxed .statement (k :: l :: (cs ++ r :: (ts ++ es))) := by
  have hbranch : Relaxed .ifStmt (k :: l :: (cs ++ r :: (ts ++ es))) := .of_body
    (holds_token_then hk (holds_token_then hl (holds_then hc (holds_token_then hr
      (holds_then ht (holds_last he))))))
  exact .of_body (.inr (.inr (.inl hbranch)))

/-- ... and a `for`. -/
theorem forLoop (hk : k.kind = .kwFor) (hl : l.kind = .leftParen)
    (hi : (oneOf [Rule.varDecl, Rule.exprStmt, Kind.semicolon]).Holds Relaxed is)
    (hc : (optional Rule.expression).Holds Relaxed cs) (hs : s.kind = .semicolon)
    (hn : (optional Rule.expression).Holds Relaxed ns) (hr : r.kind = .rightParen)
    (ht : Relaxed .statement ts) :
    Relaxed .statement (k :: l :: (is ++ (cs ++ s :: (ns ++ r :: ts)))) := by
  have hloop : Relaxed .forStmt (k :: l :: (is ++ (cs ++ s :: (ns ++ r :: ts)))) := .of_body
    (holds_token_then hk (holds_token_then hl (holds_then hi (holds_then hc (holds_token_then hs
      (holds_then hn (holds_token_then hr (holds_last ht))))))))
  exact .of_body (.inr (.inl hloop))

end

/-! ## First tokens of phrases, and phrases of every rule -/

/-- The kinds of tokens that phrases of a rule begin with. -/
def starts : Rule → List Kind
  | .program => .eof :: stmtStarts .declaration
  | .declaration => stmtStarts .declaration
  | .statement => stmtStarts .statement
  | .varDecl => [.kwVar]
  | .forStmt => [.kwFor]
  | .ifStmt => [.kwIf]
  | .printStmt => [.kwPrint]
  | .whileStmt => [.kwWhile]
  | .block => [.leftBrace]
  | .exprStmt => exprStarts .expression
  | r => exprStarts r

/-- No rule is empty, and each begins as it is said to. -/
theorem firsts_relaxed (r : Rule) :
    r.relaxed.nullable = false ∧ r.relaxed.firsts starts ⊆ starts r := by
  cases r with
  | level l => cases l <;> decide
  | _ => decide

/-- The kind of the first token of a phrase. -/
theorem first (h : Relaxed r ts) : BeginsIn (starts r) ts := by
  refine h (fun r ts => BeginsIn (starts r) ts) fun r ts hbody => ?_
  rcases firsts_relaxed r with ⟨hnullable, hsub⟩
  rcases hbody.first fun _ _ h => h with ⟨-, htrue⟩ | hfirst
  · cases hnullable.symm.trans htrue
  · exact hfirst.mono hsub

/-- So there are no empty phrases. -/
theorem ne_nil (h : Relaxed r ts) : ts ≠ [] := by
  rcases h.first with ⟨t, us, rfl, -⟩
  exact List.cons_ne_nil t us

/-- The rules that are known to say something after so many rounds. -/
def found : Nat → Rule → Bool
  | 0, _ => false
  | n + 1, r => r.relaxed.productive (found n)

/-- A rule for which a phrase can be found has one. -/
theorem exists_of_found : ∀ (n : Nat) (r : Rule), found n r = true → ∃ ts, Relaxed r ts
  | 0, _, h => by cases h
  | n + 1, _, h => (exists_holds (exists_of_found n) h).imp fun _ => of_body

/-- There is a phrase of every rule. -/
theorem exists_relaxed (r : Rule) : ∃ ts, Relaxed r ts := by
  refine exists_of_found 14 r ?_
  cases r with
  | level l => cases l <;> decide +kernel
  | _ => decide +kernel

/-- Whatever is made of rules alone says something of some tokens. -/
theorem exists_phrase {e : Ebnf} (h : e.productive (fun _ => true) = true) :
    ∃ ts, e.Holds Relaxed ts :=
  exists_holds (fun r _ => exists_relaxed r) h

end Relaxed

end NovaLang
