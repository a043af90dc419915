import NovaLang.Proofs.Grammar.Denotes

namespace NovaLang.Grammar

open Phrase

/-! # Derivation trees of phrases

Every phrase has a proper tree that stands for its syntax tree. Left-recursive symbols
grow at their right end, while arguments and declarations are phrases that go on to the
right; so these are told by what they add to what stands in front of them.
-/

/-! ## Building trees -/

/-- Only arguments are counted. -/
theorem argumentCount_eq_zero {n : Nonterminal} (hn : n ≠ .arguments) (m : Meaning) :
    argumentCount n m = 0 := by
  unfold argumentCount
  split
  · exact absurd rfl hn
  · rfl

/-- A tree of a production from trees of its parts. -/
theorem Grown.make {n : Nonterminal} {rhs : List Symbol} {o : Bool} {ls : List Lexeme}
    {ms : List Meaning} (hrule : ⟨n, rhs⟩ ∈ statementRules ++ expressionRules)
    (h : Parts Grown rhs o ls ms) (hn : n ≠ .goal ∧ n ≠ .arguments) :
    Grown n (Production.isShortIf ⟨n, rhs⟩ || o) ls (build n ms) :=
  Grown.of_parts hrule hn.1 h (by simp [argumentCount_eq_zero hn.2])

/-! ## Levels -/

section

variable {l : Level} {ls us vs : List Lexeme} {a b e : Node}

/-- The head of a level may be a single operand, ... -/
theorem operand_rule (l : Level) :
    ⟨l.head, [.nonterminal l.below]⟩ ∈ statementRules ++ expressionRules := by
  cases l <;> decide

/-- ... or an operand with operations behind it. -/
theorem level_rule (l : Level) :
    ⟨l.head, [.nonterminal l.below, .nonterminal l.tail]⟩ ∈ statementRules ++ expressionRules := by
  cases l <;> decide

/-- The tail of a level is one operation, ... -/
theorem operation_rule (l : Level) : ∀ k ∈ l.operators,
    ⟨l.tail, [.terminal k, .nonterminal l.below]⟩ ∈ statementRules ++ expressionRules := by
  cases l <;> decide

/-- ... or has one more behind the others. -/
theorem operations_rule (l : Level) : ∀ k ∈ l.operators,
    ⟨l.tail, [.nonterminal l.tail, .terminal k, .nonterminal l.below]⟩ ∈
      statementRules ++ expressionRules := by
  cases l <;> decide

theorem head_ne (l : Level) : l.head ≠ .goal ∧ l.head ≠ .arguments := by
  cases l <;> decide

theorem tail_ne (l : Level) : l.tail ≠ .goal ∧ l.tail ≠ .arguments := by
  cases l <;> decide

theorem isShortIf_head (rhs : List Symbol) : Production.isShortIf ⟨l.head, rhs⟩ = false := by
  cases l <;> rfl

theorem isShortIf_tail (rhs : List Symbol) : Production.isShortIf ⟨l.tail, rhs⟩ = false := by
  cases l <;> rfl

/-- An expression of a level is an operand, or an operand and operations. -/
inductive LevelGrown (l : Level) : List Lexeme → Node → Prop where
  | operand {us : List Lexeme} {a : Node} :
      Grown l.below false us (.node a) → LevelGrown l us a
  | operations {us vs : List Lexeme} {a : Node} {os : List (Token × Node)} :
      Grown l.below false us (.node a) → Grown l.tail false vs (.operations os) →
      LevelGrown l (us ++ vs) (foldOperations l.join a os)

/-- What has grown on a level has grown from its head. -/
theorem LevelGrown.grown (h : LevelGrown l ls e) : Grown l.head false ls (.node e) := by
  cases h with
  | operand ha =>
      have ht := Grown.make (operand_rule l) (.last ha) (head_ne l)
      rwa [isShortIf_head, build_operand] at ht
  | operations ha hos =>
      have ht := Grown.make (level_rule l) (.inner ha (by simp) (.last hos)) (head_ne l)
      rwa [isShortIf_head, build_level] at ht

/-- One more operation at the right end. -/
theorem LevelGrown.concat (h : LevelGrown l ls a) {o : Lexeme} (ho : o.kind ∈ l.operators)
    (hb : Grown l.below false vs (.node b)) :
    LevelGrown l (ls ++ o :: vs) (l.join a o.token b) := by
  -- the productions of a level recur on the left, so the new operation ends the tail
  cases h with
  | operand ha =>
      have ht := Grown.make (operation_rule l _ ho) (.leaf rfl (.last hb)) (tail_ne l)
      rw [isShortIf_tail, build_operation] at ht
      exact .operations ha ht
  | operations ha hos =>
      have ht := Grown.make (operations_rule l _ ho)
        (.inner hos (by simp) (.leaf rfl (.last hb))) (tail_ne l)
      rw [isShortIf_tail, build_operations] at ht
      have hgrown := LevelGrown.operations ha ht
      rwa [foldOperations, List.foldl_append, ← List.append_assoc] at hgrown

end

/-! ## Arguments -/

/-- The lexemes are arguments that stand behind the first one, or nothing. -/
inductive TailGrown : List Lexeme → List Node → Prop where
  | none : TailGrown [] []
  | some {vs : List Lexeme} {bs : List Node} :
      Grown .argumentTail false vs (.nodes bs) → TailGrown vs bs

/-- One more argument behind a comma. -/
theorem TailGrown.concat {c : Lexeme} {vs xs : List Lexeme} {bs : List Node} {a : Node}
    (h : TailGrown vs bs) (hc : c.kind = .comma) (ha : Grown .expression false xs (.node a)) :
    Grown .argumentTail false (vs ++ c :: xs) (.nodes (bs ++ [a])) := by
  cases h with
  | none => exact Grown.make (by decide) (.leaf hc (.last ha)) (by decide)
  | some hbs => exact Grown.make (by decide) (.inner hbs (by simp) (.leaf hc (.last ha))) (by decide)

/-- The lexemes are a first argument and others, and continue any arguments in front. -/
structure ArgumentsGrown (ls : List Lexeme) (as : List Node) : Prop where
  alone : ∃ xs ys a bs, Grown .expression false xs (.node a) ∧ TailGrown ys bs ∧
    ls = xs ++ ys ∧ as = a :: bs
  behind : ∀ {c : Lexeme} {vs : List Lexeme} {bs : List Node}, c.kind = .comma → TailGrown vs bs →
    Grown .argumentTail false (vs ++ c :: ls) (.nodes (bs ++ as))

/-- A single argument. -/
theorem ArgumentsGrown.last {ls : List Lexeme} {a : Node}
    (ha : Grown .expression false ls (.node a)) : ArgumentsGrown ls [a] where
  alone := ⟨ls, [], a, [], ha, .none, by simp, rfl⟩
  behind hc hbs := hbs.concat hc ha

/-- An argument in front of others, whose tail grows from its left end. -/
theorem ArgumentsGrown.cons {c : Lexeme} {xs ys : List Lexeme} {a : Node} {as : List Node}
    (ha : Grown .expression false xs (.node a)) (hc : c.kind = .comma)
    (has : ArgumentsGrown ys as) : ArgumentsGrown (xs ++ c :: ys) (a :: as) where
  alone := ⟨xs, c :: ys, a, as, ha, .some (has.behind hc .none), rfl, rfl⟩
  behind hc' hbs := by
    have hall := has.behind hc (.some (hbs.concat hc' ha))
    simpa using hall

/-- Not too many arguments have a tree. -/
theorem ArgumentsGrown.grown {ls : List Lexeme} {as : List Node} (h : ArgumentsGrown ls as)
    (hcount : as.length ≤ maxArguments) : Grown .arguments false ls (.nodes as) := by
  obtain ⟨xs, ys, a, bs, ha, hbs, rfl, rfl⟩ := h.alone
  cases hbs with
  | none =>
      rw [List.append_nil]
      exact Grown.of_parts (x := ⟨.arguments, [.nonterminal .expression]⟩) (by decide) (by decide)
        (.last ha) hcount
  | some hbs =>
      exact Grown.of_parts (x := ⟨.arguments, [.nonterminal .expression, .nonterminal .argumentTail]⟩)
        (by decide) (by decide) (.inner ha (by simp) (.last hbs)) hcount

/-! ## Expressions -/

/-- What the lexemes of an expression grow to. -/
def ExprGrown (r : Rule) (ls : List Lexeme) (e : Node) : Prop :=
  match r with
  | .level l => LevelGrown l ls e
  | .arguments => ∃ as, e = .list as ∧ ArgumentsGrown ls as
  | .expression => Grown .expression false ls (.node e)
  | .assignment => Grown .assignment false ls (.node e)
  | .unary => Grown .unary false ls (.node e)
  | .call => Grown .call false ls (.node e)
  | .primary => Grown .primary false ls (.node e)
  | _ => True

theorem ExprGrown.below {l : Level} {ls : List Lexeme} {e : Node} (h : ExprGrown l.operand ls e) :
    Grown l.below false ls (.node e) := by
  cases l with
  | factor => exact h
  | disjunction | conjunction | equality | comparison | term => exact LevelGrown.grown h

/-- A literal is a token of one of five kinds, and the value that its lexeme stands for. -/
theorem kind_of_constant {l : Lexeme} {v : Value} (h : l.scanned.constant? = some v) :
    l.kind ∈ [Kind.number, .string, .kwTrue, .kwFalse, .kwNil] ∧ v = l.value := by
  have hkind : l.kind ∈ [Kind.number, .string, .kwTrue, .kwFalse, .kwNil] := by
    simp only [Token.constant?, Lexeme.kind_scanned] at h
    split at h
    all_goals simp_all
  rw [constant_scanned hkind] at h
  exact ⟨hkind, (Option.some.inj h).symm⟩

/-- A lexeme of a kind that has no literal is the same token for both front ends. -/
theorem Lexeme.token_of_kind {l : Lexeme} (h : l.Plain) {k : Kind} (hk : l.scanned.kind = k)
    (hne : k ≠ .number ∧ k ≠ .string) : l.token = l.scanned := by
  subst hk
  exact l.token_eq_scanned h hne.1 hne.2

/-- The tree of a literal. -/
theorem Grown.constant {l : Lexeme}
    (h : l.kind ∈ [Kind.number, .string, .kwTrue, .kwFalse, .kwNil]) :
    Grown .primary false [l] (.node (.literal l.value)) := by
  have hrule : ∀ k ∈ [Kind.number, .string, .kwTrue, .kwFalse, .kwNil],
      ⟨.primary, [.terminal k]⟩ ∈ statementRules ++ expressionRules := by decide
  have hne : l.kind ≠ .identifier := by
    intro hname
    rw [hname] at h
    exact absurd h (by decide)
  have ht := Grown.make (hrule _ h) (.leaf rfl .nil) (by decide)
  have hbuild : build .primary [.lexeme l] = .node (.literal l.value) :=
    congrArg Meaning.node (if_neg hne)
  rwa [hbuild] at ht

/-- The tree of a name. -/
theorem Grown.name {l : Lexeme} (h : l.kind = .identifier) :
    Grown .primary false [l] (.node (.reference l.token)) := by
  have ht := Grown.make (n := .primary) (by decide) (.leaf h .nil) (by decide)
  have hbuild : build .primary [.lexeme l] = .node (.reference l.token) :=
    congrArg Meaning.node (if_pos h)
  rwa [hbuild] at ht

/-- The tree of an operator in front of its operand. -/
theorem Grown.unary {o : Lexeme} {ls : List Lexeme} {e : Node} (ho : o.kind ∈ [Kind.bang, .minus])
    (he : Grown .unary false ls (.node e)) :
    Grown .unary false (o :: ls) (.node (.unary o.token e)) := by
  have hrule : ∀ k ∈ [Kind.bang, .minus],
      ⟨.unary, [.terminal k, .nonterminal .unary]⟩ ∈ statementRules ++ expressionRules := by decide
  exact Grown.make (hrule _ ho) (.leaf rfl (.last he)) (by decide)

/-- The lexemes of an expression have a tree that stands for its syntax tree. -/
theorem grown_of_expr {r : Rule} {ts : List Token} {e : Node} (h : Expr r ts e) {ls : List Lexeme}
    (hts : ls.map Lexeme.scanned = ts) (hplain : ∀ l ∈ ls, l.Plain) : ExprGrown r ls e := by
  induction h generalizing ls with
  | constant hv =>
      obtain ⟨l, rfl, rfl⟩ := List.map_eq_singleton_iff.mp hts
      obtain ⟨hkind, rfl⟩ := kind_of_constant hv
      exact Grown.constant hkind
  | name hn =>
      obtain ⟨l, rfl, rfl⟩ := List.map_eq_singleton_iff.mp hts
      rw [← Lexeme.token_of_kind (hplain l (by simp)) hn (by decide)]
      exact Grown.name hn
  | grouping hl _ hr ih =>
      simp only [List.map_eq_append_iff, List.map_eq_cons_iff, List.map_eq_nil_iff] at hts
      obtain ⟨_, _, rfl, ⟨l, es, rfl, rfl, hes⟩, ⟨r, _, rfl, rfl, rfl⟩⟩ := hts
      simp only [List.forall_mem_cons, List.forall_mem_append] at hplain
      have he := ih hes hplain.1.2
      exact Grown.make (by decide) (.leaf hl (.inner he (by simp) (.leaf hr .nil))) (by decide)
  | primary _ ih => exact Grown.make (by decide) (.last (ih hts hplain)) (by decide)
  | callAlone _ hl hr ih =>
      simp only [List.map_eq_append_iff, List.map_eq_cons_iff, List.map_eq_nil_iff] at hts
      obtain ⟨fs, _, rfl, hfs, ⟨l, _, rfl, rfl, ⟨r, _, rfl, rfl, rfl⟩⟩⟩ := hts
      simp only [List.forall_mem_cons, List.forall_mem_append] at hplain
      have hf := ih hfs hplain.1
      rw [← Lexeme.token_of_kind hplain.2.2.1 hr (by decide)]
      exact Grown.make (by decide) (.inner hf (by simp) (.leaf hl (.leaf hr .nil))) (by decide)
  | callWith _ hl _ hcount hr ihf ihas =>
      simp only [List.append_assoc, List.cons_append, List.map_eq_append_iff,
        List.map_eq_cons_iff, List.map_eq_nil_iff] at hts
      obtain ⟨fs, _, rfl, hfs, ⟨l, _, rfl, rfl, ⟨xs, _, rfl, hxs, ⟨r, _, rfl, rfl, rfl⟩⟩⟩⟩ := hts
      simp only [List.forall_mem_cons, List.forall_mem_append] at hplain
      obtain ⟨hplainf, -, hplainas, hparen, -⟩ := hplain
      have hf := ihf hfs hplainf
      obtain ⟨as, has, hgrown⟩ := ihas hxs hplainas
      cases has
      -- the closing parenthesis is kept in the tree, and is the same token for both front ends
      rw [← Lexeme.token_of_kind hparen hr (by decide)]
      exact Grown.make (by decide) (.inner hf (by simp)
        (.leaf hl (.inner (hgrown.grown hcount) (by simp) (.leaf hr .nil)))) (by decide)
  | lastArgument _ ih => exact ⟨_, rfl, .last (ih hts hplain)⟩
  | argument _ hc _ iha ihas =>
      simp only [List.map_eq_append_iff, List.map_eq_cons_iff] at hts
      obtain ⟨xs, _, rfl, hxs, ⟨c, ys, rfl, rfl, hys⟩⟩ := hts
      simp only [List.forall_mem_cons, List.forall_mem_append] at hplain
      obtain ⟨as, has, hgrown⟩ := ihas hys hplain.2.2
      cases has
      exact ⟨_, rfl, .cons (iha hxs hplain.1) hc hgrown⟩
  | call _ ih => exact Grown.make (by decide) (.last (ih hts hplain)) (by decide)
  | unary ho _ ih =>
      obtain ⟨o, es, rfl, rfl, hes⟩ := List.map_eq_cons_iff.mp hts
      obtain ⟨hplaino, hplaines⟩ := List.forall_mem_cons.mp hplain
      have hne : ∀ k ∈ [Kind.bang, .minus], k ≠ .number ∧ k ≠ .string := by decide
      rw [← Lexeme.token_of_kind hplaino rfl (hne _ ho)]
      exact Grown.unary ho (ih hes hplaines)
  | operand _ ih => exact LevelGrown.operand (ih hts hplain).below
  | operation _ ho _ iha ihb =>
      simp only [List.map_eq_append_iff, List.map_eq_cons_iff] at hts
      obtain ⟨xs, _, rfl, hxs, ⟨o, ys, rfl, rfl, hys⟩⟩ := hts
      simp only [List.forall_mem_cons, List.forall_mem_append] at hplain
      obtain ⟨hplainxs, hplaino, hplainys⟩ := hplain
      rw [← Lexeme.token_of_kind hplaino rfl (operator_ne ho)]
      exact LevelGrown.concat (iha hxs hplainxs) ho (ihb hys hplainys).below
  | disjunction _ ih =>
      exact Grown.make (by decide) (.last (LevelGrown.grown (ih hts hplain))) (by decide)
  | assignment hn hq _ ih =>
      simp only [List.map_eq_cons_iff] at hts
      obtain ⟨n, _, rfl, rfl, ⟨q, es, rfl, rfl, hes⟩⟩ := hts
      simp only [List.forall_mem_cons] at hplain
      rw [← Lexeme.token_of_kind hplain.1 hn (by decide)]
      exact Grown.make (by decide) (.leaf hn (.leaf hq (.last (ih hes hplain.2.2)))) (by decide)
  | whole _ ih => exact Grown.make (by decide) (.last (ih hts hplain)) (by decide)

/-- Every expression of the descent parser's grammar has a tree of productions. -/
theorem grown_of_expression {ls : List Lexeme} {e : Node}
    (h : Expr .expression (ls.map Lexeme.scanned) e) (hplain : ∀ l ∈ ls, l.Plain) :
    Grown .expression false ls (.node e) :=
  grown_of_expr h rfl hplain

/-! ## Statements -/

/-- The nonterminal of a declaration or statement with a semicolon. -/
def simpleHead : Rule → Nonterminal
  | .varDecl => .varDecl
  | .printStmt => .printStmt
  | _ => .exprStmt

/-- So has every simple statement, ... -/
theorem grown_of_simple {r : Rule} {ls : List Lexeme} {s : Node}
    (h : Simple r (ls.map Lexeme.scanned) s) (hplain : ∀ l ∈ ls, l.Plain) :
    Grown (simpleHead r) false ls (.node s) := by
  generalize hts : ls.map Lexeme.scanned = ts at h
  -- the tokens of each form are those of lexemes of its kinds, in its order
  cases h with
  | bare hv hn hs =>
      simp only [List.map_eq_cons_iff, List.map_eq_nil_iff] at hts
      obtain ⟨v, _, rfl, rfl, ⟨n, _, rfl, rfl, ⟨s, _, rfl, rfl, rfl⟩⟩⟩ := hts
      simp only [List.forall_mem_cons] at hplain
      rw [← Lexeme.token_of_kind hplain.2.1 hn (by decide)]
      exact Grown.make (by decide) (.leaf hv (.leaf hn (.leaf hs .nil))) (by decide)
  | initialized hv hn hq he hs =>
      simp only [List.cons_append, List.map_eq_append_iff, List.map_eq_cons_iff,
        List.map_eq_nil_iff] at hts
      obtain ⟨v, _, rfl, rfl, ⟨n, _, rfl, rfl, ⟨q, _, rfl, rfl, ⟨es, _, rfl, rfl,
        ⟨s, _, rfl, rfl, rfl⟩⟩⟩⟩⟩ := hts
      simp only [List.forall_mem_cons, List.forall_mem_append] at hplain
      rw [← Lexeme.token_of_kind hplain.2.1 hn (by decide)]
      exact Grown.make (by decide) (.leaf hv (.leaf hn (.leaf hq
        (.inner (grown_of_expression he hplain.2.2.2.1) (by simp) (.leaf hs .nil))))) (by decide)
  | expression he hs =>
      simp only [List.map_eq_append_iff, List.map_eq_cons_iff, List.map_eq_nil_iff] at hts
      obtain ⟨es, _, rfl, rfl, ⟨s, _, rfl, rfl, rfl⟩⟩ := hts
      simp only [List.forall_mem_cons, List.forall_mem_append] at hplain
      exact Grown.make (by decide)
        (.inner (grown_of_expression he hplain.1) (by simp) (.leaf hs .nil)) (by decide)
  | print hp he hs =>
      simp only [List.cons_append, List.map_eq_append_iff, List.map_eq_cons_iff,
        List.map_eq_nil_iff] at hts
      obtain ⟨p, _, rfl, rfl, ⟨es, _, rfl, rfl, ⟨s, _, rfl, rfl, rfl⟩⟩⟩ := hts
      simp only [List.forall_mem_cons, List.forall_mem_append] at hplain
      exact Grown.make (by decide) (.leaf hp
        (.inner (grown_of_expression he hplain.2.1) (by simp) (.leaf hs .nil))) (by decide)

/-- ... every initializer, ... -/
theorem grown_of_initializer {ls : List Lexeme} {i : Node}
    (h : Initializer (ls.map Lexeme.scanned) i) (hplain : ∀ l ∈ ls, l.Plain) :
    Grown .forInit false ls (.node i) := by
  generalize hts : ls.map Lexeme.scanned = ts at h
  cases h with
  | absent hs =>
      obtain ⟨s, rfl, rfl⟩ := List.map_eq_singleton_iff.mp hts
      exact Grown.make (by decide) (.leaf hs .nil) (by decide)
  | varDecl hd =>
      subst hts
      exact Grown.make (by decide) (.last (grown_of_simple hd hplain)) (by decide)
  | exprStmt he =>
      subst hts
      exact Grown.make (by decide) (.last (grown_of_simple he hplain)) (by decide)

/-- The lexemes are an expression or nothing, with a tree if there are any. -/
inductive MaybeGrown : List Lexeme → Node → Prop where
  | absent : MaybeGrown [] .absent
  | present {ls : List Lexeme} {e : Node} :
      Grown .expression false ls (.node e) → MaybeGrown ls e

/-- ... and every expression that may be left out. -/
theorem grown_of_maybe {ls : List Lexeme} {e : Node} (h : Maybe (ls.map Lexeme.scanned) e)
    (hplain : ∀ l ∈ ls, l.Plain) : MaybeGrown ls e := by
  generalize hts : ls.map Lexeme.scanned = ts at h
  cases h with
  | absent =>
      rw [List.map_eq_nil_iff.mp hts]
      exact .absent
  | present he =>
      subst hts
      exact .present (grown_of_expression he hplain)

/-- Each of the two optional clauses of a `for` is there or not, by a production of its own. -/
theorem Grown.forLoop {d : Bool} {f l s r : Lexeme} {is cs ns bs : List Lexeme} {i c n b : Node}
    (hf : f.kind = .kwFor) (hl : l.kind = .leftParen) (hi : Grown .forInit false is (.node i))
    (hc : MaybeGrown cs c) (hs : s.kind = .semicolon) (hn : MaybeGrown ns n)
    (hr : r.kind = .rightParen) (hb : Grown .statement d bs (.node b)) :
    Grown .forStmt d (f :: l :: (is ++ (cs ++ s :: (ns ++ r :: bs))))
      (.node (Descent.forLoop i c n b)) := by
  -- the grammar has a production for each choice of the parts that are left out
  cases hc with
  | absent =>
      cases hn with
      | absent => exact Grown.make (by decide) (.leaf hf (.leaf hl
          (.inner hi (by simp) (.leaf hs (.leaf hr (.last hb)))))) (by decide)
      | present hn => exact Grown.make (by decide) (.leaf hf (.leaf hl
          (.inner hi (by simp) (.leaf hs (.inner hn (by simp) (.leaf hr (.last hb))))))) (by decide)
  | present hc =>
      cases hn with
      | absent => exact Grown.make (by decide) (.leaf hf (.leaf hl (.inner hi (by simp)
          (.inner hc (by simp) (.leaf hs (.leaf hr (.last hb))))))) (by decide)
      | present hn => exact Grown.make (by decide) (.leaf hf (.leaf hl (.inner hi (by simp)
          (.inner hc (by simp) (.leaf hs (.inner hn (by simp) (.leaf hr (.last hb)))))))) (by decide)

/-- The lexemes are declarations, with a tree if there are any. -/
inductive ListGrown : List Lexeme → List Node → Prop where
  | none : ListGrown [] []
  | some {o : Bool} {vs : List Lexeme} {bs : List Node} :
      Grown .declarationList o vs (.nodes bs) → ListGrown vs bs

/-- One more statement in a list. -/
theorem ListGrown.concat {d : Bool} {vs xs : List Lexeme} {bs : List Node} {s : Node}
    (h : ListGrown vs bs) (hs : Grown .declaration d xs (.node s)) :
    ListGrown (vs ++ xs) (bs ++ [s]) := by
  cases h with
  | none => exact .some (Grown.make (by decide) (.last hs) (by decide))
  | some hbs => exact .some (Grown.make (by decide) (.inner hbs (by simp) (.last hs)) (by decide))

/-- A list of statements in braces. -/
theorem ListGrown.block {l r : Lexeme} {ls : List Lexeme} {ss : List Node} (h : ListGrown ls ss)
    (hl : l.kind = .leftBrace) (hr : r.kind = .rightBrace) :
    Grown .block false (l :: (ls ++ [r])) (.node (.block ss)) := by
  cases h with
  | none => exact Grown.make (by decide) (.leaf hl (.leaf hr .nil)) (by decide)
  | some hss =>
      exact Grown.make (by decide) (.leaf hl (.inner hss (by simp) (.leaf hr .nil))) (by decide)

/-- A list of statements as a program. -/
theorem ListGrown.program {ls : List Lexeme} {ss : List Node} (h : ListGrown ls ss) :
    ∃ o, Grown .program o ls (.nodes ss) := by
  cases h with
  | none => exact ⟨_, Grown.make (by decide) .nil (by decide)⟩
  | some hss => exact ⟨_, Grown.make (by decide) (.last hss) (by decide)⟩

/-- What the lexemes of a part of a program grow to; declarations continue those in front. -/
def StmtGrown (p : Part) (d : Bool) (ls : List Lexeme) (s : Node) : Prop :=
  match p with
  | .statement => Grown .statement d ls (.node s)
  | .declaration => Grown .declaration d ls (.node s)
  | .declarations => ∃ ss, s = .list ss ∧
    ∀ vs bs, ListGrown vs bs → ListGrown (vs ++ ls) (bs ++ ss)

/-- A kind of statement is a statement. -/
theorem Grown.statement {n : Nonterminal} {d : Bool} {ls : List Lexeme} {s : Node}
    (hn : n ∈ [Nonterminal.exprStmt, .forStmt, .ifStmt, .printStmt, .whileStmt, .block])
    (h : Grown n d ls (.node s)) : Grown .statement d ls (.node s) := by
  have hrule : ∀ n ∈ [Nonterminal.exprStmt, .forStmt, .ifStmt, .printStmt, .whileStmt, .block],
      ⟨.statement, [.nonterminal n]⟩ ∈ statementRules ++ expressionRules := by decide
  exact Grown.make (hrule n hn) (.last h) (by decide)

/-- The lexemes of a part of a program have a tree that stands for its syntax tree. -/
theorem grown_of_stmt {p : Part} {d : Bool} {ts : List Token} {s : Node} (h : Stmt p d ts s)
    {ls : List Lexeme} (hts : ls.map Lexeme.scanned = ts) (hplain : ∀ l ∈ ls, l.Plain) :
    StmtGrown p d ls s := by
  induction h generalizing ls with
  | exprStmt h =>
      subst hts
      exact Grown.statement (by decide) (grown_of_simple h hplain)
  | printStmt h =>
      subst hts
      exact Grown.statement (by decide) (grown_of_simple h hplain)
  | forLoop hf hl hi hc hs hn hr _ ih =>
      simp only [List.append_assoc, List.cons_append, List.map_eq_append_iff,
        List.map_eq_cons_iff] at hts
      obtain ⟨f, _, rfl, rfl, ⟨l, _, rfl, rfl, ⟨is, _, rfl, rfl, ⟨cs, _, rfl, rfl, ⟨s, _, rfl, rfl,
        ⟨ns, _, rfl, rfl, ⟨r, bs, rfl, rfl, hbs⟩⟩⟩⟩⟩⟩⟩ := hts
      simp only [List.forall_mem_cons, List.forall_mem_append] at hplain
      obtain ⟨-, -, his, hcs, -, hns, -, hplainbs⟩ := hplain
      exact Grown.statement (by decide) (Grown.forLoop hf hl (grown_of_initializer hi his)
        (grown_of_maybe hc hcs) hs (grown_of_maybe hn hns) hr (ih hbs hplainbs))
  | whileLoop hw hl hc hr _ ih =>
      simp only [List.cons_append, List.map_eq_append_iff, List.map_eq_cons_iff] at hts
      obtain ⟨w, _, rfl, rfl, ⟨l, _, rfl, rfl, ⟨cs, _, rfl, rfl, ⟨r, bs, rfl, rfl, hbs⟩⟩⟩⟩ := hts
      simp only [List.forall_mem_cons, List.forall_mem_append] at hplain
      obtain ⟨-, -, hcs, -, hplainbs⟩ := hplain
      have ht : Grown .whileStmt _ _ _ := Grown.make (by decide) (.leaf hw (.leaf hl
        (.inner (grown_of_expression hc hcs) (by simp) (.leaf hr (.last (ih hbs hplainbs))))))
        (by decide)
      exact Grown.statement (by decide) ht
  | ifAlone hi hl hc hr _ ih =>
      simp only [List.cons_append, List.map_eq_append_iff, List.map_eq_cons_iff] at hts
      obtain ⟨i, _, rfl, rfl, ⟨l, _, rfl, rfl, ⟨cs, _, rfl, rfl, ⟨r, bs, rfl, rfl, hbs⟩⟩⟩⟩ := hts
      simp only [List.forall_mem_cons, List.forall_mem_append] at hplain
      obtain ⟨-, -, hcs, -, hplainbs⟩ := hplain
      have ht : Grown .ifStmt _ _ _ := Grown.make (by decide) (.leaf hi (.leaf hl
        (.inner (grown_of_expression hc hcs) (by simp) (.leaf hr (.last (ih hbs hplainbs))))))
        (by decide)
      exact Grown.statement (by decide) ht
  | ifElse hi hl hc hr _ ho _ iht ihe =>
      simp only [List.append_assoc, List.cons_append, List.map_eq_append_iff,
        List.map_eq_cons_iff] at hts
      obtain ⟨i, _, rfl, rfl, ⟨l, _, rfl, rfl, ⟨cs, _, rfl, rfl, ⟨r, _, rfl, rfl, ⟨bs, _, rfl, hbs,
        ⟨o, es, rfl, rfl, hes⟩⟩⟩⟩⟩⟩ := hts
      simp only [List.forall_mem_cons, List.forall_mem_append] at hplain
      obtain ⟨-, -, hcs, -, hplainbs, -, hplaines⟩ := hplain
      have ht : Grown .ifStmt _ _ _ := Grown.make (by decide) (.leaf hi (.leaf hl
        (.inner (grown_of_expression hc hcs) (by simp) (.leaf hr
          (.inner (iht hbs hplainbs) (by simp) (.leaf ho (.last (ihe hes hplaines)))))))) (by decide)
      exact Grown.statement (by decide) ht
  | block hl _ hr ih =>
      simp only [List.cons_append, List.map_eq_append_iff, List.map_eq_cons_iff,
        List.map_eq_nil_iff] at hts
      obtain ⟨l, _, rfl, rfl, ⟨ds, _, rfl, hds, ⟨r, _, rfl, rfl, rfl⟩⟩⟩ := hts
      simp only [List.forall_mem_cons, List.forall_mem_append] at hplain
      obtain ⟨ss, hss, hgrown⟩ := ih hds hplain.2.1
      cases hss
      exact Grown.statement (by decide) ((hgrown [] [] .none).block hl hr)
  | varDecl h =>
      subst hts
      exact Grown.make (by decide) (.last (grown_of_simple h hplain)) (by decide)
  | statement _ ih => exact Grown.make (by decide) (.last (ih hts hplain)) (by decide)
  | none =>
      rw [List.map_eq_nil_iff.mp hts]
      exact ⟨[], rfl, fun vs bs h => by simpa using h⟩
  | cons _ _ ihs ihss =>
      simp only [List.map_eq_append_iff] at hts
      obtain ⟨xs, ys, rfl, hxs, hys⟩ := hts
      obtain ⟨hplainxs, hplainys⟩ := List.forall_mem_append.mp hplain
      obtain ⟨ss, hss, hgrown⟩ := ihss hys hplainys
      cases hss
      refine ⟨_, rfl, fun vs bs h => ?_⟩
      -- the first declaration is added to those in front, and the others to all of them
      have hall := hgrown _ _ (h.concat (ihs hxs hplainxs))
      simpa using hall

/-- A program has a tree that stands for its statements. -/
theorem grown_of_program {ls : List Lexeme} {ss : List Node}
    (h : Program (ls.map Lexeme.scanned) ss) (hplain : ∀ l ∈ ls, l.Plain) :
    ∃ o, Grown .program o ls (.nodes ss) := by
  obtain ⟨ss', hss, hgrown⟩ := grown_of_stmt h rfl hplain
  cases hss
  exact (hgrown [] [] .none).program

end NovaLang.Grammar
