import NovaLang.Descent.Statement
import NovaLang.Proofs.Ebnf

namespace NovaLang

/-! # Phrases and their trees

The grammar once more, as relations between the tokens of a phrase and its syntax
tree. What the notation leaves open is decided here: operators of one level group
to the left, and the first branch of an `if` with an `else` never ends in an `if`
that is still without one. Every phrase of the notation has a tree, and only those
have.
-/

/-- The node an operator of a level joins its operands in. -/
def Level.join : Level → Node → Token → Node → Node
  | .disjunction | .conjunction => .logical
  | .equality | .comparison | .term | .factor => .binary

/-- The value of a token that is a literal. -/
def Token.constant? (t : Token) : Option Value :=
  match t.kind with
  | .number | .string => some t.literal
  | .kwTrue => some (.bool true)
  | .kwFalse => some (.bool false)
  | .kwNil => some .nil
  | _ => none

/-- A token of these kinds is a constant. -/
theorem Token.exists_constant {t : Token}
    (h : t.kind ∈ [Kind.number, .string, .kwTrue, .kwFalse, .kwNil]) :
    ∃ v, t.constant? = some v := by
  simp only [List.mem_cons, List.not_mem_nil, or_false] at h
  rcases h with h | h | h | h | h <;> simp [Token.constant?, h]

/-- The value of a constant is told by its kind. -/
theorem Token.constant?_eq_some {t : Token} {v : Value} (h : t.constant? = some v) :
    t.kind = .kwFalse ∧ v = .bool false ∨ t.kind = .kwTrue ∧ v = .bool true ∨
      t.kind = .kwNil ∧ v = .nil ∨ t.kind ∈ [Kind.number, .string] ∧ v = t.literal := by
  unfold Token.constant? at h
  split at h <;> simp_all

namespace Descent

/-- What a `for` repeats: its body, and its increment if there is one. -/
def forRounds (increment body : Node) : List Node :=
  match increment with
  | .absent => [body]
  | e => [body, .expression e]

/-- What a `for` tests: its condition; without one it goes on. -/
def forTest (condition : Node) : Node :=
  match condition with
  | .absent => .literal (.bool true)
  | e => e

/-- The block of a `for`: its loop, behind its initializer if there is one. -/
def forBlock (initializer loop : Node) : Node :=
  match initializer with
  | .absent => .block [loop]
  | s => .block [s, loop]

/-- The step of a loop follows its body, ... -/
theorem forRounds_present {n : Node} (h : n ≠ .absent) (b : Node) :
    forRounds n b = [b, .expression n] := by
  unfold forRounds
  split
  · exact absurd rfl h
  · rfl

/-- ... its condition is tested as it stands, ... -/
theorem forTest_present {c : Node} (h : c ≠ .absent) : forTest c = c := by
  unfold forTest
  split
  · exact absurd rfl h
  · rfl

/-- ... and its initializer comes before it. -/
theorem forBlock_present {i : Node} (h : i ≠ .absent) (loop : Node) :
    forBlock i loop = .block [i, loop] := by
  unfold forBlock
  split
  · exact absurd rfl h
  · rfl

theorem forLoop_eq (i c n b : Node) :
    forLoop i c n b = forBlock i (.loop (forTest c) (.block (forRounds n b))) := rfl

end Descent

namespace Phrase

/-! ## Expressions -/

/-- The tokens are an expression of a rule, with its tree; arguments are a list. -/
inductive Expr : Rule → List Token → Node → Prop where
  | constant {t : Token} {v : Value} :
      t.constant? = some v → Expr .primary [t] (.literal v)
  | name {t : Token} :
      t.kind = .identifier → Expr .primary [t] (.reference t)
  | grouping {l r : Token} {ts : List Token} {e : Node} :
      l.kind = .leftParen → Expr .expression ts e → r.kind = .rightParen →
      Expr .primary (l :: ts ++ [r]) (.grouping e)
  | primary {ts : List Token} {e : Node} :
      Expr .primary ts e → Expr .call ts e
  | callAlone {l r : Token} {ts : List Token} {f : Node} :
      Expr .call ts f → l.kind = .leftParen → r.kind = .rightParen →
      Expr .call (ts ++ [l, r]) (.call f r [])
  | callWith {l r : Token} {xs ys : List Token} {f : Node} {as : List Node} :
      Expr .call xs f → l.kind = .leftParen → Expr .arguments ys (.list as) →
      as.length ≤ maxArguments → r.kind = .rightParen →
      Expr .call (xs ++ l :: ys ++ [r]) (.call f r as)
  | lastArgument {ts : List Token} {a : Node} :
      Expr .expression ts a → Expr .arguments ts (.list [a])
  | argument {c : Token} {xs ys : List Token} {a : Node} {as : List Node} :
      Expr .expression xs a → c.kind = .comma → Expr .arguments ys (.list as) →
      Expr .arguments (xs ++ c :: ys) (.list (a :: as))
  | call {ts : List Token} {e : Node} :
      Expr .call ts e → Expr .unary ts e
  | unary {o : Token} {ts : List Token} {e : Node} :
      o.kind ∈ [Kind.bang, Kind.minus] → Expr .unary ts e →
      Expr .unary (o :: ts) (.unary o e)
  | operand {l : Level} {ts : List Token} {e : Node} :
      Expr l.operand ts e → Expr (.level l) ts e
  | operation {l : Level} {o : Token} {xs ys : List Token} {a b : Node} :
      Expr (.level l) xs a → o.kind ∈ l.operators → Expr l.operand ys b →
      Expr (.level l) (xs ++ o :: ys) (l.join a o b)
  | disjunction {ts : List Token} {e : Node} :
      Expr (.level .disjunction) ts e → Expr .assignment ts e
  | assignment {n q : Token} {ts : List Token} {e : Node} :
      n.kind = .identifier → q.kind = .equal → Expr .assignment ts e →
      Expr .assignment (n :: q :: ts) (.assign n e)
  | whole {ts : List Token} {e : Node} :
      Expr .assignment ts e → Expr .expression ts e

/-- An expression is an assignment, in the wide sense of the rule. -/
theorem Expr.of_expression {ts : List Token} {e : Node} (h : Expr .expression ts e) :
    Expr .assignment ts e := by
  cases h with
  | whole h => exact h

/-- Only a single name is an expression whose tree is a name. -/
theorem Expr.of_reference {r : Rule} {ts : List Token} {n : Token} (h : Expr r ts (.reference n)) :
    ts = [n] ∧ n.kind = .identifier := by
  generalize he : Node.reference n = e at h
  induction h with
  | name hn =>
      cases he
      exact ⟨rfl, hn⟩
  | primary _ ih | call _ ih | operand _ ih | disjunction _ ih | whole _ ih => exact ih he
  | @operation l => cases l <;> cases he
  | constant | grouping | callAlone | callWith | lastArgument | argument | unary | assignment =>
      cases he

/-- The kinds of tokens that primary expressions begin with. -/
def primaryStarts : List Kind :=
  [.number, .string, .kwTrue, .kwFalse, .kwNil, .leftParen, .identifier]

/-- The kinds of tokens that expressions of a rule begin with. -/
def exprStarts : Rule → List Kind
  | .primary | .call => primaryStarts
  | _ => .bang :: .minus :: primaryStarts

/-- Whatever starts an operand starts an expression of any rule, ... -/
theorem primaryStarts_subset (r : Rule) : primaryStarts ⊆ exprStarts r := by
  cases r <;> simp [exprStarts]

/-- ... and whatever starts any of these starts an expression. -/
theorem exprStarts_subset (r : Rule) : exprStarts r ⊆ exprStarts .expression := by
  cases r <;> simp [exprStarts]

/-- The kind of the first token of an expression. -/
theorem Expr.first {r : Rule} {ts : List Token} {e : Node} (h : Expr r ts e) :
    ∃ t us, ts = t :: us ∧ t.kind ∈ exprStarts r := by
  -- what recurs on the left starts like its first part
  induction h with
  | @constant t v ht =>
      refine ⟨t, [], rfl, ?_⟩
      simp only [Token.constant?] at ht
      split at ht <;> simp_all [exprStarts, primaryStarts]
  | @name t ht => exact ⟨t, [], rfl, by simp [exprStarts, primaryStarts, ht]⟩
  | grouping hl => exact ⟨_, _, rfl, by simp [exprStarts, primaryStarts, hl]⟩
  | primary _ ih => exact ih
  | callAlone _ _ _ ih =>
      obtain ⟨t, us, rfl, ht⟩ := ih
      exact ⟨t, _, rfl, ht⟩
  | @callWith l r _ ys _ _ _ _ _ _ _ ih =>
      obtain ⟨t, us, rfl, ht⟩ := ih
      exact ⟨t, us ++ (l :: ys ++ [r]), by simp, ht⟩
  | lastArgument _ ih => exact ih
  | argument _ _ _ ih =>
      obtain ⟨t, us, rfl, ht⟩ := ih
      exact ⟨t, _, rfl, ht⟩
  | call _ ih =>
      obtain ⟨t, us, rfl, ht⟩ := ih
      exact ⟨t, us, rfl, primaryStarts_subset .unary ht⟩
  | unary ho =>
      have hsub : [Kind.bang, Kind.minus] ⊆ exprStarts .unary := by simp [exprStarts]
      exact ⟨_, _, rfl, hsub ho⟩
  | @operand l _ _ _ ih =>
      obtain ⟨t, us, rfl, ht⟩ := ih
      exact ⟨t, us, rfl, exprStarts_subset _ ht⟩
  | operation _ _ _ ih =>
      obtain ⟨t, us, rfl, ht⟩ := ih
      exact ⟨t, _, rfl, ht⟩
  | disjunction _ ih | whole _ ih => exact ih
  | assignment hn => exact ⟨_, _, rfl, by simp [exprStarts, primaryStarts, hn]⟩

/-- The tokens are an expression or nothing at all. -/
inductive Maybe : List Token → Node → Prop where
  | absent : Maybe [] .absent
  | present {ts : List Token} {e : Node} : Expr .expression ts e → Maybe ts e

/-! ## Statements -/

/-- The tokens are a declaration or statement that ends in its own semicolon. -/
inductive Simple : Rule → List Token → Node → Prop where
  | bare {v n s : Token} :
      v.kind = .kwVar → n.kind = .identifier → s.kind = .semicolon →
      Simple .varDecl [v, n, s] (.var n .absent)
  | initialized {v n q s : Token} {ts : List Token} {e : Node} :
      v.kind = .kwVar → n.kind = .identifier → q.kind = .equal → Expr .expression ts e →
      s.kind = .semicolon → Simple .varDecl (v :: n :: q :: ts ++ [s]) (.var n e)
  | expression {s : Token} {ts : List Token} {e : Node} :
      Expr .expression ts e → s.kind = .semicolon →
      Simple .exprStmt (ts ++ [s]) (.expression e)
  | print {p s : Token} {ts : List Token} {e : Node} :
      p.kind = .kwPrint → Expr .expression ts e → s.kind = .semicolon →
      Simple .printStmt (p :: ts ++ [s]) (.print e)

/-- The tokens are the first clause of a `for`. -/
inductive Initializer : List Token → Node → Prop where
  | absent {s : Token} : s.kind = .semicolon → Initializer [s] .absent
  | varDecl {ts : List Token} {s : Node} : Simple .varDecl ts s → Initializer ts s
  | exprStmt {ts : List Token} {s : Node} : Simple .exprStmt ts s → Initializer ts s

/-- What a phrase made of statements is. -/
inductive Part where
  | statement | declaration
  /-- Any number of declarations; their tree is a list. -/
  | declarations
  deriving DecidableEq, Repr

/-- The tokens are a part of a program, with its tree. A phrase is dangling when an
`else` after it would belong to an `if` at its end. -/
inductive Stmt : Part → (dangling : Bool) → List Token → Node → Prop where
  | exprStmt {ts : List Token} {s : Node} :
      Simple .exprStmt ts s → Stmt .statement false ts s
  | printStmt {ts : List Token} {s : Node} :
      Simple .printStmt ts s → Stmt .statement false ts s
  | forLoop {d : Bool} {f l s r : Token} {is cs ns bs : List Token} {i c n b : Node} :
      f.kind = .kwFor → l.kind = .leftParen → Initializer is i → Maybe cs c →
      s.kind = .semicolon → Maybe ns n → r.kind = .rightParen → Stmt .statement d bs b →
      Stmt .statement d (f :: l :: is ++ cs ++ s :: ns ++ r :: bs)
        (Descent.forBlock i (.loop (Descent.forTest c) (.block (Descent.forRounds n b))))
  | whileLoop {d : Bool} {w l r : Token} {cs bs : List Token} {c b : Node} :
      w.kind = .kwWhile → l.kind = .leftParen → Expr .expression cs c → r.kind = .rightParen →
      Stmt .statement d bs b → Stmt .statement d (w :: l :: cs ++ r :: bs) (.loop c b)
  | ifAlone {d : Bool} {i l r : Token} {cs ts : List Token} {c t : Node} :
      i.kind = .kwIf → l.kind = .leftParen → Expr .expression cs c → r.kind = .rightParen →
      Stmt .statement d ts t → Stmt .statement true (i :: l :: cs ++ r :: ts) (.branch c t .absent)
  | ifElse {d : Bool} {i l r o : Token} {cs ts es : List Token} {c t e : Node} :
      i.kind = .kwIf → l.kind = .leftParen → Expr .expression cs c → r.kind = .rightParen →
      Stmt .statement false ts t → o.kind = .kwElse → Stmt .statement d es e →
      Stmt .statement d (i :: l :: cs ++ r :: ts ++ o :: es) (.branch c t e)
  | block {l r : Token} {ts : List Token} {ss : List Node} :
      l.kind = .leftBrace → Stmt .declarations false ts (.list ss) → r.kind = .rightBrace →
      Stmt .statement false (l :: ts ++ [r]) (.block ss)
  | varDecl {ts : List Token} {s : Node} :
      Simple .varDecl ts s → Stmt .declaration false ts s
  | statement {d : Bool} {ts : List Token} {s : Node} :
      Stmt .statement d ts s → Stmt .declaration d ts s
  | none : Stmt .declarations false [] (.list [])
  | cons {d : Bool} {xs ys : List Token} {s : Node} {ss : List Node} :
      Stmt .declaration d xs s → Stmt .declarations false ys (.list ss) →
      Stmt .declarations false (xs ++ ys) (.list (s :: ss))

/-- The tokens are a program, with its statements. -/
def Program (ts : List Token) (statements : List Node) : Prop :=
  Stmt .declarations false ts (.list statements)

/-- Two programs in a row are a program. -/
theorem Program.append {xs ys : List Token} {as bs : List Node} (h : Program xs as)
    (h' : Program ys bs) : Program (xs ++ ys) (as ++ bs) := by
  rw [Program] at h
  generalize hp : Part.declarations = p, hd : false = d, hn : Node.list as = n at h
  induction h generalizing as with
  | none =>
      cases hn
      exact h'
  | cons hfirst _ _ ih =>
      -- the last declaration may be one that could take an `else`: none begins with one
      cases hn
      rw [List.append_assoc]
      exact .cons hfirst (ih rfl rfl rfl)
  | exprStmt | printStmt | forLoop | whileLoop | ifAlone | ifElse | block | varDecl | statement =>
      cases hp

/-- The kinds of tokens that a part of a program begins with. -/
def stmtStarts : Part → List Kind
  | .statement => [.kwFor, .kwIf, .kwPrint, .kwWhile, .leftBrace] ++ exprStarts .expression
  | _ => .kwVar :: [.kwFor, .kwIf, .kwPrint, .kwWhile, .leftBrace] ++ exprStarts .expression

/-- The kinds of tokens that a declaration or statement with a semicolon begins with. -/
def simpleStarts : Rule → List Kind
  | .varDecl => [.kwVar]
  | .printStmt => [.kwPrint]
  | r => exprStarts r

/-- A simple statement starts like one. -/
theorem Simple.first {r : Rule} {ts : List Token} {s : Node} (h : Simple r ts s) :
    ∃ t us, ts = t :: us ∧ t.kind ∈ simpleStarts r := by
  cases h with
  | expression he =>
      obtain ⟨t, us, rfl, ht⟩ := he.first
      exact ⟨t, _, rfl, ht⟩
  | bare h | initialized h | print h => exact ⟨_, _, rfl, by simp [simpleStarts, h]⟩

/-- The kind of the first token of a declaration or a statement. -/
theorem Stmt.first {p : Part} {d : Bool} {ts : List Token} {s : Node} (h : Stmt p d ts s)
    (hp : p ≠ .declarations) : ∃ t us, ts = t :: us ∧ t.kind ∈ stmtStarts p := by
  induction h with
  | exprStmt h =>
      obtain ⟨t, us, rfl, ht⟩ := h.first
      exact ⟨t, us, rfl, List.mem_append_right _ ht⟩
  | printStmt h =>
      obtain ⟨t, us, rfl, ht⟩ := h.first
      exact ⟨t, us, rfl, by simp [stmtStarts, List.mem_singleton.mp ht]⟩
  | varDecl h =>
      obtain ⟨t, us, rfl, ht⟩ := h.first
      exact ⟨t, us, rfl, by simp [stmtStarts, List.mem_singleton.mp ht]⟩
  | forLoop h | whileLoop h | ifAlone h | ifElse h | block h =>
      exact ⟨_, _, rfl, by simp [stmtStarts, h]⟩
  | statement _ ih =>
      obtain ⟨t, us, rfl, ht⟩ := ih (by simp)
      exact ⟨t, us, rfl, List.mem_cons_of_mem _ ht⟩
  | none | cons => exact absurd rfl hp

/-- After a dangling phrase no `else` follows. -/
def Settled (dangling : Bool) (rest : List Token) : Prop :=
  dangling = true → ∀ t ∈ rest.head?, t.kind ≠ .kwElse

/-- A statement that takes no `else` is complete, whatever follows. -/
theorem settled_false (rest : List Token) : Settled false rest := by
  rintro ⟨⟩

/-! ## An `else` after a dangling phrase -/

/-- After a statement that ends in an `if` without an `else`, that `if` can take one. -/
theorem Stmt.take_else {xs ys : List Token} {o : Token} {a b : Node} {d : Bool}
    (ha : Stmt .statement true xs a) (ho : o.kind = .kwElse) (hb : Stmt .statement d ys b) :
    ∃ d s, Stmt .statement d (xs ++ o :: ys) s := by
  generalize hp : Part.statement = p at ha
  generalize hd : true = dangling at ha
  induction ha with
  | forLoop hf hl hi hc hs hn hr _ ih =>
      obtain ⟨_, _, h⟩ := ih hp hd
      exact ⟨_, _, by simpa using Stmt.forLoop hf hl hi hc hs hn hr h⟩
  | whileLoop hw hl hc hr _ ih =>
      obtain ⟨_, _, h⟩ := ih hp hd
      exact ⟨_, _, by simpa using Stmt.whileLoop hw hl hc hr h⟩
  | @ifAlone inner _ _ _ _ _ _ _ hi hl hc hr ht ih =>
      cases inner with
      | false => exact ⟨_, _, by simpa using Stmt.ifElse hi hl hc hr ht ho hb⟩
      | true =>
          -- the `else` goes to an `if` further inside, and this one stays without
          obtain ⟨_, _, h⟩ := ih rfl rfl
          exact ⟨_, _, by simpa using Stmt.ifAlone hi hl hc hr h⟩
  | ifElse hi hl hc hr ht ho' _ _ ih =>
      obtain ⟨_, _, h⟩ := ih hp hd
      exact ⟨_, _, by simpa using Stmt.ifElse hi hl hc hr ht ho' h⟩
  | exprStmt | printStmt | block => cases hd
  | varDecl | statement | none | cons => cases hp

end Phrase

end NovaLang
