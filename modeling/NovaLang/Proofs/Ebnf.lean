import NovaLang.Report

namespace NovaLang

/-! # The grammar in extended Backus-Naur form

The grammar that the language is documented with: one expression for each rule,
made of tokens, rules, sequences, alternatives, options and repetitions. It says
nothing about trees, and it leaves open which `if` an `else` belongs to.
-/

/-! ## Rules -/

/-- The levels of left-associative operators, from the lowest precedence to the highest. -/
inductive Level where
  | disjunction | conjunction | equality | comparison | term | factor
  deriving DecidableEq, Repr

/-- The operators of a level. -/
def Level.operators : Level → List Kind
  | .disjunction => [.kwOr]
  | .conjunction => [.kwAnd]
  | .equality => [.bangEqual, .equalEqual]
  | .comparison => [.greater, .greaterEqual, .less, .lessEqual]
  | .term => [.minus, .plus]
  | .factor => [.slash, .star]

/-- The rules of the grammar. -/
inductive Rule where
  | program | declaration | varDecl | statement | exprStmt | forStmt | ifStmt | printStmt
  | whileStmt | block
  | expression | assignment | level (l : Level) | unary | call | arguments | primary
  deriving DecidableEq, Repr

/-- The rule of the operands of a level. -/
def Level.operand : Level → Rule
  | .disjunction => .level .conjunction
  | .conjunction => .level .equality
  | .equality => .level .comparison
  | .comparison => .level .term
  | .term => .level .factor
  | .factor => .unary

/-! ## Expressions of the notation -/

/-- An expression of the notation. -/
inductive Ebnf where
  | token (kind : Kind)
  | rule (r : Rule)
  | empty
  | seq (first second : Ebnf)
  /-- Nothing at all is derived. -/
  | never
  | either (first second : Ebnf)
  | optional (e : Ebnf)
  | many (e : Ebnf)
  /-- A repetition of at most so many parts. -/
  | atMost (limit : Nat) (e : Ebnf)
  deriving Repr

namespace Ebnf

instance : Coe Kind Ebnf := ⟨.token⟩
instance : Coe Rule Ebnf := ⟨.rule⟩

/-- Expressions one after another. -/
def sequence (es : List Ebnf) : Ebnf := es.foldr .seq .empty

/-- One of some expressions. -/
def oneOf (es : List Ebnf) : Ebnf := es.foldr .either .never

/-- One of some tokens. -/
def tokens (kinds : List Kind) : Ebnf := oneOf (kinds.map .token)

end Ebnf

section

open Kind Rule Ebnf

/-- What a rule stands for. -/
def Rule.body : Rule → Ebnf
  | program => sequence [many declaration, eof]
  | declaration => oneOf [varDecl, statement]
  | varDecl => sequence [kwVar, identifier, optional (sequence [equal, expression]), semicolon]
  | statement => oneOf [exprStmt, forStmt, ifStmt, printStmt, whileStmt, block]
  | forStmt => sequence [
      kwFor, leftParen, oneOf [varDecl, exprStmt, semicolon], optional expression, semicolon,
      optional expression, rightParen, statement]
  | whileStmt => sequence [kwWhile, leftParen, expression, rightParen, statement]
  | ifStmt => sequence [
      kwIf, leftParen, expression, rightParen, statement, optional (sequence [kwElse, statement])]
  | block => sequence [leftBrace, many declaration, rightBrace]
  | exprStmt => sequence [expression, semicolon]
  | printStmt => sequence [kwPrint, expression, semicolon]
  | expression => assignment
  | assignment => oneOf [sequence [identifier, equal, assignment], level .disjunction]
  | level l => sequence [l.operand, many (sequence [tokens l.operators, l.operand])]
  | unary => oneOf [sequence [tokens [bang, minus], unary], call]
  | call => sequence [primary, many (sequence [leftParen, optional arguments, rightParen])]
  | arguments => sequence [expression, atMost (maxArguments - 1) (sequence [comma, expression])]
  | primary => oneOf [
      number, string, kwTrue, kwFalse, kwNil, sequence [leftParen, expression, rightParen],
      identifier]

end

/-! ## Derivations -/

namespace Token

/-- The kinds of some tokens. -/
def kinds (ts : List Token) : List Kind := ts.map (·.kind)

@[simp] theorem kinds_nil : kinds [] = [] := rfl

@[simp] theorem kinds_cons (t : Token) (ts : List Token) : kinds (t :: ts) = t.kind :: kinds ts :=
  rfl

@[simp] theorem kinds_append (xs ys : List Token) : kinds (xs ++ ys) = kinds xs ++ kinds ys :=
  List.map_append

/-- The kinds of several runs are those of each run in turn. -/
theorem kinds_flatten (parts : List (List Token)) :
    kinds parts.flatten = (parts.map kinds).flatten :=
  List.map_flatten

end Token

namespace Ebnf

/-- An expression derives a list of kinds of tokens. -/
inductive Derives : Ebnf → List Kind → Prop where
  | token (k : Kind) : Derives (.token k) [k]
  | rule {r : Rule} {ks : List Kind} : Derives r.body ks → Derives (.rule r) ks
  | empty : Derives .empty []
  | seq {a b : Ebnf} {xs ys : List Kind} :
      Derives a xs → Derives b ys → Derives (.seq a b) (xs ++ ys)
  | first {a b : Ebnf} {ks : List Kind} : Derives a ks → Derives (.either a b) ks
  | second {a b : Ebnf} {ks : List Kind} : Derives b ks → Derives (.either a b) ks
  | absent {a : Ebnf} : Derives (.optional a) []
  | present {a : Ebnf} {ks : List Kind} : Derives a ks → Derives (.optional a) ks
  | many {a : Ebnf} {parts : List (List Kind)} :
      (∀ part ∈ parts, Derives a part) → Derives (.many a) parts.flatten
  | atMost {n : Nat} {a : Ebnf} {parts : List (List Kind)} :
      parts.length ≤ n → (∀ part ∈ parts, Derives a part) → Derives (.atMost n a) parts.flatten

/-- What an expression says about a list of tokens, once it is known what the rules
say. -/
def Holds (said : Rule → List Token → Prop) : Ebnf → List Token → Prop
  | .token k, ts => ∃ t, ts = [t] ∧ t.kind = k
  | .rule r, ts => said r ts
  | .empty, ts => ts = []
  | .seq a b, ts => ∃ xs ys, ts = xs ++ ys ∧ a.Holds said xs ∧ b.Holds said ys
  | .never, _ => False
  | .either a b, ts => a.Holds said ts ∨ b.Holds said ts
  | .optional a, ts => ts = [] ∨ a.Holds said ts
  | .many a, ts => ∃ parts : List (List Token),
      ts = parts.flatten ∧ ∀ part ∈ parts, a.Holds said part
  | .atMost n a, ts => ∃ parts : List (List Token),
      ts = parts.flatten ∧ parts.length ≤ n ∧ ∀ part ∈ parts, a.Holds said part

/-- Tokens whose kinds are repeated parts are repeated parts themselves. -/
theorem tokens_of_parts {ts : List Token} {parts : List (List Kind)}
    (h : Token.kinds ts = parts.flatten) :
    ∃ pieces : List (List Token), ts = pieces.flatten ∧ pieces.map Token.kinds = parts := by
  induction parts generalizing ts with
  | nil => exact ⟨[], by simpa [Token.kinds] using h, rfl⟩
  | cons part parts ih =>
      obtain ⟨xs, ys, rfl, hxs, hys⟩ := List.map_eq_append_iff.mp h
      obtain ⟨pieces, rfl, rfl⟩ := ih hys
      exact ⟨xs :: pieces, rfl, by rw [List.map_cons, ← hxs]; rfl⟩

/-- Derivations are the least reading of the rules: whatever every rule's body implies
holds of all that is derived. -/
theorem Derives.holds {said : Rule → List Token → Prop}
    (closed : ∀ r ts, r.body.Holds said ts → said r ts) {e : Ebnf} {ks : List Kind}
    (h : e.Derives ks) : ∀ ts, Token.kinds ts = ks → e.Holds said ts := by
  induction h with
  | token k =>
      intro ts hts
      obtain ⟨t, rest, rfl, ht, hrest⟩ := List.map_eq_cons_iff.mp hts
      obtain rfl := List.map_eq_nil_iff.mp hrest
      exact ⟨t, rfl, ht⟩
  | rule _ ih => exact fun ts hts => closed _ _ (ih ts hts)
  | empty => exact fun ts hts => List.map_eq_nil_iff.mp hts
  | seq _ _ iha ihb =>
      intro ts hts
      obtain ⟨xs, ys, rfl, hxs, hys⟩ := List.map_eq_append_iff.mp hts
      exact ⟨xs, ys, rfl, iha xs hxs, ihb ys hys⟩
  | first _ ih => exact fun ts hts => .inl (ih ts hts)
  | second _ ih => exact fun ts hts => .inr (ih ts hts)
  | absent => exact fun ts hts => .inl (List.map_eq_nil_iff.mp hts)
  | present _ ih => exact fun ts hts => .inr (ih ts hts)
  -- the kinds of the parts are cut where the tokens are
  | many _ ih =>
      intro ts hts
      obtain ⟨pieces, rfl, rfl⟩ := tokens_of_parts hts
      exact ⟨pieces, rfl, fun piece hp => ih _ (List.mem_map_of_mem hp) piece rfl⟩
  | atMost hn _ ih =>
      intro ts hts
      obtain ⟨pieces, rfl, rfl⟩ := tokens_of_parts hts
      exact ⟨pieces, rfl, by simpa using hn,
        fun piece hp => ih _ (List.mem_map_of_mem hp) piece rfl⟩

/-- What an expression says when the rules say what they derive is derived. -/
theorem Holds.derives {e : Ebnf} {ts : List Token}
    (h : e.Holds (fun r ts => (Ebnf.rule r).Derives (Token.kinds ts)) ts) :
    e.Derives (Token.kinds ts) := by
  induction e generalizing ts with
  | token k =>
      obtain ⟨t, rfl, rfl⟩ := h
      exact .token t.kind
  | rule r => exact h
  | empty =>
      obtain rfl : ts = [] := h
      exact .empty
  | seq a b iha ihb =>
      obtain ⟨xs, ys, rfl, ha, hb⟩ := h
      rw [Token.kinds_append]
      exact .seq (iha ha) (ihb hb)
  | never => exact h.elim
  | either a b iha ihb =>
      rcases h with ha | hb
      · exact .first (iha ha)
      · exact .second (ihb hb)
  | optional a ih =>
      rcases h with rfl | ha
      · exact .absent
      · exact .present (ih ha)
  -- conversely, the parts of the tokens have the kinds of a derivation each
  | many a ih =>
      obtain ⟨parts, rfl, h⟩ := h
      rw [Token.kinds_flatten]
      refine .many fun part hp => ?_
      obtain ⟨piece, hpiece, rfl⟩ := List.mem_map.mp hp
      exact ih (h piece hpiece)
  | atMost n a ih =>
      obtain ⟨parts, rfl, hn, h⟩ := h
      rw [Token.kinds_flatten]
      refine .atMost (by simpa using hn) fun part hp => ?_
      obtain ⟨piece, hpiece, rfl⟩ := List.mem_map.mp hp
      exact ih (h piece hpiece)

/-- A rule derives what its body says. -/
theorem derives_of_body {r : Rule} {ts : List Token}
    (h : r.body.Holds (fun r ts => (Ebnf.rule r).Derives (Token.kinds ts)) ts) :
    (Ebnf.rule r).Derives (Token.kinds ts) :=
  .rule h.derives

/-- What a rule derives is what its body says. -/
theorem body_of_derives {r : Rule} {ts : List Token}
    (h : (Ebnf.rule r).Derives (Token.kinds ts)) :
    r.body.Holds (fun r ts => (Ebnf.rule r).Derives (Token.kinds ts)) ts := by
  cases h with
  | rule h => exact h.holds (fun _ _ => derives_of_body) ts rfl

/-! ## What sequences and alternatives say -/

section

variable {said : Rule → List Token → Prop} {ts : List Token}

/-- A token stands for itself. -/
theorem holds_token {k : Kind} :
    (Ebnf.token k).Holds said ts ↔ ∃ t, ts = [t] ∧ t.kind = k := Iff.rfl

/-- A rule stands for what is said of it. -/
theorem holds_rule {r : Rule} : (Ebnf.rule r).Holds said ts ↔ said r ts := Iff.rfl

/-- A sequence is its first part with the others behind it. -/
theorem holds_sequence_cons {e f : Ebnf} {es : List Ebnf} :
    (sequence (e :: f :: es)).Holds said ts ↔
      ∃ xs ys, ts = xs ++ ys ∧ e.Holds said xs ∧ (sequence (f :: es)).Holds said ys := Iff.rfl

/-- A sequence of one part is that part. -/
theorem holds_sequence_single {e : Ebnf} : (sequence [e]).Holds said ts ↔ e.Holds said ts := by
  constructor
  · rintro ⟨xs, _, rfl, h, rfl⟩
    rwa [List.append_nil]
  · exact fun h => ⟨ts, [], (List.append_nil ts).symm, h, rfl⟩

/-- A sequence that starts with a token. -/
theorem holds_sequence_token {k : Kind} {e : Ebnf} {es : List Ebnf} :
    (sequence (.token k :: e :: es)).Holds said ts ↔
      ∃ t ys, ts = t :: ys ∧ t.kind = k ∧ (sequence (e :: es)).Holds said ys := by
  constructor
  · rintro ⟨_, ys, rfl, ⟨t, rfl, ht⟩, h⟩
    exact ⟨t, ys, rfl, ht, h⟩
  · rintro ⟨t, ys, rfl, ht, h⟩
    exact ⟨[t], ys, rfl, ⟨t, rfl, ht⟩, h⟩

/-- A token and what follows it. -/
theorem holds_token_then {t : Token} {k : Kind} {es : List Ebnf} (ht : t.kind = k)
    (h : (sequence es).Holds said ts) : (sequence (.token k :: es)).Holds said (t :: ts) :=
  ⟨[t], ts, rfl, ⟨t, rfl, ht⟩, h⟩

/-- A part and what follows it. -/
theorem holds_then {e : Ebnf} {es : List Ebnf} {xs ys : List Token} (hxs : e.Holds said xs)
    (hys : (sequence es).Holds said ys) : (sequence (e :: es)).Holds said (xs ++ ys) :=
  ⟨xs, ys, rfl, hxs, hys⟩

/-- What is optional may be left out. -/
theorem holds_without {e : Ebnf} {es : List Ebnf} (h : (sequence es).Holds said ts) :
    (sequence (optional e :: es)).Holds said ts :=
  ⟨[], ts, rfl, .inl rfl, h⟩

/-- The last part. -/
theorem holds_last {e : Ebnf} (h : e.Holds said ts) : (sequence [e]).Holds said ts :=
  holds_sequence_single.mpr h

/-- An expression and any number of parts after it. -/
theorem holds_before_many {a p : Ebnf} :
    (sequence [a, many p]).Holds said ts ↔
      ∃ (first : List Token) (parts : List (List Token)), ts = first ++ parts.flatten ∧
        a.Holds said first ∧ ∀ part ∈ parts, p.Holds said part := by
  simp only [holds_sequence_cons (e := a), holds_sequence_single]
  constructor
  · rintro ⟨first, _, rfl, hfirst, parts, rfl, hparts⟩
    exact ⟨first, parts, rfl, hfirst, hparts⟩
  · rintro ⟨first, parts, rfl, hfirst, hparts⟩
    exact ⟨first, _, rfl, hfirst, parts, rfl, hparts⟩

/-- An expression and a bounded number of parts after it. -/
theorem holds_before_atMost {n : Nat} {a p : Ebnf} :
    (sequence [a, atMost n p]).Holds said ts ↔
      ∃ (first : List Token) (parts : List (List Token)), ts = first ++ parts.flatten ∧
        a.Holds said first ∧ parts.length ≤ n ∧ ∀ part ∈ parts, p.Holds said part := by
  simp only [holds_sequence_cons (e := a), holds_sequence_single]
  constructor
  · rintro ⟨first, _, rfl, hfirst, parts, rfl, hn, hparts⟩
    exact ⟨first, parts, rfl, hfirst, hn, hparts⟩
  · rintro ⟨first, parts, rfl, hfirst, hn, hparts⟩
    exact ⟨first, _, rfl, hfirst, parts, rfl, hn, hparts⟩

/-- There is no way to choose from nothing. -/
theorem holds_oneOf_nil : ¬ (oneOf []).Holds said ts := id

/-- One of several is the first or one of the others. -/
theorem holds_oneOf_cons {e : Ebnf} {es : List Ebnf} :
    (oneOf (e :: es)).Holds said ts ↔ e.Holds said ts ∨ (oneOf es).Holds said ts := Iff.rfl

/-- What is optional is left out or there. -/
theorem holds_optional {e : Ebnf} :
    (optional e).Holds said ts ↔ ts = [] ∨ e.Holds said ts := Iff.rfl

/-- One of several kinds is a token of one of them. -/
theorem holds_tokens {kinds : List Kind} :
    (tokens kinds).Holds said ts ↔ ∃ t, ts = [t] ∧ t.kind ∈ kinds := by
  induction kinds with
  | nil => simp [tokens, holds_oneOf_nil]
  | cons k kinds ih =>
      rw [tokens, List.map_cons, holds_oneOf_cons, holds_token, ← tokens, ih]
      constructor
      · rintro (⟨t, rfl, rfl⟩ | ⟨t, rfl, ht⟩)
        · exact ⟨t, rfl, List.mem_cons_self⟩
        · exact ⟨t, rfl, List.mem_cons_of_mem _ ht⟩
      · rintro ⟨t, rfl, ht⟩
        rcases List.mem_cons.mp ht with rfl | ht
        · exact .inl ⟨t, rfl, rfl⟩
        · exact .inr ⟨t, rfl, ht⟩

end

end Ebnf

end NovaLang
