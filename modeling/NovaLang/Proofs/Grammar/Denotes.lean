import NovaLang.Proofs.Grammar.Parts
import NovaLang.Proofs.Grammar.Spelling
import NovaLang.Proofs.Phrase

namespace NovaLang

/-! # Derivation trees and phrases

What a proper tree stands for is the syntax tree of the phrase that its lexemes are.
-/

/-! ## Levels -/

namespace Level

open Grammar

/-- The nonterminal of a level. -/
def head : Level → Nonterminal
  | .disjunction => .disjunction
  | .conjunction => .conjunction
  | .equality => .equality
  | .comparison => .comparison
  | .term => .term
  | .factor => .factor

/-- The nonterminal of the operators of a level, each with its right operand. -/
def tail : Level → Nonterminal
  | .disjunction => .orTail
  | .conjunction => .andTail
  | .equality => .equalityTail
  | .comparison => .comparisonTail
  | .term => .termTail
  | .factor => .factorTail

/-- The nonterminal of the operands of a level. -/
def below : Level → Nonterminal
  | .disjunction => .conjunction
  | .conjunction => .equality
  | .equality => .comparison
  | .comparison => .term
  | .term => .factor
  | .factor => .unary

/-- The productions of a level. -/
def productions (l : Level) : List Production := levelRules l.head l.tail l.below l.operators

end Level

namespace Grammar

open Phrase

/-- The productions of a nonterminal are its alternatives. -/
theorem mem_rules {n : Nonterminal} {alternatives : List (List Symbol)} {x : Production} :
    x ∈ rules n alternatives ↔ x.lhs = n ∧ x.rhs ∈ alternatives := by
  rw [rules, List.mem_map]
  constructor
  · rintro ⟨rhs, hrhs, rfl⟩
    exact ⟨rfl, hrhs⟩
  · rintro ⟨rfl, hrhs⟩
    exact ⟨x.rhs, hrhs, rfl⟩

/-! ## Lexemes and tokens -/

/-- Only texts in quotation marks run over several lines. -/
def Lexeme.Plain (l : Lexeme) : Prop := l.kind ≠ .string → Text.lineBreaks l.text = 0

/-- Names and operators are the same token for both front ends. -/
theorem Lexeme.token_eq_scanned {l : Lexeme} (h : l.Plain) (hnumber : l.kind ≠ .number)
    (hstring : l.kind ≠ .string) : l.token = l.scanned := by
  obtain ⟨kind, text, line⟩ := l
  have hbreaks : Text.lineBreaks text = 0 := h hstring
  rw [Lexeme.token, Lexeme.scanned, literal_of_notMem hnumber hstring]
  simp [hbreaks]

@[simp] theorem Lexeme.kind_scanned (l : Lexeme) : l.scanned.kind = l.kind := rfl

/-! ## Denotations -/

/-- The tokens are an expression of the rule, and the meaning is its tree. -/
def Reads (r : Rule) (ts : List Token) (m : Meaning) : Prop := ∃ e, m = .node e ∧ Expr r ts e

/-- The tokens continue an expression of the level with the operations. -/
def Continues (l : Level) (ts : List Token) (m : Meaning) : Prop :=
  ∃ os, m = .operations os ∧ ∀ {xs a}, Expr (.level l) xs a →
    Expr (.level l) (xs ++ ts) (foldOperations l.join a os)

/-- What the tokens of a nonterminal and their meaning are to each other. -/
def Denotes (n : Nonterminal) (o : Bool) (ts : List Token) (m : Meaning) : Prop :=
  match n with
  | .goal => True
  | .program | .declarationList => ∃ ss, m = .nodes ss ∧ Program ts ss
  | .declaration => ∃ s, m = .node s ∧ Stmt .declaration o ts s
  | .statement | .forStmt | .ifStmt | .whileStmt | .block =>
    ∃ s, m = .node s ∧ Stmt .statement o ts s
  | .varDecl => ∃ s, m = .node s ∧ o = false ∧ Simple .varDecl ts s
  | .exprStmt => ∃ s, m = .node s ∧ o = false ∧ Simple .exprStmt ts s
  | .printStmt => ∃ s, m = .node s ∧ o = false ∧ Simple .printStmt ts s
  | .forInit => ∃ i, m = .node i ∧ Initializer ts i
  | .expression => Reads .expression ts m
  | .assignment => Reads .assignment ts m
  | .disjunction => Reads (.level .disjunction) ts m
  | .orTail => Continues .disjunction ts m
  | .conjunction => Reads (.level .conjunction) ts m
  | .andTail => Continues .conjunction ts m
  | .equality => Reads (.level .equality) ts m
  | .equalityTail => Continues .equality ts m
  | .comparison => Reads (.level .comparison) ts m
  | .comparisonTail => Continues .comparison ts m
  | .term => Reads (.level .term) ts m
  | .termTail => Continues .term ts m
  | .factor => Reads (.level .factor) ts m
  | .factorTail => Continues .factor ts m
  | .unary => Reads .unary ts m
  | .call => Reads .call ts m
  | .primary => Reads .primary ts m
  | .arguments =>
    ∃ as, m = .nodes as ∧ as.length ≤ maxArguments ∧ Expr .arguments ts (.list as)
  | .argumentTail => ∃ as, m = .nodes as ∧ ∀ {xs bs}, Expr .arguments xs (.list bs) →
    Expr .arguments (xs ++ ts) (.list (bs ++ as))

/-- `Denotes` of plain lexemes. -/
def Means (n : Nonterminal) (o : Bool) (ls : List Lexeme) (m : Meaning) : Prop :=
  (∀ l ∈ ls, l.Plain) → Denotes n o (ls.map Lexeme.scanned) m

/-! ## What productions of statements build -/

/-- One more declaration after a program. -/
theorem program_concat {xs ys : List Token} {d : Bool} {ss : List Node} {s : Node}
    (hss : Program xs ss) (hs : Stmt .declaration d ys s) : Program (xs ++ ys) (ss ++ [s]) := by
  have hlast : Program (ys ++ []) [s] := .cons hs .none
  rw [List.append_nil] at hlast
  exact hss.append hlast

section

open Nonterminal Kind

variable {o : Bool} {ls : List Lexeme} {ms : List Meaning}

/-- A program is its declarations. -/
theorem means_declarations (h : Parts Means [.nonterminal declarationList] o ls ms) :
    Means program o ls (build program ms) := by
  obtain _ | _ | hm := h
  intro hplain
  obtain ⟨ss, rfl, hss⟩ := hm hplain
  exact ⟨ss, rfl, hss⟩

/-- A program may be empty. -/
theorem means_nothing (h : Parts Means [] o ls ms) : Means program o ls (build program ms) := by
  cases h
  exact fun _ => ⟨[], rfl, .none⟩

/-- One declaration is a list of them. -/
theorem means_firstDeclaration (h : Parts Means [.nonterminal declaration] o ls ms) :
    Means declarationList o ls (build declarationList ms) := by
  obtain _ | _ | hm := h
  intro hplain
  obtain ⟨s, rfl, hs⟩ := hm hplain
  exact ⟨[s], rfl, program_concat .none hs⟩

/-- Declarations are listed to the left, so the last one comes off first. -/
theorem means_nextDeclaration
    (h : Parts Means [.nonterminal declarationList, .nonterminal declaration] o ls ms) :
    Means declarationList o ls (build declarationList ms) := by
  obtain _ | _ | _ | ⟨hms, -, _ | _ | hm⟩ := h
  intro hplain
  obtain ⟨hus, hvs⟩ := List.forall_mem_append.mp hplain
  obtain ⟨ss, rfl, hss⟩ := hms hus
  obtain ⟨s, rfl, hs⟩ := hm hvs
  -- the program so far, and one declaration more
  exact ⟨ss ++ [s], rfl, by simpa using program_concat hss hs⟩

theorem means_declared (h : Parts Means [.nonterminal varDecl] o ls ms) :
    Means declaration o ls (build declaration ms) := by
  obtain _ | _ | hm := h
  intro hplain
  obtain ⟨s, rfl, rfl, hs⟩ := hm hplain
  exact ⟨s, rfl, .varDecl hs⟩

theorem means_stated (h : Parts Means [.nonterminal statement] o ls ms) :
    Means declaration o ls (build declaration ms) := by
  obtain _ | _ | hm := h
  intro hplain
  obtain ⟨s, rfl, hs⟩ := hm hplain
  exact ⟨s, rfl, .statement hs⟩

/-- A declaration with a value. The name is kept as a token, so it has to be a plain one. -/
theorem means_initialized
    (h : Parts Means [kwVar, identifier, equal, .nonterminal expression, semicolon] o ls ms) :
    Means varDecl o ls (build varDecl ms) := by
  obtain _ | ⟨hv, _ | ⟨hn, _ | ⟨hq, _ | _ | _ | ⟨hm, -, _ | ⟨hs, ⟨⟩⟩⟩⟩⟩⟩ := h
  intro hplain
  simp only [List.forall_mem_cons, List.forall_mem_append] at hplain
  obtain ⟨-, hname, -, hes, -⟩ := hplain
  obtain ⟨e, rfl, he⟩ := hm hes
  refine ⟨_, rfl, rfl, ?_⟩
  rw [Lexeme.token_eq_scanned hname (by simp [hn]) (by simp [hn])]
  simpa using Simple.initialized (v := Lexeme.scanned _) (n := Lexeme.scanned _)
    (q := Lexeme.scanned _) (s := Lexeme.scanned _) hv hn hq he hs

theorem means_bare (h : Parts Means [kwVar, identifier, semicolon] o ls ms) :
    Means varDecl o ls (build varDecl ms) := by
  obtain _ | ⟨hv, _ | ⟨hn, _ | ⟨hs, ⟨⟩⟩⟩⟩ := h
  intro hplain
  simp only [List.forall_mem_cons] at hplain
  obtain ⟨-, hname, -⟩ := hplain
  refine ⟨_, rfl, rfl, ?_⟩
  rw [Lexeme.token_eq_scanned hname (by simp [hn]) (by simp [hn])]
  exact .bare (v := Lexeme.scanned _) (n := Lexeme.scanned _) (s := Lexeme.scanned _) hv hn hs

theorem means_exprStmt (h : Parts Means [.nonterminal expression, semicolon] o ls ms) :
    Means exprStmt o ls (build exprStmt ms) := by
  obtain _ | _ | _ | ⟨hm, -, _ | ⟨hs, ⟨⟩⟩⟩ := h
  intro hplain
  obtain ⟨hes, -⟩ := List.forall_mem_append.mp hplain
  obtain ⟨e, rfl, he⟩ := hm hes
  exact ⟨_, rfl, rfl, by simpa using Simple.expression (s := Lexeme.scanned _) he hs⟩

theorem means_printStmt (h : Parts Means [kwPrint, .nonterminal expression, semicolon] o ls ms) :
    Means printStmt o ls (build printStmt ms) := by
  obtain _ | ⟨hp, _ | _ | _ | ⟨hm, -, _ | ⟨hs, ⟨⟩⟩⟩⟩ := h
  intro hplain
  simp only [List.forall_mem_cons, List.forall_mem_append] at hplain
  obtain ⟨-, hes, -⟩ := hplain
  obtain ⟨e, rfl, he⟩ := hm hes
  refine ⟨_, rfl, rfl, ?_⟩
  simpa using Simple.print (p := Lexeme.scanned _) (s := Lexeme.scanned _) hp he hs

/-- Statements in which nothing can dangle. -/
theorem means_simple {n : Nonterminal} (hn : n = exprStmt ∨ n = printStmt)
    (h : Parts Means [.nonterminal n] o ls ms) : Means statement o ls (build statement ms) := by
  obtain _ | _ | hm := h
  intro hplain
  -- the two differ in nothing but the statement that is built
  obtain rfl | rfl := hn
  · obtain ⟨s, rfl, rfl, hs⟩ := hm hplain
    exact ⟨s, rfl, .exprStmt hs⟩
  · obtain ⟨s, rfl, rfl, hs⟩ := hm hplain
    exact ⟨s, rfl, .printStmt hs⟩

/-- Statements that dangle as their last part does. -/
theorem means_compound {n : Nonterminal} (hn : n ∈ [forStmt, ifStmt, whileStmt, block])
    (h : Parts Means [.nonterminal n] o ls ms) : Means statement o ls (build statement ms) := by
  obtain _ | _ | hm := h
  intro hplain
  simp only [List.mem_cons, List.not_mem_nil, or_false] at hn
  obtain rfl | rfl | rfl | rfl := hn <;>
  · obtain ⟨s, rfl, hs⟩ := hm hplain
    exact ⟨s, rfl, hs⟩

theorem means_whileStmt
    (h : Parts Means [kwWhile, leftParen, .nonterminal expression, rightParen,
      .nonterminal statement] o ls ms) : Means whileStmt o ls (build whileStmt ms) := by
  obtain _ | ⟨hw, _ | ⟨hl, _ | _ | _ | ⟨hm, -, _ | ⟨hr, _ | _ | hbody⟩⟩⟩⟩ := h
  intro hplain
  simp only [List.forall_mem_cons, List.forall_mem_append] at hplain
  obtain ⟨-, -, hcs, -, hbs⟩ := hplain
  obtain ⟨c, rfl, hc⟩ := hm hcs
  obtain ⟨b, rfl, hb⟩ := hbody hbs
  refine ⟨_, rfl, ?_⟩
  simpa using Stmt.whileLoop (w := Lexeme.scanned _) (l := Lexeme.scanned _)
    (r := Lexeme.scanned _) hw hl hc hr hb

/-- Without an `else` the statement dangles, whatever its branch does. -/
theorem means_ifAlone
    (h : Parts Means [kwIf, leftParen, .nonterminal expression, rightParen,
      .nonterminal statement] o ls ms) : Means ifStmt true ls (build ifStmt ms) := by
  obtain _ | ⟨hi, _ | ⟨hl, _ | _ | _ | ⟨hm, -, _ | ⟨hr, _ | _ | hthen⟩⟩⟩⟩ := h
  intro hplain
  simp only [List.forall_mem_cons, List.forall_mem_append] at hplain
  obtain ⟨-, -, hcs, -, hts⟩ := hplain
  obtain ⟨c, rfl, hc⟩ := hm hcs
  obtain ⟨t, rfl, ht⟩ := hthen hts
  refine ⟨_, rfl, ?_⟩
  simpa using Stmt.ifAlone (i := Lexeme.scanned _) (l := Lexeme.scanned _)
    (r := Lexeme.scanned _) hi hl hc hr ht

/-- With an `else` the statement dangles as its second branch does. -/
theorem means_ifElse
    (h : Parts Means [kwIf, leftParen, .nonterminal expression, rightParen,
      .nonterminal statement, kwElse, .nonterminal statement] o ls ms) :
    Means ifStmt o ls (build ifStmt ms) := by
  obtain _ | ⟨hi, _ | ⟨hl, _ | _ | _ | ⟨hm, -, _ | ⟨hr, _ | _ | _ |
    @⟨_, _, _, _, d, _, _, _, _, hthen, hnearest, _ | ⟨ho, _ | _ | helse⟩⟩⟩⟩⟩⟩ := h
  -- the first branch is not dangling, since it stands in front of an `else`
  have hd : d = false := by
    cases d with
    | false => rfl
    | true => exact absurd rfl (hnearest rfl)
  subst hd
  intro hplain
  simp only [List.forall_mem_cons, List.forall_mem_append] at hplain
  obtain ⟨-, -, hcs, -, hts, -, hes⟩ := hplain
  obtain ⟨c, rfl, hc⟩ := hm hcs
  obtain ⟨t, rfl, ht⟩ := hthen hts
  obtain ⟨e, rfl, he⟩ := helse hes
  refine ⟨_, rfl, ?_⟩
  simpa using Stmt.ifElse (i := Lexeme.scanned _) (l := Lexeme.scanned _) (r := Lexeme.scanned _)
    (o := Lexeme.scanned _) hi hl hc hr ht ho he

/-- A block is closed by its brace, so nothing in it dangles. -/
theorem means_block
    (h : Parts Means [leftBrace, .nonterminal declarationList, rightBrace] o ls ms) :
    Means block o ls (build block ms) := by
  obtain _ | ⟨hl, _ | _ | _ | ⟨hm, -, _ | ⟨hr, ⟨⟩⟩⟩⟩ := h
  intro hplain
  simp only [List.forall_mem_cons, List.forall_mem_append] at hplain
  obtain ⟨-, hts, -⟩ := hplain
  obtain ⟨ss, rfl, hss⟩ := hm hts
  refine ⟨_, rfl, ?_⟩
  simpa using Stmt.block (l := Lexeme.scanned _) (r := Lexeme.scanned _) hl hss hr

theorem means_emptyBlock (h : Parts Means [leftBrace, rightBrace] o ls ms) :
    Means block o ls (build block ms) := by
  obtain _ | ⟨hl, _ | ⟨hr, ⟨⟩⟩⟩ := h
  exact fun _ => ⟨_, rfl, .block (l := Lexeme.scanned _) (r := Lexeme.scanned _) hl .none hr⟩

/-- A loop begins with a declaration or an expression, each with its semicolon. -/
theorem means_forInit {n : Nonterminal} (hn : n = varDecl ∨ n = exprStmt)
    (h : Parts Means [.nonterminal n] o ls ms) : Means forInit o ls (build forInit ms) := by
  obtain _ | _ | hm := h
  intro hplain
  obtain rfl | rfl := hn
  · obtain ⟨s, rfl, -, hs⟩ := hm hplain
    exact ⟨s, rfl, .varDecl hs⟩
  · obtain ⟨s, rfl, -, hs⟩ := hm hplain
    exact ⟨s, rfl, .exprStmt hs⟩

/-- A loop may begin with a semicolon alone. -/
theorem means_noInit (h : Parts Means [semicolon] o ls ms) :
    Means forInit o ls (build forInit ms) := by
  obtain _ | ⟨hs, ⟨⟩⟩ := h
  exact fun _ => ⟨_, rfl, .absent (s := Lexeme.scanned _) hs⟩

/-- A loop with a test and a step. -/
theorem means_for
    (h : Parts Means [kwFor, leftParen, .nonterminal forInit, .nonterminal expression, semicolon,
      .nonterminal expression, rightParen, .nonterminal statement] o ls ms) :
    Means forStmt o ls (build forStmt ms) := by
  obtain _ | ⟨hf, _ | ⟨hl, _ | _ | _ | ⟨hinit, -, _ | _ | _ | ⟨htest, -, _ | ⟨hs, _ | _ | _ |
    ⟨hstep, -, _ | ⟨hr, _ | _ | hbody⟩⟩⟩⟩⟩⟩⟩ := h
  intro hplain
  simp only [List.forall_mem_cons, List.forall_mem_append] at hplain
  obtain ⟨-, -, his, hcs, -, hns, -, hbs⟩ := hplain
  obtain ⟨i, rfl, hi⟩ := hinit his
  obtain ⟨c, rfl, hc⟩ := htest hcs
  obtain ⟨n, rfl, hn⟩ := hstep hns
  obtain ⟨b, rfl, hb⟩ := hbody hbs
  refine ⟨_, rfl, ?_⟩
  -- both front ends build a loop from its parts in the same way
  rw [Descent.forLoop_eq]
  simpa using Stmt.forLoop (f := Lexeme.scanned _) (l := Lexeme.scanned _) (s := Lexeme.scanned _)
    (r := Lexeme.scanned _) hf hl hi (.present hc) hs (.present hn) hr hb

/-- A loop with a test and no step. -/
theorem means_forTest
    (h : Parts Means [kwFor, leftParen, .nonterminal forInit, .nonterminal expression, semicolon,
      rightParen, .nonterminal statement] o ls ms) : Means forStmt o ls (build forStmt ms) := by
  obtain _ | ⟨hf, _ | ⟨hl, _ | _ | _ | ⟨hinit, -, _ | _ | _ | ⟨htest, -, _ | ⟨hs, _ |
    ⟨hr, _ | _ | hbody⟩⟩⟩⟩⟩⟩ := h
  intro hplain
  simp only [List.forall_mem_cons, List.forall_mem_append] at hplain
  obtain ⟨-, -, his, hcs, -, -, hbs⟩ := hplain
  obtain ⟨i, rfl, hi⟩ := hinit his
  obtain ⟨c, rfl, hc⟩ := htest hcs
  obtain ⟨b, rfl, hb⟩ := hbody hbs
  refine ⟨_, rfl, ?_⟩
  rw [Descent.forLoop_eq]
  simpa using Stmt.forLoop (f := Lexeme.scanned _) (l := Lexeme.scanned _) (s := Lexeme.scanned _)
    (r := Lexeme.scanned _) hf hl hi (.present hc) hs .absent hr hb

/-- A loop with a step and no test. -/
theorem means_forStep
    (h : Parts Means [kwFor, leftParen, .nonterminal forInit, semicolon, .nonterminal expression,
      rightParen, .nonterminal statement] o ls ms) : Means forStmt o ls (build forStmt ms) := by
  obtain _ | ⟨hf, _ | ⟨hl, _ | _ | _ | ⟨hinit, -, _ | ⟨hs, _ | _ | _ | ⟨hstep, -, _ |
    ⟨hr, _ | _ | hbody⟩⟩⟩⟩⟩⟩ := h
  intro hplain
  simp only [List.forall_mem_cons, List.forall_mem_append] at hplain
  obtain ⟨-, -, his, -, hns, -, hbs⟩ := hplain
  obtain ⟨i, rfl, hi⟩ := hinit his
  obtain ⟨n, rfl, hn⟩ := hstep hns
  obtain ⟨b, rfl, hb⟩ := hbody hbs
  refine ⟨_, rfl, ?_⟩
  rw [Descent.forLoop_eq]
  simpa using Stmt.forLoop (f := Lexeme.scanned _) (l := Lexeme.scanned _) (s := Lexeme.scanned _)
    (r := Lexeme.scanned _) hf hl hi .absent hs (.present hn) hr hb

/-- A loop with neither. -/
theorem means_forEver
    (h : Parts Means [kwFor, leftParen, .nonterminal forInit, semicolon, rightParen,
      .nonterminal statement] o ls ms) : Means forStmt o ls (build forStmt ms) := by
  obtain _ | ⟨hf, _ | ⟨hl, _ | _ | _ | ⟨hinit, -, _ | ⟨hs, _ | ⟨hr, _ | _ | hbody⟩⟩⟩⟩⟩ := h
  intro hplain
  simp only [List.forall_mem_cons, List.forall_mem_append] at hplain
  obtain ⟨-, -, his, -, -, hbs⟩ := hplain
  obtain ⟨i, rfl, hi⟩ := hinit his
  obtain ⟨b, rfl, hb⟩ := hbody hbs
  refine ⟨_, rfl, ?_⟩
  rw [Descent.forLoop_eq]
  simpa using Stmt.forLoop (f := Lexeme.scanned _) (l := Lexeme.scanned _) (s := Lexeme.scanned _)
    (r := Lexeme.scanned _) hf hl hi .absent hs .absent hr hb

/-- What a production of a statement builds from parts is what it stands for. -/
theorem means_statementRule {x : Production} (hx : x ∈ statementRules)
    (h : Parts Means x.rhs o ls ms) : Means x.lhs (x.isShortIf || o) ls (build x.lhs ms) := by
  obtain ⟨lhs, rhs⟩ := x
  simp only [statementRules, List.mem_append, mem_rules, List.mem_cons, List.not_mem_nil,
    or_false, and_or_left, or_assoc] at hx
  -- one case for each production, in the order of the grammar
  obtain ⟨rfl, rfl⟩ | ⟨rfl, rfl⟩ | ⟨rfl, rfl⟩ | ⟨rfl, rfl⟩ | ⟨rfl, rfl⟩ | ⟨rfl, rfl⟩ | ⟨rfl, rfl⟩ |
    ⟨rfl, rfl⟩ | ⟨rfl, rfl⟩ | ⟨rfl, rfl⟩ | ⟨rfl, rfl⟩ | ⟨rfl, rfl⟩ | ⟨rfl, rfl⟩ | ⟨rfl, rfl⟩ |
    ⟨rfl, rfl⟩ | ⟨rfl, rfl⟩ | ⟨rfl, rfl⟩ | ⟨rfl, rfl⟩ | ⟨rfl, rfl⟩ | ⟨rfl, rfl⟩ | ⟨rfl, rfl⟩ |
    ⟨rfl, rfl⟩ | ⟨rfl, rfl⟩ | ⟨rfl, rfl⟩ | ⟨rfl, rfl⟩ | ⟨rfl, rfl⟩ | ⟨rfl, rfl⟩ | ⟨rfl, rfl⟩ |
    ⟨rfl, rfl⟩ := hx
  · exact fun _ => trivial
  · exact means_declarations h
  · exact means_nothing h
  · exact means_firstDeclaration h
  · exact means_nextDeclaration h
  · exact means_declared h
  · exact means_stated h
  · exact means_initialized h
  · exact means_bare h
  · exact means_simple (.inl rfl) h
  · exact means_compound (by decide) h
  · exact means_compound (by decide) h
  · exact means_simple (.inr rfl) h
  · exact means_compound (by decide) h
  · exact means_compound (by decide) h
  · exact means_for h
  · exact means_forTest h
  · exact means_forStep h
  · exact means_forEver h
  · exact means_forInit (.inl rfl) h
  · exact means_forInit (.inr rfl) h
  · exact means_noInit h
  · exact means_ifElse h
  · exact means_ifAlone h
  · exact means_whileStmt h
  · exact means_block h
  · exact means_emptyBlock h
  · exact means_exprStmt h
  · exact means_printStmt h

end

/-! ## What productions of expressions build -/

section

variable {l : Level}

/-- The nonterminal of a level denotes what an expression of that level reads. -/
theorem denotes_head {o : Bool} {ts : List Token} {m : Meaning} :
    Denotes l.head o ts m ↔ Reads (.level l) ts m := by
  cases l <;> rfl

/-- The nonterminal of its operators denotes what continues such an expression. -/
theorem denotes_tail {o : Bool} {ts : List Token} {m : Meaning} :
    Denotes l.tail o ts m ↔ Continues l ts m := by
  cases l <;> rfl

/-- The nonterminal below it denotes what an operand reads. -/
theorem denotes_below {o : Bool} {ts : List Token} {m : Meaning} :
    Denotes l.below o ts m ↔ Reads l.operand ts m := by
  cases l <;> rfl

theorem build_operand (a : Node) : build l.head [.node a] = .node a := by
  cases l <;> rfl

/-- The operations behind the first operand are folded to the left. -/
theorem build_level (a : Node) (os : List (Token × Node)) :
    build l.head [.node a, .operations os] = .node (foldOperations l.join a os) := by
  cases l <;> rfl

theorem build_operation (o : Lexeme) (e : Node) :
    build l.tail [.lexeme o, .node e] = .operations [(o.token, e)] := by
  cases l <;> rfl

theorem build_operations (os : List (Token × Node)) (o : Lexeme) (e : Node) :
    build l.tail [.operations os, .lexeme o, .node e] = .operations (os ++ [(o.token, e)]) := by
  cases l <;> rfl

/-- Operators have no value of their own. -/
theorem operator_ne {k : Kind} (hk : k ∈ l.operators) : k ≠ .number ∧ k ≠ .string := by
  revert k
  cases l <;> decide

/-- An operator with its right operand continues an expression of its level. -/
theorem operation_concat {o : Lexeme} {xs : List Token} {ys : List Lexeme} {a b : Node}
    (ha : Expr (.level l) xs a) (ho : o.kind ∈ l.operators) (hplain : o.Plain)
    (hb : Expr l.operand (ys.map Lexeme.scanned) b) :
    Expr (.level l) (xs ++ (o :: ys).map Lexeme.scanned) (l.join a o.token b) := by
  obtain ⟨hnumber, hstring⟩ := operator_ne ho
  rw [Lexeme.token_eq_scanned hplain hnumber hstring]
  exact .operation (o := o.scanned) ha ho hb

end

section

open Nonterminal Kind

variable {o o' : Bool} {ls : List Lexeme} {ms : List Meaning}

/-- An operand alone is an expression of the level. -/
theorem means_operand {l : Level} (h : Parts Means [.nonterminal l.below] o ls ms) :
    Means l.head o' ls (build l.head ms) := by
  obtain _ | _ | hm := h
  intro hplain
  obtain ⟨e, rfl, he⟩ := denotes_below.mp (hm hplain)
  rw [build_operand, denotes_head]
  exact ⟨e, rfl, .operand he⟩

/-- An operand is continued by the operations behind it. -/
theorem means_level {l : Level}
    (h : Parts Means [.nonterminal l.below, .nonterminal l.tail] o ls ms) :
    Means l.head o' ls (build l.head ms) := by
  obtain _ | _ | _ | ⟨hm, -, _ | _ | hms⟩ := h
  intro hplain
  obtain ⟨has, hos⟩ := List.forall_mem_append.mp hplain
  obtain ⟨a, rfl, ha⟩ := denotes_below.mp (hm has)
  obtain ⟨os, rfl, hcontinue⟩ := denotes_tail.mp (hms hos)
  rw [build_level, denotes_head, List.map_append]
  -- the operand is an expression of the level before any operation is applied
  exact ⟨_, rfl, hcontinue (.operand ha)⟩

/-- The first operation continues whatever stands in front of it. -/
theorem means_operation {l : Level} {k : Kind} (hk : k ∈ l.operators)
    (h : Parts Means [.terminal k, .nonterminal l.below] o ls ms) :
    Means l.tail o' ls (build l.tail ms) := by
  obtain _ | ⟨rfl, _ | _ | hm⟩ := h
  intro hplain
  obtain ⟨ho, hys⟩ := List.forall_mem_cons.mp hplain
  obtain ⟨b, rfl, hb⟩ := denotes_below.mp (hm hys)
  rw [build_operation, denotes_tail]
  -- `ha` reads what stands in front, of which nothing is known but that
  exact ⟨_, rfl, fun ha => operation_concat ha hk ho hb⟩

/-- Operations are listed to the left, and are applied in that order. -/
theorem means_operations {l : Level} {k : Kind} (hk : k ∈ l.operators)
    (h : Parts Means [.nonterminal l.tail, .terminal k, .nonterminal l.below] o ls ms) :
    Means l.tail o' ls (build l.tail ms) := by
  obtain _ | _ | _ | ⟨hms, -, _ | ⟨rfl, _ | _ | hm⟩⟩ := h
  intro hplain
  simp only [List.forall_mem_append, List.forall_mem_cons] at hplain
  obtain ⟨hos, ho, hys⟩ := hplain
  obtain ⟨os, rfl, hcontinue⟩ := denotes_tail.mp (hms hos)
  obtain ⟨b, rfl, hb⟩ := denotes_below.mp (hm hys)
  rw [build_operations, denotes_tail]
  refine ⟨_, rfl, fun ha => ?_⟩
  -- what the operations in front have made of `ha` is the left operand of the last one
  have hnext := operation_concat (hcontinue ha) hk ho hb
  rw [List.append_assoc, ← List.map_append] at hnext
  rw [foldOperations, List.foldl_append]
  exact hnext

/-- The levels have productions of one shape, so they share one proof. -/
theorem means_levelRule {l : Level} {x : Production} (hx : x ∈ l.productions)
    (h : Parts Means x.rhs o ls ms) : Means x.lhs o' ls (build x.lhs ms) := by
  obtain ⟨lhs, rhs⟩ := x
  simp only [Level.productions, levelRules, List.mem_append, mem_rules, List.mem_map,
    List.mem_cons, List.not_mem_nil, or_false, and_or_left, or_assoc] at hx
  obtain ⟨rfl, rfl⟩ | ⟨rfl, rfl⟩ | ⟨rfl, k, hk, rfl⟩ | ⟨rfl, k, hk, rfl⟩ := hx
  · exact means_operand h
  · exact means_level h
  · exact means_operation hk h
  · exact means_operations hk h

theorem means_whole (h : Parts Means [.nonterminal assignment] o ls ms) :
    Means expression o' ls (build expression ms) := by
  obtain _ | _ | hm := h
  intro hplain
  obtain ⟨e, rfl, he⟩ := hm hplain
  exact ⟨e, rfl, .whole he⟩

/-- An assignment is to a name, which is kept as a token. -/
theorem means_assign
    (h : Parts Means [identifier, equal, .nonterminal assignment] o ls ms) :
    Means assignment o' ls (build assignment ms) := by
  obtain _ | ⟨hn, _ | ⟨hq, _ | _ | hm⟩⟩ := h
  intro hplain
  simp only [List.forall_mem_cons] at hplain
  obtain ⟨hname, -, hes⟩ := hplain
  obtain ⟨e, rfl, he⟩ := hm hes
  refine ⟨_, rfl, ?_⟩
  rw [Lexeme.token_eq_scanned hname (by simp [hn]) (by simp [hn])]
  exact .assignment (n := Lexeme.scanned _) (q := Lexeme.scanned _) hn hq he

theorem means_disjunction (h : Parts Means [.nonterminal disjunction] o ls ms) :
    Means assignment o' ls (build assignment ms) := by
  obtain _ | _ | hm := h
  intro hplain
  obtain ⟨e, rfl, he⟩ := hm hplain
  exact ⟨e, rfl, .disjunction he⟩

/-- Operators in front of an operand apply from the inside out. -/
theorem means_unary {k : Kind} (hk : k ∈ [bang, minus])
    (h : Parts Means [.terminal k, .nonterminal unary] o ls ms) :
    Means unary o' ls (build unary ms) := by
  obtain _ | ⟨rfl, _ | _ | hm⟩ := h
  intro hplain
  obtain ⟨ho, hes⟩ := List.forall_mem_cons.mp hplain
  obtain ⟨e, rfl, he⟩ := hm hes
  have hne : ∀ k ∈ [bang, minus], k ≠ Kind.number ∧ k ≠ Kind.string := by decide
  obtain ⟨hnumber, hstring⟩ := hne _ hk
  refine ⟨_, rfl, ?_⟩
  rw [Lexeme.token_eq_scanned ho hnumber hstring]
  exact .unary (o := Lexeme.scanned _) hk he

theorem means_called (h : Parts Means [.nonterminal call] o ls ms) :
    Means unary o' ls (build unary ms) := by
  obtain _ | _ | hm := h
  intro hplain
  obtain ⟨e, rfl, he⟩ := hm hplain
  exact ⟨e, rfl, .call he⟩

theorem means_primary (h : Parts Means [.nonterminal primary] o ls ms) :
    Means call o' ls (build call ms) := by
  obtain _ | _ | hm := h
  intro hplain
  obtain ⟨e, rfl, he⟩ := hm hplain
  exact ⟨e, rfl, .primary he⟩

/-- A call keeps its closing parenthesis, to report errors at. -/
theorem means_callWith
    (h : Parts Means [.nonterminal call, leftParen, .nonterminal arguments, rightParen] o ls ms) :
    Means call o' ls (build call ms) := by
  obtain _ | _ | _ | ⟨hm, -, _ | ⟨hl, _ | _ | _ | ⟨hms, -, _ | ⟨hr, ⟨⟩⟩⟩⟩⟩ := h
  intro hplain
  simp only [List.forall_mem_append, List.forall_mem_cons] at hplain
  obtain ⟨hfs, -, has, hparen, -⟩ := hplain
  obtain ⟨f, rfl, hf⟩ := hm hfs
  obtain ⟨as, rfl, hcount, has⟩ := hms has
  refine ⟨_, rfl, ?_⟩
  -- of the parentheses the tree holds the closing one
  rw [Lexeme.token_eq_scanned hparen (by simp [hr]) (by simp [hr])]
  simpa using Expr.callWith (l := Lexeme.scanned _) (r := Lexeme.scanned _) hf hl has hcount hr

/-- A call without arguments. -/
theorem means_callAlone (h : Parts Means [.nonterminal call, leftParen, rightParen] o ls ms) :
    Means call o' ls (build call ms) := by
  obtain _ | _ | _ | ⟨hm, -, _ | ⟨hl, _ | ⟨hr, ⟨⟩⟩⟩⟩ := h
  intro hplain
  simp only [List.forall_mem_append, List.forall_mem_cons] at hplain
  obtain ⟨hfs, -, hparen, -⟩ := hplain
  obtain ⟨f, rfl, hf⟩ := hm hfs
  refine ⟨_, rfl, ?_⟩
  rw [Lexeme.token_eq_scanned hparen (by simp [hr]) (by simp [hr])]
  simpa using Expr.callAlone (l := Lexeme.scanned _) (r := Lexeme.scanned _) hf hl hr

/-- One more argument. -/
theorem arguments_concat {c : Token} {xs ys : List Token} {as : List Node} {b : Node}
    (has : Expr .arguments xs (.list as)) (hc : c.kind = .comma) (hb : Expr .expression ys b) :
    Expr .arguments (xs ++ c :: ys) (.list (as ++ [b])) := by
  -- the rule and the tree are fixed, so the other rules cannot have derived it
  generalize hr : Rule.arguments = r, he : Node.list as = e at has
  induction has generalizing as with
  | lastArgument ha =>
      cases he
      exact .argument ha hc (.lastArgument hb)
  | argument ha hc' _ _ ih =>
      cases he
      rw [List.append_assoc]
      exact .argument ha hc' (ih rfl rfl)
  | constant | name | grouping | primary | callAlone | callWith | call | unary | operand
  | operation | disjunction | assignment | whole => cases hr

theorem means_lastArgument (h : Parts Means [.nonterminal expression] o ls ms) :
    Means arguments o' ls (build arguments ms) := by
  obtain _ | _ | hm := h
  intro hplain
  obtain ⟨a, rfl, ha⟩ := hm hplain
  exact ⟨[a], rfl, (by decide : 1 ≤ maxArguments), .lastArgument ha⟩

/-- The first argument and those behind it, if they are not too many. -/
theorem means_arguments
    (h : Parts Means [.nonterminal expression, .nonterminal argumentTail] o ls ms)
    (hcount : argumentCount arguments (build arguments ms) ≤ maxArguments) :
    Means arguments o' ls (build arguments ms) := by
  obtain _ | _ | _ | ⟨hm, -, _ | _ | hms⟩ := h
  intro hplain
  obtain ⟨hxs, hys⟩ := List.forall_mem_append.mp hplain
  obtain ⟨a, rfl, ha⟩ := hm hxs
  obtain ⟨as, rfl, hcontinue⟩ := hms hys
  exact ⟨a :: as, rfl, hcount, by simpa using hcontinue (.lastArgument ha)⟩

/-- The first argument behind a comma continues any arguments. -/
theorem means_nextArgument (h : Parts Means [comma, .nonterminal expression] o ls ms) :
    Means argumentTail o' ls (build argumentTail ms) := by
  obtain _ | ⟨hc, _ | _ | hm⟩ := h
  intro hplain
  obtain ⟨-, hxs⟩ := List.forall_mem_cons.mp hplain
  obtain ⟨a, rfl, ha⟩ := hm hxs
  exact ⟨[a], rfl, fun hbs => arguments_concat (c := Lexeme.scanned _) hbs hc ha⟩

/-- Further arguments continue those that the tail has gathered. -/
theorem means_argumentTail
    (h : Parts Means [.nonterminal argumentTail, comma, .nonterminal expression] o ls ms) :
    Means argumentTail o' ls (build argumentTail ms) := by
  obtain _ | _ | _ | ⟨hms, -, _ | ⟨hc, _ | _ | hm⟩⟩ := h
  intro hplain
  simp only [List.forall_mem_append, List.forall_mem_cons] at hplain
  obtain ⟨hxs, -, hys⟩ := hplain
  obtain ⟨as, rfl, hcontinue⟩ := hms hxs
  obtain ⟨a, rfl, ha⟩ := hm hys
  -- the arguments in front are any, so this one comes after them and after the tail
  refine ⟨as ++ [a], rfl, fun hbs => ?_⟩
  simpa using arguments_concat (c := Lexeme.scanned _) (hcontinue hbs) hc ha

/-- What a lexeme is worth is what the scanner makes of its text. -/
theorem constant_scanned {l : Lexeme} (h : l.kind ∈ [number, string, kwTrue, kwFalse, kwNil]) :
    l.scanned.constant? = some l.value := by
  obtain ⟨kind, text, line⟩ := l
  simp only [List.mem_cons, List.not_mem_nil, or_false] at h
  -- each kind has its own way to be read
  obtain rfl | rfl | rfl | rfl | rfl := h <;> rfl

theorem means_constant {k : Kind} (hk : k ∈ [number, string, kwTrue, kwFalse, kwNil])
    (h : Parts Means [.terminal k] o ls ms) : Means primary o' ls (build primary ms) := by
  obtain _ | @⟨_, _, _, l, _, _, rfl, ⟨⟩⟩ := h
  intro _
  -- a name would refer to something instead of having a value
  have hname : l.kind ≠ identifier := by
    intro h
    rw [h] at hk
    exact absurd hk (by decide)
  exact ⟨.literal l.value, congrArg Meaning.node (if_neg hname), .constant (constant_scanned hk)⟩

/-- A name refers to what is declared under it. -/
theorem means_name (h : Parts Means [identifier] o ls ms) :
    Means primary o' ls (build primary ms) := by
  obtain _ | @⟨_, _, _, l, _, _, hn, ⟨⟩⟩ := h
  intro hplain
  have hname := Lexeme.token_eq_scanned (hplain l (by simp)) (by simp [hn]) (by simp [hn])
  refine ⟨.reference l.token, congrArg Meaning.node (if_pos hn), ?_⟩
  rw [hname]
  exact .name (t := l.scanned) hn

theorem means_grouping
    (h : Parts Means [leftParen, .nonterminal expression, rightParen] o ls ms) :
    Means primary o' ls (build primary ms) := by
  obtain _ | ⟨hl, _ | _ | _ | ⟨hm, -, _ | ⟨hr, ⟨⟩⟩⟩⟩ := h
  intro hplain
  simp only [List.forall_mem_cons, List.forall_mem_append] at hplain
  obtain ⟨-, hes, -⟩ := hplain
  obtain ⟨e, rfl, he⟩ := hm hes
  refine ⟨_, rfl, ?_⟩
  simpa using Expr.grouping (l := Lexeme.scanned _) (r := Lexeme.scanned _) hl he hr

/-- What a production of an expression builds from parts is what it stands for. -/
theorem means_expressionRule {x : Production} (hx : x ∈ expressionRules)
    (h : Parts Means x.rhs o ls ms) (hcount : argumentCount x.lhs (build x.lhs ms) ≤ maxArguments) :
    Means x.lhs o' ls (build x.lhs ms) := by
  obtain ⟨lhs, rhs⟩ := x
  simp only [expressionRules, List.mem_append, mem_rules, List.mem_cons, List.not_mem_nil,
    or_false, and_or_left, or_assoc] at hx
  -- one case for each production, and one for all of a level
  obtain ⟨rfl, rfl⟩ | ⟨rfl, rfl⟩ | ⟨rfl, rfl⟩ | hx | hx | hx | hx | hx | hx | ⟨rfl, rfl⟩ |
    ⟨rfl, rfl⟩ | ⟨rfl, rfl⟩ | ⟨rfl, rfl⟩ | ⟨rfl, rfl⟩ | ⟨rfl, rfl⟩ | ⟨rfl, rfl⟩ | ⟨rfl, rfl⟩ |
    ⟨rfl, rfl⟩ | ⟨rfl, rfl⟩ | ⟨rfl, rfl⟩ | ⟨rfl, rfl⟩ | ⟨rfl, rfl⟩ | ⟨rfl, rfl⟩ | ⟨rfl, rfl⟩ |
    ⟨rfl, rfl⟩ | ⟨rfl, rfl⟩ := hx
  · exact means_whole h
  · exact means_assign h
  · exact means_disjunction h
  · exact means_levelRule (l := .disjunction) hx h
  · exact means_levelRule (l := .conjunction) hx h
  · exact means_levelRule (l := .equality) hx h
  · exact means_levelRule (l := .comparison) hx h
  · exact means_levelRule (l := .term) hx h
  · exact means_levelRule (l := .factor) hx h
  · exact means_unary (by decide) h
  · exact means_unary (by decide) h
  · exact means_called h
  · exact means_primary h
  · exact means_callWith h
  · exact means_callAlone h
  · exact means_lastArgument h
  · exact means_arguments h hcount
  · exact means_nextArgument h
  · exact means_argumentTail h
  · exact means_constant (by decide) h
  · exact means_constant (by decide) h
  · exact means_constant (by decide) h
  · exact means_constant (by decide) h
  · exact means_constant (by decide) h
  · exact means_grouping h
  · exact means_name h

end

/-- What a proper tree stands for is the syntax tree of the phrase it derives. -/
theorem Grown.means {n : Nonterminal} {o : Bool} {ls : List Lexeme} {m : Meaning}
    (h : Grown n o ls m) : Means n o ls m :=
  h.holds fun hx hparts hcount => by
    obtain hx | hx := List.mem_append.mp hx
    · exact means_statementRule hx hparts
    · exact means_expressionRule hx hparts hcount

end Grammar

end NovaLang
