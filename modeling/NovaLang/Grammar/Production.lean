import NovaLang.Token

namespace NovaLang.Grammar

/-! # The grammar

The language as a context-free grammar over the kinds of tokens. Left-recursive
`…List` and `…Tail` symbols stand for repetitions, and each optional part gives
two productions.
-/

/-- The nonterminal symbols. -/
inductive Nonterminal where
  | goal | program | declarationList | declaration | varDecl | statement
  | exprStmt | forStmt | forInit | ifStmt | printStmt | whileStmt | block
  | expression | assignment
  | disjunction | orTail | conjunction | andTail
  | equality | equalityTail | comparison | comparisonTail
  | term | termTail | factor | factorTail
  | unary | call | arguments | argumentTail | primary
  deriving DecidableEq, Repr, Inhabited

/-- A symbol of the grammar. -/
inductive Symbol where
  | terminal (kind : Kind)
  | nonterminal (n : Nonterminal)
  deriving DecidableEq, Repr, Inhabited

instance : Coe Kind Symbol := ⟨.terminal⟩
instance : Coe Nonterminal Symbol := ⟨.nonterminal⟩

/-- A production: a nonterminal and what it may consist of. -/
structure Production where
  lhs : Nonterminal
  rhs : List Symbol
  deriving DecidableEq, Repr, Inhabited

/-- The alternatives of a nonterminal. -/
def rules (lhs : Nonterminal) (alternatives : List (List Symbol)) : List Production :=
  alternatives.map fun rhs => ⟨lhs, rhs⟩

section

open Nonterminal Kind

/-- Programs, declarations and statements. -/
def statementRules : List Production :=
  rules .goal [[program]] ++
  rules .program [[declarationList], []] ++
  rules .declarationList [[declaration], [declarationList, declaration]] ++
  rules .declaration [[varDecl], [statement]] ++
  rules .varDecl [
    [kwVar, identifier, equal, expression, semicolon],
    [kwVar, identifier, semicolon]] ++
  rules .statement [[exprStmt], [forStmt], [ifStmt], [printStmt], [whileStmt], [block]] ++
  rules .forStmt [
    [kwFor, leftParen, forInit, expression, semicolon, expression, rightParen, statement],
    [kwFor, leftParen, forInit, expression, semicolon, rightParen, statement],
    [kwFor, leftParen, forInit, semicolon, expression, rightParen, statement],
    [kwFor, leftParen, forInit, semicolon, rightParen, statement]] ++
  rules .forInit [[varDecl], [exprStmt], [semicolon]] ++
  rules .ifStmt [
    [kwIf, leftParen, expression, rightParen, statement, kwElse, statement],
    [kwIf, leftParen, expression, rightParen, statement]] ++
  rules .whileStmt [[kwWhile, leftParen, expression, rightParen, statement]] ++
  rules .block [[leftBrace, declarationList, rightBrace], [leftBrace, rightBrace]] ++
  rules .exprStmt [[expression, semicolon]] ++
  rules .printStmt [[kwPrint, expression, semicolon]]

/-- A level of left-associative operators: operands of the next level, and a
tail of operators each with an operand. -/
def levelRules (level tail operand : Nonterminal) (operators : List Kind) : List Production :=
  rules level [[operand], [operand, tail]] ++
  rules tail (operators.map fun o => [.terminal o, operand]) ++
  rules tail (operators.map fun o => [tail, .terminal o, operand])

/-- Expressions, from the lowest to the highest precedence. -/
def expressionRules : List Production :=
  rules .expression [[assignment]] ++
  rules .assignment [[identifier, equal, assignment], [disjunction]] ++
  levelRules .disjunction .orTail .conjunction [.kwOr] ++
  levelRules .conjunction .andTail .equality [.kwAnd] ++
  levelRules .equality .equalityTail .comparison [.bangEqual, .equalEqual] ++
  levelRules .comparison .comparisonTail .term [.greater, .greaterEqual, .less, .lessEqual] ++
  levelRules .term .termTail .factor [.minus, .plus] ++
  levelRules .factor .factorTail .unary [.slash, .star] ++
  rules .unary [[bang, unary], [minus, unary], [call]] ++
  rules .call [
    [primary],
    [call, leftParen, arguments, rightParen],
    [call, leftParen, rightParen]] ++
  rules .arguments [[expression], [expression, argumentTail]] ++
  rules .argumentTail [[comma, expression], [argumentTail, comma, expression]] ++
  rules .primary [
    [number], [string], [kwTrue], [kwFalse], [kwNil], [leftParen, expression, rightParen],
    [identifier]]

end

/-- All productions; the first one is that of the goal symbol. -/
def productions : Array Production := (statementRules ++ expressionRules).toArray

end NovaLang.Grammar
