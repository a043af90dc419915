import NovaLang.Grammar.Automaton
import NovaLang.Grammar.Lexeme

namespace NovaLang.Grammar

/-! # Derivation trees

The automaton turns a source text into the tree of its derivation. Each lexeme is
cut off under the state that is reached before the reductions it leads to. The
first error ends the reading.
-/

/-- A derivation tree. -/
inductive Tree where
  | leaf (lexeme : Lexeme)
  | branch (production : Nat) (children : List Tree)
  deriving Repr, Inhabited

mutual

/-- The line the first lexeme of a tree begins on. -/
def Tree.firstLine? : Tree → Option Int
  | .leaf l => some l.line
  | .branch _ children => firstLineOf? children

/-- The line the first lexeme of some trees begins on. -/
def Tree.firstLineOf? : List Tree → Option Int
  | [] => none
  | t :: ts =>
    match t.firstLine? with
    | some line => some line
    | none => firstLineOf? ts

end

/-- A static error at a line. -/
structure LineError where
  line : Int
  complaint : Complaint
  deriving DecidableEq, Repr

/-- The states entered, the last one first, each with the tree it was entered by. -/
abbrev Stack := List (Nat × Tree)

/-- The state on top of a stack. -/
def Stack.state (s : Stack) : Nat :=
  match s with
  | (state, _) :: _ => state
  | [] => 0

/-- Replaces the trees of a right-hand side by the tree of the production. -/
def Automaton.reduce? (a : Automaton) (p : Nat) (s : Stack) : Option Stack :=
  let production := productionAt p
  let size := production.rhs.length
  let below := s.drop size
  (a.goto? (Stack.state below) production.lhs).map fun state =>
    (state, .branch p ((s.take size).map (·.2)).reverse) :: below

/-- What comes of offering a kind of token to a stack. -/
inductive Offered where
  /-- The token is to be shifted, into this state. -/
  | shift (stack : Stack) (state : Nat)
  /-- The input is complete; its tree has been found. -/
  | done (tree : Tree)
  | refused
  deriving Repr

/-- Reduces under a kind of token until it is shifted or refused. -/
def Automaton.offer (a : Automaton) (kind : Kind) : (count : Nat) → Stack → Offered
  | 0, _ => .refused
  | count + 1, s =>
    match a.action? (Stack.state s) kind with
    | some (.shift state) => .shift s state
    | some (.reduce 0) =>
      match s with
      | (_, tree) :: _ => .done tree
      | [] => .refused
    | some (.reduce p) =>
      match a.reduce? p s with
      | some s => a.offer kind count s
      | none => .refused
    | none => .refused

/-- A bound on the reductions that one token leads to: a chain of single
symbols is shorter than the list of nonterminals. -/
def Stack.bound (s : Stack) : Nat := nonterminals.length * (s.length + 2)

/-- Reads the rest of a text; at most `count` lexemes are read. The error of a
text that ends too early lies on the line `last`. -/
def Automaton.read (a : Automaton) (last : Int) :
    (count : Nat) → Stack → Int → List Char → Except LineError Tree
  | 0, _, line, _ => .error ⟨line, .unexpectedEnd⟩
  | count + 1, s, line, cs =>
    match nextLexeme (a.accepted (Stack.state s)) line cs with
    | .error line complaint => .error ⟨line, complaint⟩
    | .endOfInput =>
      match a.offer .eof s.bound s with
      | .done tree => .ok tree
      | _ => .error ⟨last, .unexpectedEnd⟩
    | .lexeme l rest =>
      match a.offer l.kind s.bound s with
      | .shift s state =>
        a.read last count ((state, .leaf l) :: s) (l.line + Text.lineBreaks l.text) rest
      | _ => .error ⟨l.line, .unexpected l.string⟩

/-- The derivation tree of a source text. -/
def Tree.ofSource (source : String) : Except LineError Tree :=
  let cs := source.toList
  lalr.read (Text.lineBreaks cs + 1) (cs.length + 1) [] 1 cs

end NovaLang.Grammar
