import NovaLang.Grammar.KindSet
import NovaLang.Grammar.Packed
import NovaLang.Grammar.Production

namespace NovaLang.Grammar

/-! # The LALR automaton of the grammar

A state is a set of items, productions with a dot. With an item that has its dot in
front of a nonterminal goes the start of each production of that nonterminal. A symbol
leads from a state to the state of the items with the dot moved over it.

A state reduces a finished production under the kinds of tokens that may follow it.
They are found for each transition on a nonterminal: after it comes what the state
behind it shifts, and what comes after the production that ends with it. Where a state
may both shift a token and reduce, it shifts, so that an `else` belongs to the nearest
`if`.
-/

/-! ## Items -/

/-- The production of an index. -/
def productionAt (p : Nat) : Production := productions[p]?.getD ⟨.goal, []⟩

/-- The productions, each with its index. -/
def numbered : List (Production × Nat) := productions.toList.zipIdx

/-- Every nonterminal. -/
def nonterminals : List Nonterminal := [
  .goal, .program, .declarationList, .declaration, .varDecl, .statement, .exprStmt, .forStmt,
  .forInit, .ifStmt, .printStmt, .whileStmt, .block, .expression, .assignment, .disjunction,
  .orTail, .conjunction, .andTail, .equality, .equalityTail, .comparison, .comparisonTail,
  .term, .termTail, .factor, .factorTail, .unary, .call, .arguments, .argumentTail, .primary]

/-- The number of a symbol: those of the kinds, then those of the nonterminals. -/
def Symbol.code : Symbol → Nat
  | .terminal k => k.ctorIdx
  | .nonterminal n => Kind.all.length.add n.ctorIdx

/-- The number of symbols. -/
def symbolCount : Nat := Kind.all.length + nonterminals.length

/-- A production with a dot in its right-hand side: its index and the symbols after the dot. -/
structure Item where
  production : Nat
  after : List Symbol
  deriving DecidableEq, Repr, Inhabited

/-- A bound on the lengths of right-hand sides. -/
def maxLength : Nat := 16

/-- A number for each set of items: its bits are the members. -/
def itemsCode (items : List Item) : Nat :=
  items.foldl
    (fun code i => code.lor (Nat.shiftLeft 1 ((maxLength.mul i.production).add i.after.length))) 0

/-- What becomes of some items: the productions that are finished, and for each symbol
after a dot the items with the dot moved over it. -/
structure Moves where
  finished : List Nat
  next : List (Symbol × List Item)
  deriving Repr, Inhabited

/-- Adds an item with the dot moved over a symbol. -/
def Moves.place (s : Symbol) (i : Item) : List (Symbol × List Item) → List (Symbol × List Item)
  | [] => [(s, [i])]
  | (t, items) :: rest =>
    bif t.code.beq s.code then (t, i :: items) :: rest else (t, items) :: place s i rest

/-- Adds what becomes of an item. -/
def Moves.add (m : Moves) (i : Item) : Moves :=
  match i.after with
  | [] => { m with finished := i.production :: m.finished }
  | s :: rest => { m with next := place s ⟨i.production, rest⟩ m.next }

/-- Adds all that becomes of some other items. -/
def Moves.append (m other : Moves) : Moves :=
  { finished := other.finished ++ m.finished
    next := other.next.foldl (fun next (s, items) => items.foldl (fun next i => place s i next) next)
      m.next }

/-- The function applied until nothing changes, at most `count` times. -/
def untilStable (f : Nat → Nat) : (count : Nat) → Nat → Nat
  | 0, a => a
  | count + 1, a => bif (f a).beq a then a else untilStable f count (f a)

/-- Adds to a set of nonterminals those that productions of its members begin with. The
bits of a number are the members. -/
def addBegun (members : Nat) : Nat :=
  numbered.foldl
    (fun members (p, _) => match p.rhs with
      | .nonterminal n :: _ =>
        bif members.testBit p.lhs.ctorIdx then members.lor (Nat.shiftLeft 1 n.ctorIdx) else members
      | _ => members)
    members

/-- What becomes of the items that go with a dot in front of a nonterminal. -/
def beginnings : List Moves :=
  nonterminals.map fun n =>
    let begun := untilStable addBegun 100 (Nat.shiftLeft 1 n.ctorIdx)
    numbered.foldl
      (fun m (p, i) => bif begun.testBit p.lhs.ctorIdx then m.add ⟨i, p.rhs⟩ else m) ⟨[], []⟩

/-- The nonterminals after the dots of some items, each once. -/
def awaited (items : List Item) : List Nonterminal :=
  items.foldl
    (fun ns i => match i.after with
      | .nonterminal n :: _ => bif ns.any (·.ctorIdx.beq n.ctorIdx) then ns else n :: ns
      | _ => ns)
    []

/-- What becomes of some items and of those that go with them. -/
def movesOf (items : List Item) : Moves :=
  let begun := (awaited items).map fun n => beginnings[n.ctorIdx]?.getD default
  items.foldl Moves.add
    (match begun with
    | [] => default
    | first :: rest => rest.foldl Moves.append first)

/-! ## States -/

/-- A state: the items that characterise it, the productions finished in it, and where
each symbol leads. -/
structure Draft where
  core : List Item
  finished : List Nat
  edges : List (Symbol × Nat)
  deriving Repr, Inhabited

/-- The place of a number in a list, counted from the end of the list. -/
def placeFromEnd? (n : Nat) : List Nat → Option Nat
  | [] => none
  | m :: rest => bif m.beq n then some rest.length else placeFromEnd? n rest

/-- The states some moves lead to: their edges, and what is known and what is new after
them. States are known by the numbers of their items, the newest first. -/
def connect : List (Symbol × List Item) → (known : List Nat) → (new : List (List Item)) →
    List (Symbol × Nat) × List Nat × List (List Item)
  | [], known, new => ([], known, new.reverse)
  | (s, items) :: rest, known, new =>
    let code := itemsCode items
    match placeFromEnd? code known with
    | some n =>
      let (edges, after) := connect rest known new
      ((s, n) :: edges, after)
    | none =>
      let (edges, after) := connect rest (code :: known) (items :: new)
      ((s, known.length) :: edges, after)

/-- The states of some cores and those found on the way, at most `count` of them. -/
def explore : (count : Nat) → (cores : List (List Item)) → (known : List Nat) → List Draft
  | count + 1, core :: cores, known =>
    let moves := movesOf core
    let (edges, known, new) := connect moves.next known []
    ⟨core, moves.finished, edges⟩ :: explore count (cores ++ new) known
  | _, _, _ => []

/-- The items of the state that the automaton starts in. -/
def startItems : List Item := [⟨0, (productionAt 0).rhs⟩]

/-- All states. -/
def drafts : List Draft := explore 1000 [startItems] [itemsCode startItems]

/-- Where each symbol leads from each state; zero, the start, stands for nowhere. -/
def transitions : Packed 8 :=
  drafts.zipIdx.foldl
    (fun t (d, q) => d.edges.foldl (fun t (s, r) => t.add ((symbolCount.mul q).add s.code) r) t)
    .zeros

/-- The state that a symbol leads to. -/
def target? (q : Nat) (s : Symbol) : Option Nat :=
  let r := transitions.get ((symbolCount.mul q).add s.code)
  bif r.beq 0 then none else some r

/-- The state that some symbols lead to. -/
def walk? (q : Nat) : List Symbol → Option Nat
  | [] => some q
  | s :: rest =>
    match target? q s with
    | some r => walk? r rest
    | none => none

/-! ## What may follow -/

/-- The width of a set of kinds. -/
def kindCount : Nat := Kind.all.length

/-- The kinds that each state shifts. -/
def shifts : Packed kindCount :=
  drafts.zipIdx.foldl
    (fun t (d, q) =>
      d.edges.foldl
        (fun t (s, _) => match s with
          | .terminal k => t.add q (KindSet.single k).bits
          | .nonterminal _ => t)
        t)
    .zeros

/-- The transitions on nonterminals, the one on the goal symbol included. -/
def passages : List (Nat × Nonterminal × Nat) :=
  (0, .goal, 0) :: drafts.zipIdx.flatMap fun (d, q) =>
    d.edges.filterMap fun (s, r) => match s with
      | .terminal _ => none
      | .nonterminal n => some (q, n, r)

/-- The number of a transition on a nonterminal. -/
def passageCode (q : Nat) (n : Nonterminal) : Nat := (nonterminals.length.mul q).add n.ctorIdx

/-- The productions of each nonterminal. -/
def alternatives : List (List (Production × Nat)) :=
  nonterminals.map fun n => numbered.filter fun (p, _) => p.lhs.ctorIdx.beq n.ctorIdx

/-- The productions of a nonterminal. -/
def alternativesOf (n : Nonterminal) : List (Production × Nat) :=
  alternatives[n.ctorIdx]?.getD []

/-- The transitions at the end of productions, each with that of the production. -/
def endings : List (Nat × Nat) :=
  passages.flatMap fun (q, n, _) => (alternativesOf n).filterMap fun (p, _) =>
    match p.rhs.getLast? with
    | some (.nonterminal m) =>
      match walk? q p.rhs.dropLast with
      | some r => some (passageCode r m, passageCode q n)
      | none => none
    | _ => none

/-- What may follow each transition on a nonterminal. -/
def follows : Packed kindCount :=
  let direct := passages.foldl
    (fun (t : Packed kindCount) (q, n, r) => match n with
      | .goal => t.add (passageCode q n) (KindSet.single .eof).bits
      | _ => t.add (passageCode q n) (shifts.get r))
    .zeros
  ⟨untilStable
    (fun digits => (endings.foldl (fun t (i, j) => t.add i (t.get j)) (⟨digits⟩ : Packed kindCount)).digits)
    100 direct.digits⟩

/-- What may follow each production where it is finished. -/
def lookaheads : Packed kindCount :=
  passages.foldl
    (fun t (q, n, _) => (alternativesOf n).foldl
      (fun t (p, i) => match walk? q p.rhs with
        | some r => t.add ((productions.size.mul r).add i) (follows.get (passageCode q n))
        | none => t)
      t)
    .zeros

/-! ## Actions -/

/-- What a state does with a token. -/
inductive Action where
  | shift (state : Nat)
  | reduce (production : Nat)
  deriving DecidableEq, Repr, Inhabited

/-- The kinds under which productions are reduced, none of them taken before. -/
def reductionsFrom (q taken : Nat) : List Nat → List (Nat × KindSet)
  | [] => []
  | p :: rest =>
    let follow := lookaheads.get ((productions.size.mul q).add p)
    (p, ⟨follow.xor (follow.land taken)⟩) :: reductionsFrom q (taken.lor follow) rest

/-- The productions that each state reduces under each kind, counted from one. A kind
that the state shifts is none of them. -/
def reductions : Packed 8 :=
  drafts.zipIdx.foldl
    (fun t (d, q) => (reductionsFrom q (shifts.get q) d.finished).foldl
      (fun t (p, kinds) => kinds.toList.foldl
        (fun t k => t.add ((kindCount.mul q).add k.ctorIdx) p.succ) t)
      t)
    .zeros

/-- The kinds that each state does something with. -/
def acceptances : Packed kindCount :=
  drafts.zipIdx.foldl
    (fun t (d, q) => (reductionsFrom q (shifts.get q) d.finished).foldl
      (fun t (_, kinds) => t.add q kinds.bits) t)
    shifts

/-- An automaton as its runs see it. Its states are numbers, and it starts in zero. -/
structure Automaton where
  /-- What a state does with a kind of token. -/
  action? : Nat → Kind → Option Action
  /-- Where a state goes on after a reduction to a nonterminal. -/
  goto? : Nat → Nonterminal → Option Nat
  /-- The kinds a state does something with. -/
  accepted : Nat → List Kind

/-- The automaton of the grammar. -/
def lalr : Automaton where
  action? q k := match target? q (.terminal k) with
    | some r => some (.shift r)
    | none => match reductions.get ((kindCount.mul q).add k.ctorIdx) with
      | 0 => none
      | p + 1 => some (.reduce p)
  goto? q n := target? q (.nonterminal n)
  accepted q := (⟨acceptances.get q⟩ : KindSet).toList

end NovaLang.Grammar
