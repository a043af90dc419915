import NovaLang.Proofs.Grammar.Derivation

namespace NovaLang.Grammar

/-! # The automaton, checked

What the proofs about the automaton need to know of its tables is checked state by
state, by evaluation. The check asks for little: that the items of a state come from the
states in front of it, that a finished production is reduced under all kinds that are
accepted behind it, and what the cutting of lexemes relies on. Everything but the
evaluation itself is said of any automaton with items at its states.
-/

/-! ## The check -/

/-- The symbols are the same. -/
def Symbol.same (s t : Symbol) : Bool := s.code.beq t.code

/-- The symbols of two lists are the same. -/
def sameSymbols : List Symbol → List Symbol → Bool
  | [], [] => true
  | s :: ss, t :: ts => s.same t && sameSymbols ss ts
  | _, _ => false

/-- One of some items is the production with these symbols after the dot. -/
def hasItem (items : List Item) (p : Nat) (after : List Symbol) : Bool :=
  items.any fun i => i.production.beq p && sameSymbols i.after after

/-- Every symbol. -/
def symbols : List Symbol := Kind.all.map .terminal ++ nonterminals.map .nonterminal

/-- The kinds are the same. -/
def sameKind (k l : Kind) : Bool := k.ctorIdx.beq l.ctorIdx

/-- The kinds of the marks that an equals sign may extend. -/
def extensible (k : Kind) : Bool :=
  sameKind k .equal || sameKind k .bang || sameKind k .less || sameKind k .greater

/-- The kinds that begin with an equals sign. -/
def equals (k : Kind) : Bool := sameKind k .equal || sameKind k .equalEqual

/-- The item has come over the symbol from the items of a state, or from the beginning of a
production other than that of the goal. -/
def retreats (core : List Item) (s : Symbol) (i : Item) : Bool :=
  hasItem core i.production (s :: i.after) ||
    (!i.production.beq 0 && sameSymbols (productionAt i.production).rhs (s :: i.after))

namespace Automaton

/-- The state that a symbol leads to. -/
def target? (a : Automaton) (q : Nat) : Symbol → Option Nat
  | .terminal k => match a.action? q k with
    | some (.shift r) => some r
    | _ => none
  | .nonterminal n => a.goto? q n

/-- The state that some symbols lead to. -/
def walk? (a : Automaton) (q : Nat) : List Symbol → Option Nat
  | [] => some q
  | s :: rest => match a.target? q s with
    | some r => a.walk? r rest
    | none => none

/-- What a state reduces under a kind is the production. -/
def reducesBy (a : Automaton) (q : Nat) (k : Kind) (p : Nat) : Bool :=
  match a.action? q k with
  | some (.reduce i) => i.beq p
  | _ => false

section

variable (a : Automaton) (cores : List (List Item)) (q : Nat) (core : List Item)

/-- All items of the states after a state have come from it, and after a mark that an
equals sign may extend none is accepted. -/
def movesChecked : Bool :=
  symbols.all fun s => match a.target? q s with
    | none => true
    | some r => (match cores[r]? with
      | some (i :: is) => (i :: is).all (retreats core s)
      | _ => false) &&
      (match s with
      | .terminal k => !extensible k || (a.accepted r).all fun l => !equals l
      | .nonterminal _ => true)

/-- What a state does is accepted there; a production that it reduces is finished; and an
`if` without an `else` is not reduced in front of an `else`. -/
def actionsChecked : Bool :=
  Kind.all.all fun k => match a.action? q k with
    | none => true
    | some action => (a.accepted q).any (sameKind k) && match action with
      | .shift _ => true
      | .reduce p => p.blt productions.size &&
        (hasItem core p [] || (productionAt p).rhs.isEmpty) &&
        !(sameKind k .kwElse && (productionAt p).isShortIf)

/-- Every production of a nonterminal that a state awaits leads to a state that reduces it
under the kinds accepted behind the nonterminal. An `else` is shifted instead. -/
def passagesChecked : Bool :=
  nonterminals.all fun n => match a.goto? q n with
    | none => true
    | some r => (alternativesOf n).all fun (p, i) => match a.walk? q p.rhs with
      | none => false
      | some s => (a.accepted r).all fun k =>
        (sameKind k .kwElse && p.isShortIf) || a.reducesBy s k i

/-- The kinds a state accepts occur in productions, or end the input. -/
def kindsChecked : Bool :=
  (a.accepted q).all fun k => sameKind k .eof || terminals.any (sameKind k)

/-- The check of a state. -/
def stateChecked : Bool :=
  a.movesChecked cores q core && a.actionsChecked q core && a.passagesChecked q && a.kindsChecked q

/-- The automaton starts in front of the goal, and the program is the whole of the input
where the end of the input follows. -/
def goalChecked : Bool :=
  (match cores with
  | [⟨p, after⟩] :: _ => p.beq 0 && sameSymbols after (productionAt 0).rhs
  | _ => false) &&
  match a.target? 0 (.nonterminal .program) with
  | some r => a.reducesBy r .eof 0
  | none => false

/-- The check of an automaton whose states have these items. -/
def checked : Bool :=
  a.goalChecked cores && cores.zipIdx.all fun (core, q) => a.stateChecked cores q core

end

end Automaton

theorem lalr_checked : lalr.checked (drafts.map Draft.core) = true := by
  decide +kernel

end NovaLang.Grammar
