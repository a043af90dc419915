import NovaLang.Proofs.Eval.Nesting

namespace NovaLang

/-! # The nodes that a run visits

A run that is watched leaves a record of every node that is evaluated or executed, with its
place in the program and the machine that it is run on. The record apart, a watched run is
the run itself. While a program runs from the global scope, each node is run at a depth that
is the number of blocks around it in the program.
-/

namespace Node

/-! ## Places in a tree -/

/-- The nodes directly below a node, from left to right. -/
def children : Node → List Node
  | .absent | .literal _ | .reference _ => []
  | .list ns | .block ns => ns
  | .grouping e | .unary _ e | .assign _ e | .expression e | .print e | .var _ e => [e]
  | .binary a _ b | .logical a _ b | .loop a b => [a, b]
  | .call f _ as => f :: as
  | .branch c t e => [c, t, e]

/-- The node that a path leads to; a path counts children. -/
def at? : Node → List Nat → Option Node
  | n, [] => some n
  | n, i :: path => n.children[i]?.bind fun child => child.at? path

/-- The node is a block. -/
def isBlock : Node → Bool
  | .block _ => true
  | _ => false

/-- The number of blocks around the node that a path leads to. -/
def blocksAround : Node → List Nat → Nat
  | _, [] => 0
  | n, i :: path =>
    (if n.isBlock then 1 else 0) + n.children[i]?.elim 0 fun child => child.blocksAround path

/-- A path leads on from where its first part leads to. -/
theorem at_append (n : Node) (path rest : List Nat) :
    n.at? (path ++ rest) = (n.at? path).bind fun x => x.at? rest := by
  induction path generalizing n with
  | nil => rfl
  | cons i path ih =>
      rw [List.cons_append, at?, at?, Option.bind_assoc]
      exact congrArg _ (funext ih)

/-- The blocks around a node are those of both parts of its path. -/
theorem blocksAround_append {n x : Node} {path : List Nat} (h : n.at? path = some x)
    (rest : List Nat) :
    n.blocksAround (path ++ rest) = n.blocksAround path + x.blocksAround rest := by
  induction path generalizing n with
  | nil =>
      cases h
      exact (Nat.zero_add _).symm
  | cons i path ih =>
      rw [at?] at h
      -- the path leads through a child, in which the rest of it goes on
      rcases Option.bind_eq_some_iff.mp h with ⟨child, hchild, hx⟩
      rw [List.cons_append, blocksAround, blocksAround, hchild]
      change _ + child.blocksAround (path ++ rest) = _ + child.blocksAround path + _
      rw [ih hx, Nat.add_assoc]

/-- In the tree `root` the path leads to a node, with so many blocks around it. -/
structure Stands (root : Node) (path : List Nat) (n : Node) (d : Nat) : Prop where
  place : root.at? path = some n
  blocks : root.blocksAround path = d

variable {root n x : Node} {path : List Nat} {d i : Nat}

/-- One step further down there is one more block if the node is one. -/
theorem Stands.child (h : root.Stands path n d) (hx : n.children[i]? = some x) :
    root.Stands (path ++ [i]) x (d + if n.isBlock then 1 else 0) where
  place := by
    rw [at_append, h.place, Option.bind_some, at?, hx]
    rfl
  blocks := by
    rw [blocksAround_append h.place, h.blocks, blocksAround, hx]
    rfl

/-- The children of a node that is no block have the same blocks around them. -/
theorem Stands.below (h : root.Stands path n d) (hblock : n.isBlock = false)
    (hx : n.children[i]? = some x) : root.Stands (path ++ [i]) x d := by
  have hstands := h.child hx
  rwa [hblock, if_neg Bool.false_ne_true, Nat.add_zero] at hstands

/-- The statements of a block have it around them. -/
theorem Stands.inBlock {ss : List Node} {s : Node} (h : root.Stands path (.block ss) d)
    (hs : ss[i]? = some s) : root.Stands (path ++ [i]) s (d + 1) := h.child hs

end Node

namespace Eval

/-! ## Watched runs -/

/-- A node is run at a place of the program, on a machine. -/
structure Visit where
  path : List Nat
  node : Node
  machine : Machine

/-- A step of a run that is watched: it changes the machine, and adds to the record. -/
abbrev Watched := ExceptT Interrupt (StateM (Machine × List Visit))

/-- A step in which no node is run adds nothing to the record. -/
def unseen {α : Type} (x : Exec α) : Watched α := fun (m, seen) =>
  let (outcome, m) := x.run m
  (outcome, (m, seen))

instance : MonadLift Exec Watched := ⟨unseen⟩

/-- Records that a node is run on the machine as it is. -/
def visit (path : List Nat) (node : Node) : Watched Unit := fun (m, seen) =>
  (.ok (), (m, seen ++ [⟨path, node, m⟩]))

mutual

/-- Evaluates the expression at a place of the program. -/
def watchEvaluate (path : List Nat) (n : Node) : Watched Value := do
  visit path n
  match n with
  | .literal v => return v
  | .grouping e => watchEvaluate (path ++ [0]) e
  | .reference name => lookup name
  | .assign name e => do
    let value ← watchEvaluate (path ++ [0]) e
    assign name value
    note (.assigned name.text value)
    return value
  | .unary operator e => do
    let value ← watchEvaluate (path ++ [0]) e
    liftOutcome (unary operator value)
  | .logical a operator b => do
    let left ← watchEvaluate (path ++ [0]) a
    if left.isTruthy == (operator.kind == .kwOr) then return left
    watchEvaluate (path ++ [1]) b
  | .binary a operator b => do
    let left ← watchEvaluate (path ++ [0]) a
    let right ← watchEvaluate (path ++ [1]) b
    liftOutcome (binary operator left right)
  | .call f paren as => do
    let callee ← watchEvaluate (path ++ [0]) f
    let arguments ← watchEvaluateAll path 1 as
    call callee arguments paren
  | n => throw (.fault (.unexpectedNode .evaluate n.form))

/-- Evaluates some expressions; the first is the child `i` of the node at the place. -/
def watchEvaluateAll (path : List Nat) (i : Nat) : List Node → Watched (List Value)
  | [] => return []
  | e :: es => do
    let value ← watchEvaluate (path ++ [i]) e
    let values ← watchEvaluateAll path (i + 1) es
    return value :: values

end

/-- Runs a step in a new scope within the current one. -/
def watchInScope (body : Watched Unit) : Watched Unit := fun (m, seen) =>
  let outer := m.current
  let (outcome, (m, seen)) := body (m.enter, seen)
  (outcome, (m.leave outer, seen))

/-- Repeats a body while a condition holds, at most `rounds` times. -/
def watchRepeat (condition : Watched Value) (body : Watched Unit) : (rounds : Nat) → Watched Unit
  | 0 => throw .endless
  | rounds + 1 => do
    let value ← condition
    note (.tested value)
    if value.isTruthy then
      body
      watchRepeat condition body rounds

mutual

/-- Executes the statement at a place of the program. -/
def watchExecute (rounds : Nat) (path : List Nat) (n : Node) : Watched Unit := do
  visit path n
  match n with
  | .expression e => do discard (watchEvaluate (path ++ [0]) e)
  | .print e => do
    let value ← watchEvaluate (path ++ [0]) e
    emit (value.display ++ "\n")
  | .var name .absent => do
    declare name .nil
    note (.defined name.text .nil)
  | .var name e => do
    let value ← watchEvaluate (path ++ [0]) e
    declare name value
    note (.defined name.text value)
  | .block statements => watchInScope (watchExecuteAll rounds path 0 statements)
  | .branch c t e => do
    let value ← watchEvaluate (path ++ [0]) c
    note (.decided value)
    if value.isTruthy then watchExecute rounds (path ++ [1]) t
    else match e with
      | .absent => return
      | e => watchExecute rounds (path ++ [2]) e
  | .loop c body =>
    watchRepeat (watchEvaluate (path ++ [0]) c) (watchExecute rounds (path ++ [1]) body) rounds
  | n => throw (.fault (.unexpectedNode .execute n.form))

/-- Executes some statements; the first is the child `i` of the node at the place. -/
def watchExecuteAll (rounds : Nat) (path : List Nat) (i : Nat) : List Node → Watched Unit
  | [] => return
  | s :: ss => do
    watchExecute rounds (path ++ [i]) s
    watchExecuteAll rounds path (i + 1) ss

end

/-- Runs the statements of a program, the first of which is the statement `i`. -/
def watchProgram (rounds : Nat) (i : Nat) : List Node → Watched Unit
  | [] => return
  | s :: ss => do
    note (.statement s.form)
    watchExecute rounds [i] s
    watchProgram rounds (i + 1) ss

/-! ## A watched run is a run -/

/-- The machine is proper and at a depth. -/
structure Lies (d : Nat) (m : Machine) : Prop where
  proper : m.Proper
  depth : m.depth = d

/-- A step that keeps its frame leaves the machine at its depth. -/
theorem Lies.frame {d : Nat} {A D : List Token} {m m' : Machine} (hm : Lies d m)
    (h : Frame A D m m') : Lies d m' :=
  ⟨h.proper hm.proper, (h.depth_eq hm.proper).trans hm.depth⟩

/-- A new scope is one further in. -/
theorem Lies.enter {d : Nat} {m : Machine} (hm : Lies d m) : Lies (d + 1) m.enter :=
  ⟨Machine.enter_proper hm.proper, by rw [Machine.depth_enter hm.proper, hm.depth]⟩

/-- Watched, the step does what it does unwatched, and adds to the record. If the machine
lies at a depth, it still does so afterwards, and what has been added has a property. -/
def Watches {α : Type} (d : Nat) (P : Visit → Prop) (x : Watched α) (y : Exec α) : Prop :=
  ∀ m seen, ∃ new, x.run (m, seen) = ((y.run m).1, ((y.run m).2, seen ++ new)) ∧
    (Lies d m → Lies d (y.run m).2 ∧ ∀ v ∈ new, P v)

/-- An interrupt ends a watched sequence, with the record as it is then. -/
theorem run_bind_watched {α β : Type} (x : Watched α) (f : α → Watched β)
    (s : Machine × List Visit) :
    (x >>= f).run s = match x.run s with
      | (.ok a, s') => (f a).run s'
      | (.error i, s') => (.error i, s') := by
  change (ExceptT.bindCont f (x.run s).1).run (x.run s).2 = _
  rcases x.run s with ⟨outcome, s'⟩
  cases outcome <;> rfl

namespace Watches

variable {α β : Type} {d : Nat} {P : Visit → Prop}

/-- A step in which no node is run keeps its frame, and so the machine stays at its depth. -/
theorem unseen {A D : List Token} {x : Exec α} (h : Keeps (Frame A D) x) :
    Watches d P (Eval.unseen x) x := fun m seen =>
  ⟨[], by rw [List.append_nil]; rfl, fun hm => ⟨hm.frame (h m), nofun⟩⟩

theorem pure (a : α) : Watches d P (Pure.pure a) (Pure.pure a) := fun _ seen =>
  ⟨[], by rw [List.append_nil]; rfl, fun hm => ⟨hm, nofun⟩⟩

theorem throw (i : Interrupt) : Watches d P (MonadExcept.throw i : Watched α)
    (MonadExcept.throw i) := fun _ seen =>
  ⟨[], by rw [List.append_nil]; rfl, fun hm => ⟨hm, nofun⟩⟩

/-- What the second step records comes after what the first one does. -/
theorem bind {x : Watched α} {y : Exec α} {f : α → Watched β} {g : α → Exec β}
    (hx : Watches d P x y) (hf : ∀ a, Watches d P (f a) (g a)) :
    Watches d P (x >>= f) (y >>= g) := by
  intro m seen
  rcases hx m seen with ⟨new, hrun, hplaced⟩
  rw [run_bind_watched, run_bind, hrun]
  revert hplaced
  rcases y.run m with ⟨i | a, m'⟩
  · exact fun hplaced => ⟨new, rfl, hplaced⟩
  · intro hplaced
    -- the second step adds to what the first one has left
    rcases hf a m' (seen ++ new) with ⟨more, hrun', hplaced'⟩
    refine ⟨new ++ more, by rw [← List.append_assoc]; exact hrun', fun hm => ?_⟩
    rcases hplaced hm with ⟨hm', hnew⟩
    rcases hplaced' hm' with ⟨hm'', hmore⟩
    exact ⟨hm'', List.forall_mem_append.mpr ⟨hnew, hmore⟩⟩

theorem discard {x : Watched α} {y : Exec α} (h : Watches d P x y) :
    Watches d P (discard x) (discard y) := by
  rw [Functor.discard, Functor.discard, map_const, map_const, Function.comp_apply,
    Function.comp_apply, ← bind_pure_comp, ← bind_pure_comp]
  exact h.bind fun _ => pure ()

/-- A node is recorded on the machine that it is run on. -/
theorem visit {path : List Nat} {n : Node} {x : Watched α} {y : Exec α}
    (hvisit : ∀ m, Lies d m → P ⟨path, n, m⟩) (h : Watches d P x y) :
    Watches d P (do Eval.visit path n; x) y := by
  intro m seen
  rcases h m (seen ++ [⟨path, n, m⟩]) with ⟨new, hrun, hplaced⟩
  -- the node comes first in the record, and what it runs after it
  refine ⟨⟨path, n, m⟩ :: new, ?_, fun hm => ?_⟩
  · rw [run_bind_watched]
    rw [List.append_assoc] at hrun
    exact hrun
  · rcases hplaced hm with ⟨hm', hnew⟩
    exact ⟨hm', List.forall_mem_cons.mpr ⟨hvisit m hm, hnew⟩⟩

/-- What a block runs it runs one scope further in, and then the scope is left. -/
theorem inScope {A D : List Token} {x : Watched Unit} {y : Exec Unit}
    (hframe : Keeps (Frame A D) y) (h : Watches (d + 1) P x y) :
    Watches d P (watchInScope x) (Eval.inScope y) := by
  intro m seen
  rcases h m.enter seen with ⟨new, hrun, hplaced⟩
  -- inside the machine lies one deeper, and leaving the scope restores it
  refine ⟨new, ?_, fun hm => ⟨hm.frame (hframe m.enter).scope, (hplaced hm.enter).2⟩⟩
  rw [run_inScope]
  change ((x.run (m.enter, seen)).1, (x.run (m.enter, seen)).2.1.leave m.current,
    (x.run (m.enter, seen)).2.2) = _
  rw [hrun]

theorem note {e : Event} (he : e.isScope = false) :
    Watches d P (Eval.unseen (Eval.note e)) (Eval.note e) :=
  unseen (frame_invariant.keeps_note (A := []) (D := []) he)

/-- A loop records each round, however many there are. -/
theorem repeatWhile {condition : Watched Value} {condition' : Exec Value} {body : Watched Unit}
    {body' : Exec Unit} (hcondition : Watches d P condition condition')
    (hbody : Watches d P body body') (rounds : Nat) :
    Watches d P (watchRepeat condition body rounds) (Eval.repeatWhile condition' body' rounds) := by
  induction rounds with
  | zero => exact throw _
  | succ rounds ih =>
      unfold watchRepeat Eval.repeatWhile
      apply hcondition.bind
      intro value
      apply (note rfl).bind
      intro _
      split
      · exact hbody.bind fun _ => ih
      · exact pure _

end Watches

/-- The node that is run stands where the path leads to, and the machine is as many scopes
further in as there are blocks around it. -/
def Visit.Placed (root : Node) (v : Visit) : Prop := root.Stands v.path v.node v.machine.depth

section

variable {root : Node} {d : Nat} {path : List Nat}

/-- A node that is recorded stands in the program where its path says. -/
theorem Visit.placed_of_lies {n : Node} (h : root.Stands path n d) (m : Machine) (hm : Lies d m) :
    Visit.Placed root ⟨path, n, m⟩ := ⟨h.place, h.blocks.trans hm.depth.symm⟩

mutual

/-- Watched, an expression is evaluated as it is unwatched, and all that is evaluated in it
is at the depth of its blocks. -/
theorem watches_evaluate : ∀ (n : Node) {path : List Nat}, root.Stands path n d →
    Watches d (Visit.Placed root) (watchEvaluate path n) (evaluate n)
  | .literal v, _, h => by
      unfold watchEvaluate
      exact .visit (Visit.placed_of_lies h) (.pure v)
  | .grouping e, _, h => by
      unfold watchEvaluate
      exact .visit (Visit.placed_of_lies h) (watches_evaluate e (h.below rfl rfl))
  | .reference t, _, h => by
      unfold watchEvaluate
      exact .visit (Visit.placed_of_lies h)
        (.unseen (frame_invariant.keeps_lookup (A := []) (D := []) t))
  | .assign t e, _, h => by
      unfold watchEvaluate evaluate
      refine .visit (Visit.placed_of_lies h) ?_
      apply (watches_evaluate e (h.below rfl rfl)).bind
      intro value
      have hassign := frame_invariant.keeps_assign (D := []) (List.mem_singleton_self t) value
      apply (Watches.unseen hassign).bind
      intro _
      exact (Watches.note rfl).bind fun _ => .pure value
  | .unary o e, _, h => by
      unfold watchEvaluate evaluate
      refine .visit (Visit.placed_of_lies h) ?_
      exact (watches_evaluate e (h.below rfl rfl)).bind fun _ =>
        .unseen (frame_invariant.keeps_lift (A := []) (D := []) _)
  | .logical a o b, _, h => by
      unfold watchEvaluate evaluate
      refine .visit (Visit.placed_of_lies h) ?_
      apply (watches_evaluate a (h.below rfl rfl)).bind
      intro left
      split
      · exact .pure left
      · -- the right operand is visited only if the left one does not decide
        exact watches_evaluate b (h.below rfl rfl)
  | .binary a o b, _, h => by
      unfold watchEvaluate evaluate
      refine .visit (Visit.placed_of_lies h) ?_
      apply (watches_evaluate a (h.below rfl rfl)).bind
      intro left
      exact (watches_evaluate b (h.below rfl rfl)).bind fun _ =>
        .unseen (frame_invariant.keeps_lift (A := []) (D := []) _)
  | .call f paren as, path, h => by
      unfold watchEvaluate evaluate
      refine .visit (Visit.placed_of_lies h) ?_
      apply (watches_evaluate f (h.below rfl rfl)).bind
      intro callee
      -- the callee is the first child, and the arguments come after it
      have harguments : ∀ j x, as[j]? = some x → root.Stands (path ++ [1 + j]) x d := by
        intro j x hx
        rw [Nat.add_comm]
        exact h.below rfl hx
      apply (watches_evaluateAll as harguments).bind
      intro arguments
      exact .unseen (frame_invariant.keeps_call (A := []) (D := []) callee arguments paren)
  | .absent, _, h | .list _, _, h | .expression _, _, h | .print _, _, h | .var _ _, _, h
  | .block _, _, h | .branch _ _ _, _, h | .loop _ _, _, h => by
      unfold watchEvaluate
      exact .visit (Visit.placed_of_lies h) (.throw _)

/-- Arguments are evaluated in a row, each at its own place. -/
theorem watches_evaluateAll : ∀ (ns : List Node) {path : List Nat} {i : Nat},
    (∀ j x, ns[j]? = some x → root.Stands (path ++ [i + j]) x d) →
    Watches d (Visit.Placed root) (watchEvaluateAll path i ns) (evaluateAll ns)
  | [], _, _, _ => .pure []
  | n :: ns, _, i, h => by
      unfold watchEvaluateAll evaluateAll
      apply (watches_evaluate n (h 0 n rfl)).bind
      intro value
      refine (watches_evaluateAll ns fun j x hx => ?_).bind fun _ => .pure _
      rw [Nat.add_assoc, Nat.add_comm 1 j]
      exact h (j + 1) x hx

end

/-- A declaration runs no further node. -/
theorem watches_var (t : Token) (v : Value) :
    Watches d (Visit.Placed root)
      (do Eval.unseen (declare t v); Eval.unseen (note (.defined t.text v)))
      (do declare t v; note (.defined t.text v)) :=
  (Watches.unseen (frame_invariant.keeps_declare (A := []) (List.mem_singleton_self t) v)).bind
    fun _ => .note rfl

mutual

/-- Watched, a statement is executed as it is unwatched, and all that is run in it is at the
depth of its blocks. -/
theorem watches_execute (rounds : Nat) : ∀ (n : Node) {path : List Nat} {d : Nat},
    root.Stands path n d →
    Watches d (Visit.Placed root) (watchExecute rounds path n) (execute rounds n)
  | .expression e, _, _, h => by
      unfold watchExecute execute
      exact .visit (Visit.placed_of_lies h) (watches_evaluate e (h.below rfl rfl)).discard
  | .print e, _, _, h => by
      unfold watchExecute execute
      refine .visit (Visit.placed_of_lies h) ?_
      exact (watches_evaluate e (h.below rfl rfl)).bind fun _ =>
        .unseen (frame_invariant.keeps_emit (A := []) (D := []) _)
  | .var t e, _, _, h => by
      unfold watchExecute
      refine .visit (Visit.placed_of_lies h) ?_
      cases e with
      | absent => exact watches_var t .nil
      | _ => exact (watches_evaluate _ (h.below rfl rfl)).bind fun value => watches_var t value
  | .block ss, path, _, h => by
      unfold watchExecute execute
      refine .visit (Visit.placed_of_lies h) ?_
      -- the scope of the block takes along what was declared in it
      have hframe := frame_invariant.executeAll rounds ss _ (List.Subset.refl _)
        (List.Subset.refl _)
      refine .inScope hframe (watches_executeAll rounds ss fun j x hx => ?_)
      rw [Nat.zero_add]
      exact h.inBlock hx
  | .branch c t e, _, _, h => by
      unfold watchExecute execute
      refine .visit (Visit.placed_of_lies h) ?_
      apply (watches_evaluate c (h.below rfl rfl)).bind
      intro value
      apply (Watches.note rfl).bind
      intro _
      split
      · exact watches_execute rounds t (h.below rfl rfl)
      · have helse := watches_execute rounds e (h.below (i := 2) rfl rfl)
        cases e with
        | absent => exact .pure ()
        | _ => exact helse
  | .loop c b, _, _, h => by
      unfold watchExecute execute
      refine .visit (Visit.placed_of_lies h) ?_
      exact .repeatWhile (watches_evaluate c (h.below rfl rfl))
        (watches_execute rounds b (h.below rfl rfl)) rounds
  | .absent, _, _, h | .list _, _, _, h | .literal _, _, _, h | .grouping _, _, _, h
  | .unary _ _, _, _, h | .binary _ _ _, _, _, h | .logical _ _ _, _, _, h
  | .reference _, _, _, h | .assign _ _, _, _, h | .call _ _ _, _, _, h => by
      unfold watchExecute
      exact .visit (Visit.placed_of_lies h) (.throw _)

/-- Statements are executed in a row, each at its own place. -/
theorem watches_executeAll (rounds : Nat) : ∀ (ns : List Node) {path : List Nat} {i d : Nat},
    (∀ j x, ns[j]? = some x → root.Stands (path ++ [i + j]) x d) →
    Watches d (Visit.Placed root) (watchExecuteAll rounds path i ns) (executeAll rounds ns)
  | [], _, _, _, _ => .pure ()
  | n :: ns, _, i, _, h => by
      unfold watchExecuteAll executeAll
      apply (watches_execute rounds n (h 0 n rfl)).bind
      intro _
      refine watches_executeAll rounds ns fun j x hx => ?_
      rw [Nat.add_assoc, Nat.add_comm 1 j]
      exact h (j + 1) x hx

end

/-- Watched, a program runs as it does unwatched. -/
theorem watches_program (rounds : Nat) (ns : List Node) {i : Nat}
    (h : ∀ j x, ns[j]? = some x → root.Stands [i + j] x d) :
    Watches d (Visit.Placed root) (watchProgram rounds i ns) (runProgram rounds ns) := by
  induction ns generalizing i with
  | nil => exact .pure ()
  | cons n ns ih =>
      unfold watchProgram runProgram
      apply (Watches.note rfl).bind
      intro _
      apply (watches_execute rounds n (h 0 n rfl)).bind
      intro _
      refine ih fun j x hx => ?_
      rw [Nat.add_assoc, Nat.add_comm 1 j]
      exact h (j + 1) x hx

end

/-! ## Scopes of a run -/

/-- The machine is in the scope that it was in, which lies where it lay. -/
structure Restored (m m' : Machine) : Prop where
  current : m'.current = m.current
  size : m'.scopes.size = m.scopes.size
  parent : ∀ e, m'.scopes.parent? e = m.scopes.parent? e

/-- What keeps its frame leaves the current scope where it was. -/
theorem restored_of_frame {A D : List Token} {m m' : Machine} (h : Frame A D m m') :
    Restored m m' :=
  ⟨h.current, h.size, h.parent⟩

/-- What an open log gains at the second level and above is properly nested. -/
theorem nested_log {m m' : Machine} {es : List Effect}
    (hnested : Nested 0 (es.filterMap Effect.event?))
    (heffects : { m' with scopes := m.scopes } = m.perform es) (hopen : m.logOpen = true)
    (hlevel : 2 ≤ m.logLevel) :
    ∃ events, m'.log.toList = m.log.toList ++ events ∧ Nested 0 events := by
  have hlog : m'.log = (m.perform es).log := by rw [← heffects]
  refine ⟨_, by rw [hlog, Machine.log_perform hopen], hnested.filter fun e he => ?_⟩
  -- of the events only those of scopes count for nesting, and at this level they are logged
  cases e with
  | entered | left => exact decide_eq_true hlevel
  | statement | stopped | defined | assigned | decided | tested | called => cases he

/-- The current scope is the same before and after a node is run, however that ends. In a
run that begins in the global scope, the depth of the current scope is the number of
blocks around the node that is being run, and what is told of scopes is properly nested,
also if the run ends in an error. -/
theorem scopes_mirror_blocks (rounds : Nat) :
    (∀ n m, Restored m ((evaluate n).run m).2 ∧ Restored m ((execute rounds n).run m).2) ∧
    ∀ program (m : Machine), m.Proper → m.current = 0 →
      (∃ visits, (watchProgram rounds 0 program).run (m, []) =
          (((runProgram rounds program).run m).1,
            (((runProgram rounds program).run m).2, visits)) ∧
        ∀ v ∈ visits, (Node.list program).at? v.path = some v.node ∧
          v.machine.depth = (Node.list program).blocksAround v.path) ∧
      (∃ es, Nested 0 (es.filterMap Effect.event?) ∧
        { ((runProgram rounds program).run m).2 with scopes := m.scopes } = m.perform es) ∧
      (m.logOpen = true → 2 ≤ m.logLevel → ∃ events,
        ((runProgram rounds program).run m).2.log.toList = m.log.toList ++ events ∧
          Nested 0 events) := by
  refine ⟨fun n m => ⟨?_, ?_⟩, fun program m hm hglobal => ?_⟩
  · exact restored_of_frame (frame_of_evaluate (o := ((evaluate n).run m).1) rfl)
  · exact restored_of_frame (frame_of_execute (o := ((execute rounds n).run m).1) rfl)
  · have hdepth : m.depth = 0 := by rw [Machine.depth, hglobal, Scopes.depth_zero]
    -- the program is the root, whose children are its statements, outside of all blocks
    have hstands : ∀ j x, program[j]? = some x → (Node.list program).Stands [0 + j] x 0 := by
      intro j x hx
      have hroot : (Node.list program).Stands [] (.list program) 0 := ⟨rfl, rfl⟩
      rw [Nat.zero_add]
      exact hroot.below rfl hx
    rcases watches_program rounds program hstands m [] with ⟨visits, hrun, hplaced⟩
    -- what is logged is told by the same run, whether it is watched or not
    have htells := tells_invariant.runProgram rounds program _ (List.Subset.refl _)
      (List.Subset.refl _) m
    rcases htells.effects hm with ⟨es, hnested, heffects⟩
    rw [hdepth] at hnested
    refine ⟨⟨visits, hrun, fun v hv => ?_⟩, ⟨es, hnested, heffects⟩,
      nested_log hnested heffects⟩
    have hv' := (hplaced ⟨hm, hdepth⟩).2 v hv
    exact ⟨hv'.place, hv'.blocks.symm⟩

/-- Two blocks, and an undefined name in the inner one. -/
def undefinedInBlocks : List Node :=
  [.block [.block [.print (.reference (.scanned .identifier "nope" .nil 1))]]]

theorem scopes_mirror_blocks_undefined :
    (Machine.new Native.standard 2 0).Proper ∧ (Machine.new Native.standard 2 0).current = 0 ∧
      ((runProgram 9 undefinedInBlocks).run (Machine.new Native.standard 2 0)).2.log.toList =
        [.statement .block, .entered 1, .entered 2, .left 2, .left 1] ∧
      ((watchProgram 9 0 undefinedInBlocks).run (Machine.new Native.standard 2 0, [])).2.2.map
        (fun v => (v.path, v.machine.depth)) =
          [([0], 0), ([0, 0], 1), ([0, 0, 0], 2), ([0, 0, 0, 0], 2)] ∧
      ∃ events,
        ((runProgram 9 undefinedInBlocks).run (Machine.new Native.standard 2 0)).2.log.toList =
          (Machine.new Native.standard 2 0).log.toList ++ events ∧ Nested 0 events := by
  have hproper := Machine.new_proper Native.standard 2 0
  refine ⟨hproper, rfl, rfl, rfl, ?_⟩
  exact ((scopes_mirror_blocks 9).2 undefinedInBlocks _ hproper rfl).2.2 rfl (Nat.le_refl 2)

end Eval

end NovaLang
