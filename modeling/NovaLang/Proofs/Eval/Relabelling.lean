import NovaLang.Proofs.Eval.Invariant

namespace NovaLang

/-! # Runs do not look at lines

Tokens may be replaced by others of the same kinds and lexemes. The tree then runs as it
did before, on every machine; only the token of a run-time error is the other one.
-/

/-- A change of tokens that leaves alone what a reader and a run look at. -/
structure Token.Relabels (f : Token → Token) : Prop where
  kind (t : Token) : (f t).kind = t.kind
  lexeme (t : Token) : (f t).lexeme = t.lexeme
  literal (t : Token) : (f t).literal = t.literal

namespace Token.Relabels

variable {f : Token → Token} (hf : Token.Relabels f) {t : Token}

include hf

/-- Replacements have the same text. -/
theorem text (t : Token) : (f t).text = t.text := by
  rw [Token.text, hf.lexeme, ← Token.text]

theorem kind_eq {kind : Kind} (h : t.kind = kind) : (f t).kind = kind := (hf.kind t).trans h

theorem kind_mem {kinds : List Kind} (h : t.kind ∈ kinds) : (f t).kind ∈ kinds := by
  rwa [hf.kind]

omit hf in
/-- A token may be replaced by itself. -/
protected theorem id : Token.Relabels id := ⟨fun _ => rfl, fun _ => rfl, fun _ => rfl⟩

end Token.Relabels

namespace Node

mutual

/-- The tree with its tokens replaced. -/
def relabel (f : Token → Token) : Node → Node
  | .absent => .absent
  | .list ns => .list (relabelAll f ns)
  | .literal v => .literal v
  | .grouping e => .grouping (e.relabel f)
  | .unary o e => .unary (f o) (e.relabel f)
  | .binary a o b => .binary (a.relabel f) (f o) (b.relabel f)
  | .logical a o b => .logical (a.relabel f) (f o) (b.relabel f)
  | .reference t => .reference (f t)
  | .assign t e => .assign (f t) (e.relabel f)
  | .call g t as => .call (g.relabel f) (f t) (relabelAll f as)
  | .expression e => .expression (e.relabel f)
  | .print e => .print (e.relabel f)
  | .var t e => .var (f t) (e.relabel f)
  | .block ss => .block (relabelAll f ss)
  | .branch c t e => .branch (c.relabel f) (t.relabel f) (e.relabel f)
  | .loop c b => .loop (c.relabel f) (b.relabel f)

/-- Some trees with their tokens replaced. -/
def relabelAll (f : Token → Token) : List Node → List Node
  | [] => []
  | n :: ns => n.relabel f :: relabelAll f ns

end

@[simp] theorem relabelAll_eq (f : Token → Token) (ns : List Node) :
    relabelAll f ns = ns.map (relabel f) := by
  induction ns with
  | nil => rfl
  | cons n ns ih => rw [relabelAll, ih, List.map_cons]

mutual

/-- A tree whose tokens are replaced by themselves is the tree itself. -/
theorem relabel_id_apply : ∀ n : Node, n.relabel id = n
  | .absent | .literal _ | .reference _ => rfl
  | .list ns | .block ns => by rw [relabel, relabelAll_id_apply ns]
  | .grouping e | .expression e | .print e => by rw [relabel, relabel_id_apply e]
  | .unary _ e | .assign _ e | .var _ e => by rw [relabel, relabel_id_apply e, id]
  | .binary a _ b | .logical a _ b => by rw [relabel, relabel_id_apply a, relabel_id_apply b, id]
  | .loop a b => by rw [relabel, relabel_id_apply a, relabel_id_apply b]
  | .call g _ as => by rw [relabel, relabel_id_apply g, relabelAll_id_apply as, id]
  | .branch c t e => by
      rw [relabel, relabel_id_apply c, relabel_id_apply t, relabel_id_apply e]

theorem relabelAll_id_apply : ∀ ns : List Node, relabelAll id ns = ns
  | [] => rfl
  | n :: ns => by rw [relabelAll, relabel_id_apply n, relabelAll_id_apply ns]

end

theorem relabel_id : relabel id = id := funext relabel_id_apply

/-- The form of a tree does not depend on its tokens. -/
@[simp] theorem form_relabel (f : Token → Token) (n : Node) : (n.relabel f).form = n.form := by
  cases n <;> rfl

end Node

/-- The error with its token replaced. -/
def RuntimeError.relabel (f : Token → Token) (e : RuntimeError) : RuntimeError :=
  { e with token := f e.token }

namespace Eval

/-- The interrupt with its token replaced. -/
def Interrupt.relabel (f : Token → Token) : Interrupt → Interrupt
  | .runtime e => .runtime (e.relabel f)
  | .fault reason => .fault reason
  | .endless => .endless

/-! ## Steps that are alike -/

/-- On every machine the second step does what the first one does, and has its outcome with
the token replaced. -/
def Alike {α : Type} (f : Token → Token) (x y : Exec α) : Prop :=
  ∀ m, y.run m = ((x.run m).1.mapError (Interrupt.relabel f), (x.run m).2)

section

variable {f : Token → Token} {α β : Type}

theorem Alike.pure (a : α) : Alike f (Pure.pure a : Exec α) (Pure.pure a) := fun _ => rfl

theorem Alike.throw (i : Interrupt) :
    Alike f (MonadExcept.throw i : Exec α) (MonadExcept.throw (i.relabel f)) := fun _ => rfl

/-- An outcome that is known, with its token replaced. -/
theorem Alike.lift {x y : Except Interrupt α} (h : y = x.mapError (Interrupt.relabel f)) :
    Alike f (liftOutcome x) (liftOutcome y) := by
  intro m
  rw [h]
  rfl

/-- Steps that are alike yield the same value, so that what follows is alike as well. -/
theorem Alike.bind {x y : Exec α} {g h : α → Exec β} (hxy : Alike f x y)
    (hgh : ∀ a, Alike f (g a) (h a)) : Alike f (x >>= g) (y >>= h) := by
  intro m
  rw [run_bind, run_bind, hxy m]
  -- an interrupt is the same with its token replaced
  rcases x.run m with ⟨_ | a, m'⟩
  · rfl
  · exact hgh a m'

theorem Alike.discard {x y : Exec α} (h : Alike f x y) : Alike f (discard x) (discard y) := by
  intro m
  rw [run_discard, run_discard, h m]
  rcases x.run m with ⟨_ | _, m'⟩
  · rfl
  · rfl

theorem Alike.note (e : Event) : Alike f (Eval.note e) (Eval.note e) := fun _ => rfl

theorem Alike.emit (text : String) : Alike f (Eval.emit text) (Eval.emit text) := fun _ => rfl

/-- A failure of the host is at no token. -/
theorem Alike.ask (c : Host.Call) : Alike f (Eval.ask c) (Eval.ask c) := by
  intro m
  rw [run_ask]
  cases (m.ask c).1 <;> rfl

/-- A scope is entered and left in the same way. -/
theorem Alike.inScope {x y : Exec Unit} (h : Alike f x y) :
    Alike f (Eval.inScope x) (Eval.inScope y) := by
  intro m
  rw [run_inScope, run_inScope, h m.enter]

/-- Loops are alike if each round is. -/
theorem Alike.repeatWhile {c d : Exec Value} {x y : Exec Unit} (hcd : Alike f c d)
    (hxy : Alike f x y) (rounds : Nat) :
    Alike f (Eval.repeatWhile c x rounds) (Eval.repeatWhile d y rounds) := by
  induction rounds with
  | zero => exact .throw _
  | succ rounds ih =>
      unfold Eval.repeatWhile
      -- values are the same on both sides, so both loops go on or both end
      apply hcd.bind
      intro value
      apply Alike.bind (.note _)
      intro _
      split
      · exact hxy.bind fun _ => ih
      · exact .pure _

/-! ## Names and operators -/

theorem mapError_ok (a : α) :
    (Except.ok a).mapError (Interrupt.relabel f) = .ok a := rfl

variable (hf : Token.Relabels f)

include hf

/-- A replacement holds the same name, or none either. -/
theorem nameOf_relabel (t : Token) :
    Scopes.nameOf (f t) = (Scopes.nameOf t).mapError (Interrupt.relabel f) := by
  unfold Scopes.nameOf
  rw [hf.lexeme]
  cases Name.ofJson? t.lexeme with
  | none => rfl
  | some name => rfl

/-- An undefined name is reported at the replacement. -/
theorem undefined_relabel (t : Token) :
    Scopes.undefined (f t) = (Scopes.undefined t).relabel f := by
  unfold Scopes.undefined
  rw [hf.text]
  rfl

/-- The same name is looked up. -/
theorem Alike.lookup (t : Token) : Alike f (Eval.lookup t) (Eval.lookup (f t)) := by
  intro m
  rw [run_lookup, run_lookup, Scopes.lookup, Scopes.lookup, nameOf_relabel hf, undefined_relabel hf]
  -- the token may hold no name at all, which is a fault, and the same one for both tokens
  rcases Scopes.nameOf t with i | name
  · rfl
  · rw [mapError_ok]
    simp only [Bind.bind, Except.bind]
    cases m.scopes.get? m.current name with
    | none => rfl
    | some v => rfl

/-- The same name is assigned to. -/
theorem Alike.assign (t : Token) (v : Value) : Alike f (Eval.assign t v) (Eval.assign (f t) v) := by
  intro m
  rw [run_assign, run_assign, Scopes.assign, Scopes.assign, nameOf_relabel hf, undefined_relabel hf]
  rcases Scopes.nameOf t with i | name
  · rfl
  · rw [mapError_ok]
    simp only [Bind.bind, Except.bind]
    cases m.scopes.assign? m.current name v with
    | none => rfl
    | some scopes => rfl

/-- The same name is declared. -/
theorem Alike.declare (t : Token) (v : Value) :
    Alike f (Eval.declare t v) (Eval.declare (f t) v) := by
  intro m
  rw [run_declare, run_declare, Scopes.declare, Scopes.declare, nameOf_relabel hf]
  rcases Scopes.nameOf t with i | name
  · rfl
  · rfl

/-- An operator is told by its kind. -/
theorem unary_relabel (o : Token) (v : Value) :
    unary (f o) v = (unary o v).mapError (Interrupt.relabel f) := by
  unfold unary
  rw [hf.kind, hf.text]
  split
  · rfl
  · split
    · rfl
    · rfl
  · rfl

theorem arithmetic_relabel (o : Token) (x y : Float) :
    arithmetic (f o) x y = (arithmetic o x y).mapError (Interrupt.relabel f) := by
  unfold arithmetic
  rw [hf.kind, hf.text]
  split
  all_goals rfl

/-- So is one between two operands. -/
theorem binary_relabel (o : Token) (v w : Value) :
    binary (f o) v w = (binary o v w).mapError (Interrupt.relabel f) := by
  unfold binary
  rw [hf.kind]
  split
  · split
    all_goals rfl
  · rfl
  · rfl
  · split
    · exact arithmetic_relabel hf o _ _
    · rfl

omit hf in
/-- A call that fails does so at its parenthesis. -/
theorem Alike.call (callee : Value) (as : List Value) (t : Token) :
    Alike f (Eval.call callee as t) (Eval.call callee as (f t)) := by
  cases callee with
  | native g =>
      have hnative : Alike f (applyNative g as) (applyNative g as) := by
        rcases applyNative_cases g as with hclock | ⟨v, hemit⟩ | hask | ⟨v, hpure⟩
        · intro m
          rw [hclock]
          rfl
        · rw [hemit]
          exact Alike.bind (.emit _) fun _ => .pure v
        · rw [hask]
          exact .ask _
        · rw [hpure]
          exact .pure v
      unfold Eval.call
      dsimp only
      split
      · -- the wrong number of arguments is reported at the token
        exact .throw _
      · exact Alike.bind (.note _) fun _ => hnative
  | nil | bool | number | text | int | data => exact .throw _

end

/-! ## Trees -/

section

variable {f : Token → Token}

mutual

/-- An expression with its tokens replaced has the same value. -/
theorem evaluate_relabel (hf : Token.Relabels f) : ∀ n : Node,
    Alike f (evaluate n) (evaluate (n.relabel f))
  | .literal v => .pure v
  | .grouping e => evaluate_relabel hf e
  | .reference t => .lookup hf t
  | .assign t e => by
      unfold Node.relabel evaluate
      apply (evaluate_relabel hf e).bind
      intro value
      apply (Alike.assign hf t value).bind
      intro _
      rw [hf.text]
      exact Alike.bind (.note _) fun _ => .pure value
  | .unary o e => by
      unfold Node.relabel evaluate
      exact (evaluate_relabel hf e).bind fun value => .lift (unary_relabel hf o value)
  | .logical a o b => by
      unfold Node.relabel evaluate
      apply (evaluate_relabel hf a).bind
      intro left
      -- which way a logical operator goes is told by its kind
      rw [hf.kind]
      split
      · exact .pure left
      · exact evaluate_relabel hf b
  | .binary a o b => by
      unfold Node.relabel evaluate
      apply (evaluate_relabel hf a).bind
      intro left
      exact (evaluate_relabel hf b).bind fun right => .lift (binary_relabel hf o left right)
  | .call g t as => by
      unfold Node.relabel evaluate
      apply (evaluate_relabel hf g).bind
      intro callee
      exact (evaluateAll_relabel hf as).bind fun arguments => .call callee arguments t
  | .absent | .list _ | .expression _ | .print _ | .var _ _ | .block _ | .branch _ _ _
  | .loop _ _ => .throw _

theorem evaluateAll_relabel (hf : Token.Relabels f) : ∀ ns : List Node,
    Alike f (evaluateAll ns) (evaluateAll (Node.relabelAll f ns))
  | [] => .pure []
  | n :: ns => by
      unfold Node.relabelAll evaluateAll
      apply (evaluate_relabel hf n).bind
      intro value
      exact (evaluateAll_relabel hf ns).bind fun values => .pure (value :: values)

end

/-- A variable is declared and logged under the same name. -/
theorem Alike.define (hf : Token.Relabels f) (t : Token) (v : Value) :
    Alike f (do Eval.declare t v; Eval.note (.defined t.text v))
      (do Eval.declare (f t) v; Eval.note (.defined (f t).text v)) := by
  rw [hf.text]
  exact (Alike.declare hf t v).bind fun _ => .note _

mutual

/-- A statement with its tokens replaced does the same. -/
theorem execute_relabel (hf : Token.Relabels f) (rounds : Nat) : ∀ n : Node,
    Alike f (execute rounds n) (execute rounds (n.relabel f))
  | .expression e => by
      unfold Node.relabel execute
      exact (evaluate_relabel hf e).discard
  | .print e => by
      unfold Node.relabel execute
      exact (evaluate_relabel hf e).bind fun _ => .emit _
  | .var t e => by
      -- without an initializer nothing is evaluated, and only the absent node is that
      cases e with
      | absent => exact .define hf t .nil
      | _ => exact (evaluate_relabel hf _).bind fun value => .define hf t value
  | .block ss => by
      unfold Node.relabel execute
      exact (executeAll_relabel hf rounds ss).inScope
  | .branch c t e => by
      unfold Node.relabel execute
      apply (evaluate_relabel hf c).bind
      intro value
      apply Alike.bind (.note _)
      intro _
      split
      · exact execute_relabel hf rounds t
      · cases e with
        | absent => exact .pure ()
        | _ => exact execute_relabel hf rounds _
  | .loop c b => by
      unfold Node.relabel execute
      exact (evaluate_relabel hf c).repeatWhile (execute_relabel hf rounds b) rounds
  | .absent | .list _ | .literal _ | .grouping _ | .unary _ _ | .binary _ _ _ | .logical _ _ _
  | .reference _ | .assign _ _ | .call _ _ _ => .throw _

theorem executeAll_relabel (hf : Token.Relabels f) (rounds : Nat) : ∀ ns : List Node,
    Alike f (executeAll rounds ns) (executeAll rounds (Node.relabelAll f ns))
  | [] => .pure ()
  | n :: ns => by
      unfold Node.relabelAll executeAll
      exact (execute_relabel hf rounds n).bind fun _ => executeAll_relabel hf rounds ns

end

/-- A program with its tokens replaced does the same. -/
theorem runProgram_relabel (hf : Token.Relabels f) (rounds : Nat) (ns : List Node) :
    Alike f (runProgram rounds ns) (runProgram rounds (ns.map (Node.relabel f))) := by
  induction ns with
  | nil => exact .pure ()
  | cons n ns ih =>
      rw [List.map_cons]
      unfold runProgram
      rw [Node.form_relabel]
      apply Alike.bind (.note _)
      intro _
      exact (execute_relabel hf rounds n).bind fun _ => ih

end

/-! ## Programs in a row -/

/-- A program that is two programs in a row runs the one and then the other. -/
theorem runProgram_append (rounds : Nat) (ns ms : List Node) (m : Machine) :
    (runProgram rounds (ns ++ ms)).run m =
      (runProgram rounds ns >>= fun _ => runProgram rounds ms).run m := by
  induction ns generalizing m with
  | nil => rfl
  | cons n ns ih =>
      simp only [List.cons_append, runProgram, run_bind]
      -- a program may be broken off in the first statement or later on
      rcases (Eval.note (.statement n.form)).run m with ⟨_ | _, m₁⟩
      · rfl
      · dsimp only
        rcases (execute rounds n).run m₁ with ⟨_ | _, m₂⟩
        · rfl
        · exact (ih m₂).trans (run_bind m₂ _ _)

end Eval

end NovaLang
