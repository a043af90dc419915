import NovaLang.Eval.Run

namespace NovaLang

/-! # What every run keeps

A relation between the machine before a step and the one after it holds of every run,
however it ends, if it holds of the few ways in which a step changes a machine. The run
of a tree assigns only to names that the tree assigns to, and declares in the current
scope only what it declares outside of blocks, so a relation may speak of these names.
-/

namespace Node

mutual

/-- The names that a tree assigns to. -/
def targets : Node → List Token
  | .absent | .literal _ | .reference _ => []
  | .list ns | .block ns => targetsOf ns
  | .grouping e | .unary _ e | .expression e | .print e | .var _ e => e.targets
  | .binary a _ b | .logical a _ b | .loop a b => a.targets ++ b.targets
  | .assign t e => t :: e.targets
  | .call f _ as => f.targets ++ targetsOf as
  | .branch c t e => c.targets ++ (t.targets ++ e.targets)

/-- The names that some trees assign to. -/
def targetsOf : List Node → List Token
  | [] => []
  | n :: ns => n.targets ++ targetsOf ns

end

/-- The names that a statement declares outside of its blocks. -/
def declared : Node → List Token
  | .var t _ => [t]
  | .branch _ t e => t.declared ++ e.declared
  | .loop _ b => b.declared
  | _ => []

end Node

/-- The event tells of a scope. -/
def Event.isScope : Event → Bool
  | .entered _ | .left _ => true
  | _ => false

namespace Eval

/-! ## Steps -/

section

variable {α β : Type} (m : Machine)

/-- An interrupt ends a sequence, with the machine as it is then. -/
theorem run_bind (x : Exec α) (f : α → Exec β) :
    (x >>= f).run m = match x.run m with
      | (.ok a, m') => (f a).run m'
      | (.error i, m') => (.error i, m') := by
  change (ExceptT.bindCont f (x.run m).1).run (x.run m).2 = _
  rcases x.run m with ⟨outcome, m'⟩
  cases outcome <;> rfl

theorem run_discard (x : Exec α) :
    (discard x).run m = match x.run m with
      | (.ok _, m') => (.ok (), m')
      | (.error i, m') => (.error i, m') := by
  rw [discard, map_const, Function.comp_apply, ← bind_pure_comp, run_bind]
  rfl

theorem run_lookup (t : Token) : (lookup t).run m = (m.scopes.lookup m.current t, m) := rfl

/-- An assignment changes the scopes or fails, and then it changes nothing. -/
theorem run_assign (t : Token) (v : Value) :
    (assign t v).run m = match m.scopes.assign m.current t v with
      | .ok scopes => (.ok (), { m with scopes })
      | .error i => (.error i, m) := by
  rw [assign, run_bind]
  change (liftOutcome _ >>= _ : Exec Unit).run m = _
  rw [run_bind]
  cases m.scopes.assign m.current t v <;> rfl

/-- So does a declaration, which fails only where the token holds no name. -/
theorem run_declare (t : Token) (v : Value) :
    (declare t v).run m = match m.scopes.declare m.current t v with
      | .ok scopes => (.ok (), { m with scopes })
      | .error i => (.error i, m) := by
  rw [declare, run_bind]
  change (liftOutcome _ >>= _ : Exec Unit).run m = _
  rw [run_bind]
  cases m.scopes.declare m.current t v <;> rfl

/-- Whether the host answers or fails, it keeps the record of having been asked. -/
theorem run_ask (c : Host.Call) :
    (ask c).run m = ((m.ask c).1.mapError .fault, (m.ask c).2) := rfl

/-- The scope of a block is left however the block ends. -/
theorem run_inScope (body : Exec Unit) :
    (inScope body).run m =
      ((body.run m.enter).1, (body.run m.enter).2.leave m.current) := rfl

end

/-- What a native function does: it looks at the clock, prints a value, asks the host, or has
its result from the arguments alone. -/
theorem applyNative_cases (f : Native) (as : List Value) :
    (∀ m, (applyNative f as).run m = (.ok (.number m.clock), m)) ∨
      (∃ v : Value, applyNative f as = do emit (v.display ++ "\n"); return v) ∨
      applyNative f as = ask ⟨f, as⟩ ∨ ∃ v, applyNative f as = pure v := by
  unfold applyNative
  -- each case of the definition is one of these four
  split
  all_goals first
    | exact .inl fun _ => rfl
    | exact .inr (.inl ⟨_, rfl⟩)
    | exact .inr (.inr (.inl rfl))
    | exact .inr (.inr (.inr ⟨_, rfl⟩))

/-- However a step ends, the machine before it and the one after it are related. -/
def Keeps {α : Type} (R : Machine → Machine → Prop) (x : Exec α) : Prop := ∀ m, R m (x.run m).2

/-- A value that is not looked at makes no difference to the machine. -/
theorem Keeps.discard {α : Type} {R : Machine → Machine → Prop} {x : Exec α} (h : Keeps R x) :
    Keeps R (discard x) := by
  intro m
  have hrun := h m
  rw [run_discard]
  revert hrun
  rcases x.run m with ⟨_ | _, m'⟩ <;> exact id

/-! ## Invariants -/

/-- A relation that holds of every change that a step makes to a machine. The tokens hold
the names that may be assigned to, and those that may be declared in the current scope. -/
structure Invariant (R : (targets declared : List Token) → Machine → Machine → Prop) : Prop where
  refl {A D : List Token} (m : Machine) : R A D m m
  trans {A D : List Token} {m m' m'' : Machine} : R A D m m' → R A D m' m'' → R A D m m''
  mono {A D D' : List Token} {m m' : Machine} : D ⊆ D' → R A D m m' → R A D' m m'
  note {A D : List Token} (m : Machine) {e : Event} : e.isScope = false → R A D m (m.note e)
  print {A D : List Token} (m : Machine) (text : String) : R A D m (m.print text)
  ask {A D : List Token} (m : Machine) (c : Host.Call) : R A D m (m.ask c).2
  assign {A D : List Token} {m : Machine} {t : Token} {v : Value} {scopes : Scopes} :
    t ∈ A → m.scopes.assign m.current t v = .ok scopes → R A D m { m with scopes }
  declare {A D : List Token} {m : Machine} {t : Token} {v : Value} {scopes : Scopes} :
    t ∈ D → m.scopes.declare m.current t v = .ok scopes → R A D m { m with scopes }
  scope {A D : List Token} {m m' : Machine} : R A D m.enter m' → R A [] m (m'.leave m.current)

namespace Invariant

variable {R : List Token → List Token → Machine → Machine → Prop} (hR : Invariant R)
  {A D : List Token} {α β : Type}

include hR

theorem keeps_pure (a : α) : Keeps (R A D) (pure a : Exec α) := fun m => hR.refl m

/-- An interrupt changes nothing. -/
theorem keeps_throw (i : Interrupt) : Keeps (R A D) (throw i : Exec α) := fun m => hR.refl m

theorem keeps_lift (outcome : Except Interrupt α) : Keeps (R A D) (liftOutcome outcome) :=
  fun m => hR.refl m

/-- What two steps keep the two in a row keep, since the relation is transitive. -/
theorem keeps_bind {x : Exec α} {f : α → Exec β} (hx : Keeps (R A D) x)
    (hf : ∀ a, Keeps (R A D) (f a)) : Keeps (R A D) (x >>= f) := by
  intro m
  have hfirst := hx m
  rw [run_bind]
  revert hfirst
  -- an interrupt leaves what the first step has kept
  rcases x.run m with ⟨i | a, m'⟩
  · exact id
  · intro hfirst
    exact hR.trans hfirst (hf a m')

theorem keeps_note {e : Event} (he : e.isScope = false) : Keeps (R A D) (Eval.note e) :=
  fun m => hR.note m he

theorem keeps_emit (text : String) : Keeps (R A D) (emit text) := fun m => hR.print m text

theorem keeps_ask (c : Host.Call) : Keeps (R A D) (Eval.ask c) := fun m => hR.ask m c

theorem keeps_lookup (t : Token) : Keeps (R A D) (lookup t) := fun m => hR.refl m

/-- An assignment to a name that the tree assigns to. -/
theorem keeps_assign {t : Token} (ht : t ∈ A) (v : Value) : Keeps (R A D) (Eval.assign t v) := by
  intro m
  rw [run_assign]
  split
  · rename_i hassign
    exact hR.assign ht hassign
  · exact hR.refl m

/-- A declaration of a name that the tree declares. -/
theorem keeps_declare {t : Token} (ht : t ∈ D) (v : Value) : Keeps (R A D) (Eval.declare t v) := by
  intro m
  rw [run_declare]
  split
  · rename_i hdeclare
    exact hR.declare ht hdeclare
  · exact hR.refl m

/-- What a body declares is no longer there when its scope has been left. -/
theorem keeps_inScope {D' : List Token} {body : Exec Unit} (h : Keeps (R A D') body) :
    Keeps (R A D) (inScope body) := fun m => hR.mono (List.nil_subset D) (hR.scope (h m.enter))

/-- A call is logged and applied, or refused without a trace. -/
theorem keeps_call (f : Value) (as : List Value) (paren : Token) :
    Keeps (R A D) (call f as paren) := by
  cases f with
  | native f =>
      -- the four ways of a native function
      have hnative : Keeps (R A D) (applyNative f as) := by
        rcases applyNative_cases f as with hclock | ⟨v, hemit⟩ | hask | ⟨v, hpure⟩
        · intro m
          rw [hclock]
          exact hR.refl m
        · rw [hemit]
          exact hR.keeps_bind (hR.keeps_emit _) fun _ => hR.keeps_pure v
        · rw [hask]
          exact hR.keeps_ask _
        · rw [hpure]
          exact hR.keeps_pure v
      unfold call
      dsimp only
      -- with the wrong number of arguments nothing is called
      split
      · exact hR.keeps_throw _
      · exact hR.keeps_bind (hR.keeps_note rfl) fun _ => hnative
  | nil | bool | number | text | int | data => exact hR.keeps_throw _

/-- A loop keeps what each of its rounds keeps. -/
theorem keeps_repeat {condition : Exec Value} {body : Exec Unit}
    (hcondition : Keeps (R A D) condition) (hbody : Keeps (R A D) body) (rounds : Nat) :
    Keeps (R A D) (repeatWhile condition body rounds) := by
  induction rounds with
  | zero => exact hR.keeps_throw _
  | succ rounds ih =>
      unfold repeatWhile
      apply hR.keeps_bind hcondition
      intro value
      apply hR.keeps_bind (hR.keeps_note rfl)
      intro _
      -- a round ends the loop or runs its body, and then the rest of the rounds
      split
      · exact hR.keeps_bind hbody fun _ => ih
      · exact hR.keeps_pure _

mutual

/-- An expression assigns only to its targets, and declares nothing. -/
theorem evaluate : ∀ n : Node, n.targets ⊆ A → Keeps (R A D) (Eval.evaluate n)
  | .literal v, _ => hR.keeps_pure v
  | .grouping e, h => evaluate e h
  | .reference t, _ => hR.keeps_lookup t
  | .assign t e, h => by
      -- the target comes first, and the value may assign to others
      rcases List.cons_subset.mp h with ⟨ht, he⟩
      unfold Eval.evaluate
      apply hR.keeps_bind (evaluate e he)
      intro value
      apply hR.keeps_bind (hR.keeps_assign ht value)
      intro _
      exact hR.keeps_bind (hR.keeps_note rfl) fun _ => hR.keeps_pure value
  | .unary o e, h => by
      unfold Eval.evaluate
      exact hR.keeps_bind (evaluate e h) fun _ => hR.keeps_lift _
  | .logical a o b, h => by
      rcases List.append_subset.mp h with ⟨ha, hb⟩
      unfold Eval.evaluate
      apply hR.keeps_bind (evaluate a ha)
      intro left
      split
      · exact hR.keeps_pure left
      · exact evaluate b hb
  | .binary a o b, h => by
      rcases List.append_subset.mp h with ⟨ha, hb⟩
      unfold Eval.evaluate
      apply hR.keeps_bind (evaluate a ha)
      intro left
      exact hR.keeps_bind (evaluate b hb) fun _ => hR.keeps_lift _
  | .call f paren as, h => by
      rcases List.append_subset.mp h with ⟨hf, has⟩
      unfold Eval.evaluate
      apply hR.keeps_bind (evaluate f hf)
      intro callee
      apply hR.keeps_bind (evaluateAll as has)
      intro arguments
      exact hR.keeps_call callee arguments paren
  | .absent, _ | .list _, _ | .expression _, _ | .print _, _ | .var _ _, _ | .block _, _
  | .branch _ _ _, _ | .loop _ _, _ => hR.keeps_throw _

theorem evaluateAll : ∀ ns : List Node, Node.targetsOf ns ⊆ A →
    Keeps (R A D) (Eval.evaluateAll ns)
  | [], _ => hR.keeps_pure []
  | n :: ns, h => by
      rcases List.append_subset.mp h with ⟨hn, hns⟩
      unfold Eval.evaluateAll
      apply hR.keeps_bind (evaluate n hn)
      intro value
      exact hR.keeps_bind (evaluateAll ns hns) fun _ => hR.keeps_pure _

end

/-- A variable is declared and then logged. -/
theorem keeps_var {t : Token} (ht : t ∈ D) (v : Value) :
    Keeps (R A D) (do Eval.declare t v; Eval.note (.defined t.text v)) :=
  hR.keeps_bind (hR.keeps_declare ht v) fun _ => hR.keeps_note rfl

mutual

/-- Every run of a statement keeps an invariant. -/
theorem execute (rounds : Nat) : ∀ (n : Node) (D : List Token), n.targets ⊆ A → n.declared ⊆ D →
    Keeps (R A D) (Eval.execute rounds n)
  | .expression e, _, hA, _ => by
      unfold Eval.execute
      exact (hR.evaluate e hA).discard
  | .print e, _, hA, _ => by
      unfold Eval.execute
      exact hR.keeps_bind (hR.evaluate e hA) fun _ => hR.keeps_emit _
  | .var t e, _, hA, hD => by
      have ht := hD List.mem_cons_self
      -- a variable without a value is `nil`
      cases e with
      | absent => exact hR.keeps_var ht .nil
      | _ => exact hR.keeps_bind (hR.evaluate _ hA) fun value => hR.keeps_var ht value
  | .block ss, _, hA, _ => by
      unfold Eval.execute
      -- within the block its own declarations count, and outside of it none of them
      exact hR.keeps_inScope (executeAll rounds ss _ hA (List.Subset.refl _))
  | .branch c t e, D, hA, hD => by
      rcases List.append_subset.mp hA with ⟨hcA, hA⟩
      rcases List.append_subset.mp hA with ⟨htA, heA⟩
      rcases List.append_subset.mp hD with ⟨htD, heD⟩
      unfold Eval.execute
      apply hR.keeps_bind (hR.evaluate c hcA)
      intro value
      apply hR.keeps_bind (hR.keeps_note rfl)
      intro _
      split
      · exact execute rounds t D htA htD
      · split
        · exact hR.keeps_pure ()
        · exact execute rounds e D heA heD
  | .loop c b, D, hA, hD => by
      rcases List.append_subset.mp hA with ⟨hcA, hbA⟩
      unfold Eval.execute
      exact hR.keeps_repeat (hR.evaluate c hcA) (execute rounds b D hbA hD) rounds
  | .absent, _, _, _ | .list _, _, _, _ | .literal _, _, _, _ | .grouping _, _, _, _
  | .unary _ _, _, _, _ | .binary _ _ _, _, _, _ | .logical _ _ _, _, _, _
  | .reference _, _, _, _ | .assign _ _, _, _, _ | .call _ _ _, _, _, _ => hR.keeps_throw _

theorem executeAll (rounds : Nat) : ∀ (ns : List Node) (D : List Token),
    Node.targetsOf ns ⊆ A → ns.flatMap Node.declared ⊆ D → Keeps (R A D) (Eval.executeAll rounds ns)
  | [], _, _, _ => hR.keeps_pure ()
  | n :: ns, D, hA, hD => by
      rcases List.append_subset.mp hA with ⟨hnA, hnsA⟩
      rcases List.append_subset.mp hD with ⟨hnD, hnsD⟩
      unfold Eval.executeAll
      exact hR.keeps_bind (execute rounds n D hnA hnD) fun _ => executeAll rounds ns D hnsA hnsD

end

/-- Every run of a program keeps an invariant. -/
theorem runProgram (rounds : Nat) : ∀ (ns : List Node) (D : List Token),
    Node.targetsOf ns ⊆ A → ns.flatMap Node.declared ⊆ D → Keeps (R A D) (Eval.runProgram rounds ns)
  | [], _, _, _ => hR.keeps_pure ()
  | n :: ns, D, hA, hD => by
      rcases List.append_subset.mp hA with ⟨hnA, hnsA⟩
      rcases List.append_subset.mp hD with ⟨hnD, hnsD⟩
      unfold Eval.runProgram
      apply hR.keeps_bind (hR.keeps_note rfl)
      intro _
      exact hR.keeps_bind (hR.execute rounds n D hnA hnD) fun _ => runProgram rounds ns D hnsA hnsD

end Invariant

end Eval

end NovaLang
