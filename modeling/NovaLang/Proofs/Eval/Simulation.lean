import NovaLang.Proofs.Eval.Frame

namespace NovaLang.Eval

/-! # Two runs side by side

A relation between two machines is kept by running the same tree in both of them, with the
same outcome, if it is kept by the few ways in which a step looks at a machine or changes
it. The relation may ask for more where a step is within a block of the tree than where it
is not, and then the tree declares nothing outside of its blocks.
-/

/-- From related machines, two steps have the same outcome and end in related machines. -/
def Simulates {α : Type} (R : Machine → Machine → Prop) (x y : Exec α) : Prop :=
  ∀ m w, R m w → (x.run m).1 = (y.run w).1 ∧ R (x.run m).2 (y.run w).2

namespace Simulates

variable {α β : Type} {R : Machine → Machine → Prop}

theorem pure (a : α) : Simulates R (pure a) (pure a) := fun _ _ h => ⟨rfl, h⟩

theorem throw (i : Interrupt) : Simulates R (throw i : Exec α) (throw i) := fun _ _ h => ⟨rfl, h⟩

theorem lift (outcome : Except Interrupt α) :
    Simulates R (liftOutcome outcome) (liftOutcome outcome) := fun _ _ h => ⟨rfl, h⟩

/-- The same outcome on both sides leads to the same next step. -/
theorem bind {x y : Exec α} {f g : α → Exec β} (hx : Simulates R x y)
    (hf : ∀ a, Simulates R (f a) (g a)) : Simulates R (x >>= f) (y >>= g) := by
  intro m w h
  have hfirst := hx m w h
  rw [run_bind, run_bind]
  revert hfirst
  rcases x.run m with ⟨o, m'⟩
  rcases y.run w with ⟨o', w'⟩
  rintro ⟨rfl, h'⟩
  -- an interrupt ends both
  cases o with
  | error i => exact ⟨rfl, h'⟩
  | ok a => exact hf a m' w' h'

theorem discard {x y : Exec α} (h : Simulates R x y) :
    Simulates R (discard x) (discard y) := by
  intro m w hmw
  have hfirst := h m w hmw
  rw [run_discard, run_discard]
  revert hfirst
  rcases x.run m with ⟨o, m'⟩
  rcases y.run w with ⟨o', w'⟩
  rintro ⟨rfl, h'⟩
  cases o with
  | error i => exact ⟨rfl, h'⟩
  | ok a => exact ⟨rfl, h'⟩

/-- Loops whose conditions and bodies go side by side do so with any number of rounds. -/
theorem repeatWhile {condition condition' : Exec Value} {body body' : Exec Unit}
    (hnote : ∀ e, Simulates R (Eval.note e) (Eval.note e))
    (hcondition : Simulates R condition condition') (hbody : Simulates R body body')
    (rounds : Nat) :
    Simulates R (Eval.repeatWhile condition body rounds)
      (Eval.repeatWhile condition' body' rounds) := by
  induction rounds with
  | zero => exact throw _
  | succ rounds ih =>
      unfold Eval.repeatWhile
      apply bind hcondition
      intro value
      apply bind (hnote _)
      intro _
      -- the same value of the condition ends both or neither
      split
      · exact bind hbody fun _ => ih
      · exact pure _

end Simulates

/-- A relation between two machines that every step keeps. It may be a different one within
a block, where steps may declare. -/
structure Simulation (R : (within : Bool) → Machine → Machine → Prop) : Prop where
  note {d : Bool} {m w : Machine} (e : Event) : R d m w → R d (m.note e) (w.note e)
  print {d : Bool} {m w : Machine} (text : String) : R d m w → R d (m.print text) (w.print text)
  ask {d : Bool} {m w : Machine} (c : Host.Call) : R d m w →
    (m.ask c).1 = (w.ask c).1 ∧ R d (m.ask c).2 (w.ask c).2
  clock {d : Bool} {m w : Machine} : R d m w → m.clock = w.clock
  lookup {d : Bool} {m w : Machine} (t : Token) : R d m w →
    m.scopes.lookup m.current t = w.scopes.lookup w.current t
  assign {d : Bool} (t : Token) (v : Value) : Simulates (R d) (Eval.assign t v) (Eval.assign t v)
  declare (t : Token) (v : Value) : Simulates (R true) (Eval.declare t v) (Eval.declare t v)
  enter {d : Bool} {m w : Machine} : R d m w → R true m.enter w.enter
  leave {d : Bool} {m w m' w' : Machine} {A D : List Token} : R d m w → R true m' w' →
    Frame A D m.enter m' → Frame A D w.enter w' → R d (m'.leave m.current) (w'.leave w.current)

namespace Simulation

variable {R : Bool → Machine → Machine → Prop} {d : Bool}

section

variable (hR : Simulation R)

include hR

theorem noted (e : Event) : Simulates (R d) (Eval.note e) (Eval.note e) :=
  fun _ _ h => ⟨rfl, hR.note e h⟩

theorem emitted (text : String) : Simulates (R d) (emit text) (emit text) :=
  fun _ _ h => ⟨rfl, hR.print text h⟩

/-- The two hosts have been asked the same, and answer the same. -/
theorem asked (c : Host.Call) : Simulates (R d) (Eval.ask c) (Eval.ask c) := by
  intro m w h
  rcases hR.ask c h with ⟨houtcome, hR'⟩
  rw [run_ask, run_ask, houtcome]
  exact ⟨rfl, hR'⟩

theorem looked (t : Token) : Simulates (R d) (Eval.lookup t) (Eval.lookup t) :=
  fun _ _ h => ⟨hR.lookup t h, h⟩

/-- A native function looks at the clock, at its arguments, or at what its host answers. -/
theorem call (f : Value) (as : List Value) (paren : Token) :
    Simulates (R d) (Eval.call f as paren) (Eval.call f as paren) := by
  cases f with
  | native f =>
      have hnative : Simulates (R d) (applyNative f as) (applyNative f as) := by
        rcases applyNative_cases f as with hclock | ⟨v, hemit⟩ | hask | ⟨v, hpure⟩
        · intro m w h
          rw [hclock, hclock, hR.clock h]
          exact ⟨rfl, h⟩
        · rw [hemit]
          exact .bind (hR.emitted _) fun _ => .pure v
        · rw [hask]
          exact hR.asked _
        · rw [hpure]
          exact .pure v
      unfold Eval.call
      dsimp only
      split
      · exact .throw _
      · exact .bind (hR.noted _) fun _ => hnative
  | nil | bool | number | text | int | data => exact .throw _

/-- Where declarations are allowed a variable goes side by side with itself. -/
theorem var (t : Token) (v : Value) :
    Simulates (R true) (do Eval.declare t v; Eval.note (.defined t.text v))
      (do Eval.declare t v; Eval.note (.defined t.text v)) :=
  .bind (hR.declare t v) fun _ => hR.noted _

/-- A block goes side by side with itself if what is in it does. -/
theorem inScope {rounds : Nat} {ns : List Node}
    (h : Simulates (R true) (Eval.executeAll rounds ns) (Eval.executeAll rounds ns)) :
    Simulates (R d) (Eval.inScope (Eval.executeAll rounds ns))
      (Eval.inScope (Eval.executeAll rounds ns)) := by
  intro m w hmw
  -- the frames say that the scopes of the block are the last ones on both sides
  rcases h m.enter w.enter (hR.enter hmw) with ⟨houtcome, hinner⟩
  rw [run_inScope, run_inScope]
  exact ⟨houtcome, hR.leave hmw hinner (frame_of_executeAll rfl) (frame_of_executeAll rfl)⟩

end

mutual

/-- An expression goes side by side with itself. -/
theorem evaluate (hR : Simulation R) : ∀ n : Node,
    Simulates (R d) (Eval.evaluate n) (Eval.evaluate n)
  | .literal v => .pure v
  | .grouping e => evaluate hR e
  | .reference t => hR.looked t
  | .assign t e => by
      unfold Eval.evaluate
      apply Simulates.bind (evaluate hR e)
      intro value
      apply Simulates.bind (hR.assign t value)
      intro _
      exact .bind (hR.noted _) fun _ => .pure value
  | .unary o e => by
      unfold Eval.evaluate
      exact .bind (evaluate hR e) fun _ => .lift _
  | .logical a o b => by
      unfold Eval.evaluate
      apply Simulates.bind (evaluate hR a)
      intro left
      split
      · exact .pure left
      · exact evaluate hR b
  | .binary a o b => by
      unfold Eval.evaluate
      apply Simulates.bind (evaluate hR a)
      intro left
      exact .bind (evaluate hR b) fun _ => .lift _
  | .call f paren as => by
      unfold Eval.evaluate
      apply Simulates.bind (evaluate hR f)
      intro callee
      apply Simulates.bind (evaluateAll hR as)
      intro arguments
      exact hR.call callee arguments paren
  | .absent | .list _ | .expression _ | .print _ | .var _ _ | .block _ | .branch _ _ _
  | .loop _ _ => .throw _

/-- Arguments go side by side in a row. -/
theorem evaluateAll (hR : Simulation R) : ∀ ns : List Node,
    Simulates (R d) (Eval.evaluateAll ns) (Eval.evaluateAll ns)
  | [] => .pure []
  | n :: ns => by
      unfold Eval.evaluateAll
      apply Simulates.bind (evaluate hR n)
      intro value
      exact .bind (evaluateAll hR ns) fun _ => .pure _

end

mutual

/-- A statement goes side by side with itself, within a block in any case, and elsewhere if
it declares nothing there. -/
theorem execute (hR : Simulation R) (rounds : Nat) : ∀ (n : Node) (d : Bool),
    (d = false → n.declared = []) →
    Simulates (R d) (Eval.execute rounds n) (Eval.execute rounds n)
  | .expression e, _, _ => by
      unfold Eval.execute
      exact (hR.evaluate e).discard
  | .print e, _, _ => by
      unfold Eval.execute
      exact .bind (hR.evaluate e) fun _ => hR.emitted _
  | .var t e, d, hd => by
      -- a declaration is only met where the relation allows for it
      obtain rfl : d = true := by
        cases d with
        | true => rfl
        | false => cases hd rfl
      cases e with
      | absent => exact hR.var t .nil
      | _ => exact .bind (hR.evaluate _) fun value => hR.var t value
  | .block ss, _, _ => by
      unfold Eval.execute
      exact hR.inScope (executeAll hR rounds ss)
  | .branch c t e, d, hd => by
      -- what a branch declares it declares in one of its parts
      have ht : d = false → t.declared = [] := fun h => (List.append_eq_nil_iff.mp (hd h)).1
      have he : d = false → e.declared = [] := fun h => (List.append_eq_nil_iff.mp (hd h)).2
      unfold Eval.execute
      apply Simulates.bind (hR.evaluate c)
      intro value
      apply Simulates.bind (hR.noted _)
      intro _
      split
      · exact execute hR rounds t d ht
      · split
        · exact .pure ()
        · exact execute hR rounds e d he
  | .loop c b, d, hd => by
      unfold Eval.execute
      exact .repeatWhile hR.noted (hR.evaluate c) (execute hR rounds b d hd) rounds
  | .absent, _, _ | .list _, _, _ | .literal _, _, _ | .grouping _, _, _ | .unary _ _, _, _
  | .binary _ _ _, _, _ | .logical _ _ _, _, _ | .reference _, _, _ | .assign _ _, _, _
  | .call _ _ _, _, _ => .throw _

/-- Statements of a block go side by side in a row. -/
theorem executeAll (hR : Simulation R) (rounds : Nat) : ∀ ns : List Node,
    Simulates (R true) (Eval.executeAll rounds ns) (Eval.executeAll rounds ns)
  | [] => .pure ()
  | n :: ns => by
      unfold Eval.executeAll
      exact .bind (execute hR rounds n true nofun) fun _ =>
        executeAll hR rounds ns

end

/-- A program goes side by side with itself where it may declare. -/
theorem runProgram (hR : Simulation R) (rounds : Nat) (ns : List Node) :
    Simulates (R true) (Eval.runProgram rounds ns) (Eval.runProgram rounds ns) := by
  induction ns with
  | nil => exact .pure ()
  | cons n ns ih =>
      unfold Eval.runProgram
      apply Simulates.bind (hR.noted _)
      intro _
      exact .bind (hR.execute rounds n true nofun) fun _ => ih

end Simulation

end NovaLang.Eval
