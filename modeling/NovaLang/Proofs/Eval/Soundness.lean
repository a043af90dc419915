import NovaLang.Proofs.Eval.Invariant
import NovaLang.Proofs.Trees

namespace NovaLang

/-! # Trees that never fault

A tree that comes of a phrase has expressions and statements where they belong, and
operators that the language has. Running it never faults unless the host does: it ends
well or in a run-time error at one of its own tokens, unless a loop goes on for too long.
-/

namespace Node

/-- The kinds of binary operators. -/
def binaryKinds : List Kind :=
  [.bangEqual, .equalEqual, .greater, .greaterEqual, .less, .lessEqual, .minus, .plus, .slash,
    .star]

/-- An expression all of whose parts are expressions, with operators of the language; its
tokens have a property. -/
inductive Evaluable (P : Token → Prop) : Node → Prop where
  | literal {v : Value} : Evaluable P (.literal v)
  | grouping {e : Node} : Evaluable P e → Evaluable P (.grouping e)
  | reference {t : Token} : P t → Evaluable P (.reference t)
  | assign {t : Token} {e : Node} : P t → Evaluable P e → Evaluable P (.assign t e)
  | unary {o : Token} {e : Node} :
      P o → o.kind ∈ [Kind.bang, .minus] → Evaluable P e → Evaluable P (.unary o e)
  | binary {a b : Node} {o : Token} :
      Evaluable P a → P o → o.kind ∈ binaryKinds → Evaluable P b → Evaluable P (.binary a o b)
  | logical {a b : Node} {o : Token} :
      Evaluable P a → Evaluable P b → Evaluable P (.logical a o b)
  | call {f : Node} {t : Token} {as : List Node} :
      Evaluable P f → P t → (∀ a ∈ as, Evaluable P a) → Evaluable P (.call f t as)

/-- A statement all of whose parts are what belongs there. -/
inductive Executable (P : Token → Prop) : Node → Prop where
  | expression {e : Node} : Evaluable P e → Executable P (.expression e)
  | print {e : Node} : Evaluable P e → Executable P (.print e)
  | var {t : Token} {e : Node} : P t → (e ≠ .absent → Evaluable P e) → Executable P (.var t e)
  | block {ss : List Node} : (∀ s ∈ ss, Executable P s) → Executable P (.block ss)
  | branch {c t e : Node} :
      Evaluable P c → Executable P t → (e ≠ .absent → Executable P e) →
      Executable P (.branch c t e)
  | loop {c b : Node} : Evaluable P c → Executable P b → Executable P (.loop c b)

end Node

namespace Phrase

open Node

/-! ## Trees of phrases -/

section

variable {P : Token → Prop}

/-- An operation of a level is logical or binary, and its operator one of the language. -/
theorem Evaluable.join {l : Level} {a b : Node} {o : Token} (ha : Evaluable P a) (ht : P o)
    (ho : o.kind ∈ l.operators) (hb : Evaluable P b) : Evaluable P (l.join a o b) := by
  -- two levels are logical; the operators of the others are binary ones
  have hkinds : l = .disjunction ∨ l = .conjunction ∨ ∀ k ∈ l.operators, k ∈ binaryKinds := by
    cases l <;> decide
  rcases hkinds with rfl | rfl | hkinds
  · exact .logical ha hb
  · exact .logical ha hb
  · cases l with
    | disjunction | conjunction => exact .logical ha hb
    | equality | comparison | term | factor => exact .binary ha ht (hkinds _ ho) hb

/-- Whatever a phrase builds has what belongs there in its places. -/
theorem executable_builds : Builds P (Evaluable P) (Executable P) where
  literal _ _ := .literal
  reference hn _ := .reference hn
  grouping he := .grouping he
  call hf hp _ has := .call hf hp has
  unary ho hkind he := .unary ho hkind he
  operation ha ho hkind hb := Evaluable.join ha ho hkind hb
  assign hn _ he := .assign hn he
  always := .literal
  expression he := .expression he
  print he := .print he
  declaration hn _ := .var hn fun h => absurd rfl h
  definition hn _ he := .var hn fun _ => he
  block hss := .block hss
  branch hc ht := .branch hc ht fun h => absurd rfl h
  branches hc ht he := .branch hc ht fun _ => he
  loop hc hb := .loop hc hb

/-- The statements of a program are such trees. -/
theorem Program.executable {ts : List Token} {ss : List Node} (h : Program ts ss)
    (hts : ∀ t ∈ ts, P t) : ∀ s ∈ ss, Executable P s := executable_builds.program h hts

end

end Phrase

/-! ## The host of a run -/

namespace Machine

@[simp] theorem host_note (m : Machine) (e : Event) : (m.note e).host = m.host := by
  unfold note
  split
  · split <;> rfl
  · rfl

theorem host_enter (m : Machine) : m.enter.host = m.host := m.host_note _

theorem host_leave (m : Machine) (outer : Nat) : (m.leave outer).host = m.host := m.host_note _

end Machine

/-- The host fails some call in this way. -/
def Host.Fails (h : Host) (f : Fault) : Prop :=
  ∃ earlier c, (h.answer earlier c).outcome = .error f

/-- A host that answers nothing but `nil` fails no call. -/
theorem Host.not_fails_idle {f : Fault} : ¬ Host.idle.Fails f := by
  rintro ⟨earlier, c, houtcome⟩
  cases houtcome

namespace Eval

open Node

/-! ## Runs that never fault -/

/-- No fault has happened but for one of the host, and a run-time error is at a token with the
property. -/
def Answers {α : Type} (P : Token → Prop) (h : Host) (outcome : Except Interrupt α) : Prop :=
  match outcome with
  | .error (.runtime e) => P e.token
  | .error (.fault f) => h.Fails f
  | .ok _ | .error .endless => True

/-- On every machine a step has such an outcome, and the host stays the same. -/
structure Safe {α : Type} (P : Token → Prop) (x : Exec α) : Prop where
  answers (m : Machine) : Answers P m.host (x.run m).1
  host (m : Machine) : (x.run m).2.host = m.host

section

variable {P : Token → Prop} {α β : Type} {h : Host}

/-- An interrupt answers for every type of result or for none. -/
theorem Answers.error {i : Interrupt} (hi : Answers P h (.error i : Except Interrupt α)) :
    Answers P h (.error i : Except Interrupt β) := by
  cases i with
  | runtime | endless | fault => exact hi

theorem Safe.pure (a : α) : Safe P (Pure.pure a : Exec α) := ⟨fun _ => trivial, fun _ => rfl⟩

theorem Safe.throw {i : Interrupt} (hi : ∀ h, Answers P h (.error i : Except Interrupt α)) :
    Safe P (MonadExcept.throw i : Exec α) := ⟨fun m => hi m.host, fun _ => rfl⟩

theorem Safe.lift {outcome : Except Interrupt α} (hanswers : ∀ h, Answers P h outcome) :
    Safe P (liftOutcome outcome) := ⟨fun m => hanswers m.host, fun _ => rfl⟩

/-- The second step runs on a machine with the same host. -/
theorem Safe.bind {x : Exec α} {f : α → Exec β} (hx : Safe P x) (hf : ∀ a, Safe P (f a)) :
    Safe P (x >>= f) := by
  -- both parts at once, since the second step needs the host of the first
  have hrun : ∀ m, Answers P m.host ((x >>= f).run m).1 ∧ ((x >>= f).run m).2.host = m.host := by
    intro m
    have hanswers := hx.answers m
    have hhost := hx.host m
    rw [run_bind]
    revert hanswers hhost
    rcases x.run m with ⟨i | a, m'⟩
    · exact fun hanswers hhost => ⟨hanswers.error, hhost⟩
    · rintro - hhost
      exact ⟨hhost ▸ (hf a).answers m', ((hf a).host m').trans hhost⟩
  exact ⟨fun m => (hrun m).1, fun m => (hrun m).2⟩

theorem Safe.note (e : Event) : Safe P (Eval.note e) where
  answers _ := trivial
  host m := m.host_note e

theorem Safe.emit (text : String) : Safe P (Eval.emit text) := ⟨fun _ => trivial, fun _ => rfl⟩

/-- Only the host may fail a call. -/
theorem Safe.ask (c : Host.Call) : Safe P (Eval.ask c) where
  answers m := by
    rw [run_ask]
    change Answers P m.host (Except.mapError _ (m.host.answer m.calls c).outcome)
    cases houtcome : (m.host.answer m.calls c).outcome with
    | error f => exact ⟨m.calls, c, houtcome⟩
    | ok v => trivial
  host _ := rfl

/-- A block is as safe as what is in it. -/
theorem Safe.inScope {body : Exec Unit} (hbody : Safe P body) : Safe P (Eval.inScope body) where
  answers m := by
    have hanswers := hbody.answers m.enter
    rwa [m.host_enter] at hanswers
  host m := by
    rw [run_inScope, Machine.host_leave, hbody.host, m.host_enter]

theorem Safe.discard {x : Exec α} (hx : Safe P x) : Safe P (Functor.discard x) := by
  rw [Functor.discard, map_const, Function.comp_apply, ← bind_pure_comp]
  exact hx.bind fun _ => Safe.pure ()

/-- A token that holds a name and has the property. -/
def Held (P : Token → Prop) : Prop := ∀ t, P t → ∃ name, Scopes.nameOf t = .ok name

/-- A lookup fails only as a run-time error at its token. -/
theorem answers_lookup (hP : Held P) {t : Token} (ht : P t) (m : Machine) :
    Answers P h (m.scopes.lookup m.current t) := by
  rcases hP t ht with ⟨name, hname⟩
  unfold Scopes.lookup
  simp only [hname, bind, Except.bind]
  cases m.scopes.get? m.current name with
  | some => trivial
  | none => exact ht

theorem Safe.lookup (hP : Held P) {t : Token} (ht : P t) : Safe P (Eval.lookup t) :=
  ⟨fun m => answers_lookup hP ht m, fun _ => rfl⟩

/-- An assignment to an unknown name is a run-time error, and a known one is set. -/
theorem Safe.assign (hP : Held P) {t : Token} (ht : P t) (v : Value) :
    Safe P (Eval.assign t v) := by
  rcases hP t ht with ⟨name, hname⟩
  have hassign : ∀ m : Machine, Answers P m.host (m.scopes.assign m.current t v) := by
    intro m
    unfold Scopes.assign
    simp only [hname, Bind.bind, Except.bind]
    cases m.scopes.assign? m.current name v with
    | some => trivial
    | none => exact ht
  constructor
  · intro m
    have hanswers := hassign m
    rw [run_assign]
    revert hanswers
    rcases m.scopes.assign m.current t v with i | scopes
    · exact Answers.error
    · exact id
  · intro m
    rw [run_assign]
    cases m.scopes.assign m.current t v <;> rfl

/-- A declaration of a name never fails. -/
theorem Safe.declare (hP : Held P) {t : Token} (ht : P t) (v : Value) :
    Safe P (Eval.declare t v) := by
  rcases hP t ht with ⟨name, hname⟩
  have hdeclare : ∀ m : Machine,
      (Eval.declare t v).run m = (.ok (), { m with scopes := m.scopes.define m.current name v }) := by
    intro m
    rw [run_declare]
    unfold Scopes.declare
    rw [hname]
    rfl
  exact ⟨fun m => by rw [hdeclare]; trivial, fun m => by rw [hdeclare]⟩

/-- A sign in front of anything but a number is a run-time error at the operator. -/
theorem answers_unary {o : Token} (ht : P o) (ho : o.kind ∈ [Kind.bang, .minus]) (v : Value) :
    Answers P h (unary o v) := by
  unfold Eval.unary
  split
  · trivial
  · split
    · trivial
    · exact ht
  · -- any other operator would be a fault, and there is none
    rename_i hbang hminus
    rcases List.mem_cons.mp ho with h | h
    · exact absurd h hbang
    · exact absurd (List.mem_singleton.mp h) hminus

/-- An operator that is no comparison for equality and no plus is one of arithmetic. -/
theorem answers_arithmetic {o : Token} (ho : o.kind ∈ binaryKinds) (hplus : o.kind ≠ .plus)
    (hbang : o.kind ≠ .bangEqual) (hequal : o.kind ≠ .equalEqual) (x y : Float) :
    Answers P h (arithmetic o x y) := by
  unfold arithmetic
  split
  -- the fault is for an operator that is none of those before it
  all_goals first
    | trivial
    | simp_all [binaryKinds]

/-- Operands of the wrong kinds are a run-time error at the operator. -/
theorem answers_binary {o : Token} (ht : P o) (ho : o.kind ∈ binaryKinds) (v w : Value) :
    Answers P h (binary o v w) := by
  unfold Eval.binary
  split
  · -- for a sum, both operands are numbers or both are texts
    split
    · trivial
    · trivial
    · exact ht
  · trivial
  · trivial
  · split
    · exact answers_arithmetic ho ‹_› ‹_› ‹_› _ _
    · exact ht

/-- What cannot be called, or has the wrong number of arguments, is a run-time error at the
parenthesis. -/
theorem Safe.call (f : Value) (as : List Value) {paren : Token} (ht : P paren) :
    Safe P (Eval.call f as paren) := by
  cases f with
  | native f =>
      have hnative : Safe P (applyNative f as) := by
        rcases applyNative_cases f as with hclock | ⟨v, hemit⟩ | hask | ⟨v, hpure⟩
        · exact ⟨fun m => by rw [hclock]; trivial, fun m => by rw [hclock]⟩
        · rw [hemit]
          exact (Safe.emit _).bind fun _ => Safe.pure v
        · rw [hask]
          exact Safe.ask _
        · rw [hpure]
          exact Safe.pure v
      unfold Eval.call
      dsimp only
      split
      · exact Safe.throw fun _ => ht
      · exact (Safe.note _).bind fun _ => hnative
  | nil | bool | number | text | int | data => exact Safe.throw fun _ => ht

/-- A loop is as safe as its condition and body, and may be endless. -/
theorem Safe.repeat {condition : Exec Value} {body : Exec Unit} (hcondition : Safe P condition)
    (hbody : Safe P body) (rounds : Nat) : Safe P (repeatWhile condition body rounds) := by
  induction rounds with
  | zero => exact Safe.throw fun _ => trivial
  | succ rounds ih =>
      unfold repeatWhile
      apply hcondition.bind
      intro value
      apply (Safe.note _).bind
      intro _
      split
      · exact hbody.bind fun _ => ih
      · exact Safe.pure _

/-- Arguments are evaluated in a row. -/
theorem safe_evaluateAll {ns : List Node} (hns : ∀ n ∈ ns, Safe P (evaluate n)) :
    Safe P (evaluateAll ns) := by
  induction ns with
  | nil => exact Safe.pure []
  | cons n ns ih =>
      rcases List.forall_mem_cons.mp hns with ⟨hn, hns⟩
      unfold evaluateAll
      apply hn.bind
      intro value
      exact (ih hns).bind fun _ => Safe.pure _

/-- Evaluating an expression never faults unless the host does. -/
theorem safe_evaluate (hP : Held P) {n : Node} (h : Evaluable P n) : Safe P (evaluate n) := by
  induction h with
  | literal => exact Safe.pure _
  | grouping _ ih => exact ih
  | reference ht => exact Safe.lookup hP ht
  | assign ht _ ih =>
      unfold evaluate
      apply ih.bind
      intro value
      apply (Safe.assign hP ht value).bind
      intro _
      exact (Safe.note _).bind fun _ => Safe.pure _
  | unary ht ho _ ih =>
      unfold evaluate
      exact ih.bind fun value => Safe.lift fun _ => answers_unary ht ho value
  | binary _ ht ho _ iha ihb =>
      unfold evaluate
      apply iha.bind
      intro left
      exact ihb.bind fun right => Safe.lift fun _ =>
        answers_binary ht ho left right
  | logical _ _ iha ihb =>
      unfold evaluate
      apply iha.bind
      intro left
      -- the right operand is not evaluated where the left one decides
      split
      · exact Safe.pure _
      · exact ihb
  | call _ ht _ ihf ihas =>
      unfold evaluate
      apply ihf.bind
      intro callee
      apply (safe_evaluateAll ihas).bind
      intro arguments
      exact Safe.call callee arguments ht

/-- Statements are executed in a row. -/
theorem safe_executeAll {rounds : Nat} {ns : List Node} (h : ∀ n ∈ ns, Safe P (execute rounds n)) :
    Safe P (executeAll rounds ns) := by
  induction ns with
  | nil => exact Safe.pure ()
  | cons n ns ih =>
      rcases List.forall_mem_cons.mp h with ⟨hn, hns⟩
      unfold executeAll
      exact hn.bind fun _ => ih hns

/-- Executing a statement never faults unless the host does. -/
theorem safe_execute (hP : Held P) (rounds : Nat) {n : Node} (h : Executable P n) :
    Safe P (execute rounds n) := by
  induction h with
  | expression he =>
      unfold execute
      exact (safe_evaluate hP he).discard
  | print he =>
      unfold execute
      exact (safe_evaluate hP he).bind fun _ => Safe.emit _
  | @var t e ht he =>
      have hdeclare : ∀ v, Safe P (do Eval.declare t v; Eval.note (.defined t.text v)) :=
        fun v => (Safe.declare hP ht v).bind fun _ => Safe.note _
      cases e with
      | absent => exact hdeclare .nil
      | _ => exact (safe_evaluate hP (he nofun)).bind hdeclare
  | block _ ih =>
      unfold execute
      exact (safe_executeAll ih).inScope
  | branch hc _ _ iht ihe =>
      unfold execute
      apply (safe_evaluate hP hc).bind
      intro value
      apply (Safe.note _).bind
      intro _
      split
      · exact iht
      · -- a branch without an `else` has the absent node there, which is not run
        split
        · exact Safe.pure ()
        · rename_i habsent
          exact ihe habsent
  | loop hc _ ih =>
      unfold execute
      exact (safe_evaluate hP hc).repeat ih rounds

/-- Running a program never faults unless the host does. -/
theorem safe_runProgram (hP : Held P) (rounds : Nat) {ns : List Node}
    (h : ∀ n ∈ ns, Executable P n) : Safe P (runProgram rounds ns) := by
  induction ns with
  | nil => exact Safe.pure ()
  | cons n ns ih =>
      rcases List.forall_mem_cons.mp h with ⟨hn, hns⟩
      unfold runProgram
      apply (Safe.note _).bind
      intro _
      exact (safe_execute hP rounds hn).bind fun _ => ih hns

end

end Eval

end NovaLang
