import Mathlib
import NovaLang.Proofs.Descent.Sound
import NovaLang.Proofs.Eval.EmptyScope
import NovaLang.Proofs.Eval.Simulation

namespace NovaLang

/-! # What a `for` loop means

A `for` loop is read as a block with a `while` loop, in which the body and the increment
have a block of their own. That block makes no difference: the body is a statement and
declares nothing in it, so its scope stays empty, and every name is found behind it.
-/

/-! ## What is shown apart from scopes -/

/-- The effect tells of a scope. -/
def Effect.isScope : Effect → Bool
  | .noted e => e.isScope
  | .printed _ | .asked _ => false

/-- The effects without those that tell of scopes. -/
def Effect.withoutScopes (es : List Effect) : List Effect := es.filter (!·.isScope)

/-- Since both of them were the machine `base`, two machines have shown the same, apart from
what tells of scopes. -/
def ShowAlike (base m w : Machine) : Prop :=
  ∃ es fs, Effect.withoutScopes es = Effect.withoutScopes fs ∧
    { m with scopes := base.scopes, current := base.current } = base.perform es ∧
    { w with scopes := base.scopes, current := base.current } = base.perform fs

/-- What tells of scopes goes to an open log, or nowhere. -/
def Machine.Quiet (m : Machine) : Prop := m.logOpen = true ∨ m.logLevel < 2

/-- Apart from their scopes and their logs the machines are the same, what they have printed
only if nothing that tells of scopes is printed. -/
structure Machine.Matches (m w : Machine) : Prop where
  clock : m.clock = w.clock
  logLevel : m.logLevel = w.logLevel
  logOpen : m.logOpen = w.logOpen
  host : m.host = w.host
  calls : m.calls = w.calls
  out : m.Quiet → m.out = w.out

namespace Machine

/-- No effect on the outside changes a variable, ... -/
@[simp] theorem scopes_after (m : Machine) (effect : Effect) :
    (m.after effect).scopes = m.scopes := by
  cases effect with
  | printed | asked => rfl
  | noted e =>
      unfold after note
      repeat' split
      all_goals rfl

/-- ... or the scope that is entered. -/
@[simp] theorem current_after (m : Machine) (effect : Effect) :
    (m.after effect).current = m.current := by
  cases effect with
  | printed | asked => rfl
  | noted e =>
      unfold after note
      repeat' split
      all_goals rfl

/-- Whether scopes are logged is settled before the run: no effect changes it, ... -/
theorem quiet_after {m : Machine} {effect : Effect} : (m.after effect).Quiet ↔ m.Quiet := by
  cases effect with
  | printed | asked => rfl
  | noted e =>
      unfold after note
      repeat' split
      all_goals rfl

/-- ... and so no sequence of effects does. -/
theorem quiet_perform {m : Machine} {es : List Effect} : (m.perform es).Quiet ↔ m.Quiet := by
  induction es generalizing m with
  | nil => rfl
  | cons effect es ih => exact ih.trans quiet_after

namespace Matches

variable {m w v : Machine}

theorem refl (m : Machine) : m.Matches m := ⟨rfl, rfl, rfl, rfl, rfl, fun _ => rfl⟩

/-- Machines that match log scopes, or do not, together. -/
theorem quiet (h : m.Matches w) : m.Quiet ↔ w.Quiet := by
  rw [Quiet, Quiet, h.logLevel, h.logOpen]

theorem symm (h : m.Matches w) : w.Matches m :=
  ⟨h.clock.symm, h.logLevel.symm, h.logOpen.symm, h.host.symm, h.calls.symm,
    fun hquiet => (h.out (h.quiet.mpr hquiet)).symm⟩

theorem trans (h : m.Matches w) (h' : w.Matches v) : m.Matches v :=
  ⟨h.clock.trans h'.clock, h.logLevel.trans h'.logLevel, h.logOpen.trans h'.logOpen,
    h.host.trans h'.host, h.calls.trans h'.calls,
    fun hquiet => (h.out hquiet).trans (h'.out (h.quiet.mp hquiet))⟩

/-- What both print, both have printed. -/
theorem print (h : m.Matches w) (text : String) : (m.print text).Matches (w.print text) :=
  ⟨h.clock, h.logLevel, h.logOpen, h.host, h.calls,
    fun hquiet => congrArg (· ++ text) (h.out hquiet)⟩

/-- The host has been called alike, and so it answers alike. -/
theorem ask (h : m.Matches w) (c : Host.Call) :
    (m.ask c).1 = (w.ask c).1 ∧ (m.ask c).2.Matches (w.ask c).2 := by
  have hanswer : m.host.answer m.calls c = w.host.answer w.calls c := by rw [h.host, h.calls]
  refine ⟨congrArg Host.Answer.outcome hanswer, h.clock, h.logLevel, h.logOpen, h.host,
    congrArg (c :: ·) h.calls, fun hquiet => ?_⟩
  exact congrArg₂ (· ++ ·) (h.out hquiet) (congrArg Host.Answer.printed hanswer)

/-- What both log is logged by both, or by neither. -/
theorem note (h : m.Matches w) (e : Event) : (m.note e).Matches (w.note e) := by
  unfold Machine.note
  rw [h.logLevel, h.logOpen]
  split
  · split
    · exact ⟨h.clock, rfl, rfl, h.host, h.calls, fun hquiet => h.out (h.quiet.mpr hquiet)⟩
    · exact h.print _
  · exact h

theorem after (h : m.Matches w) (effect : Effect) : (m.after effect).Matches (w.after effect) := by
  cases effect with
  | noted e => exact h.note e
  | printed text => exact h.print text
  | asked c => exact (h.ask c).2

/-- An effect that tells of a scope is seen in the log at most. -/
theorem after_of_isScope {effect : Effect} (heffect : effect.isScope = true) (m : Machine) :
    (m.after effect).Matches m := by
  cases effect with
  | printed | asked => cases heffect
  | noted e =>
      have hlevel : e.level = 2 := by cases e <;> first | rfl | cases heffect
      change (m.note e).Matches m
      unfold Machine.note
      split
      · split
        · exact ⟨rfl, rfl, rfl, rfl, rfl, fun _ => rfl⟩
        · rename_i hle hclosed
          refine ⟨rfl, rfl, rfl, rfl, rfl, fun hquiet => ?_⟩
          -- if it was logged, then scopes are not quiet
          rcases hquiet with hopen | hlt
          · exact absurd hopen hclosed
          · exact absurd hle (by rw [hlevel]; exact Nat.not_le_of_lt hlt)
      · exact refl m

/-- What tells of scopes may be left out. -/
theorem perform_withoutScopes (h : m.Matches w) (es : List Effect) :
    (m.perform es).Matches (w.perform (Effect.withoutScopes es)) := by
  induction es generalizing m w with
  | nil => exact h
  | cons effect es ih =>
      rw [perform_cons]
      -- an effect of scopes is performed on one side only
      cases heffect : effect.isScope with
      | true =>
          rw [Effect.withoutScopes, List.filter_cons_of_neg (by simp [heffect])]
          exact ih ((after_of_isScope heffect m).trans h)
      | false =>
          rw [Effect.withoutScopes, List.filter_cons_of_pos (by simp [heffect]), perform_cons]
          exact ih (h.after effect)

end Matches

end Machine

namespace ShowAlike

variable {base m w : Machine}

theorem refl (m : Machine) : ShowAlike m m m := ⟨[], [], rfl, rfl, rfl⟩

/-- Sequences of effects that differ in those of scopes keep what is shown alike. -/
theorem perform (h : ShowAlike base m w) (es fs : List Effect)
    (hsame : Effect.withoutScopes es = Effect.withoutScopes fs) :
    ShowAlike base (m.perform es) (w.perform fs) := by
  rcases h with ⟨es', fs', hsame', hm, hw⟩
  refine ⟨es' ++ es, fs' ++ fs, ?_, ?_, ?_⟩
  · rw [Effect.withoutScopes, Effect.withoutScopes, List.filter_append, List.filter_append]
    exact congrArg₂ _ hsame' hsame
  · rw [← Machine.perform_at, hm, Machine.perform_append]
  · rw [← Machine.perform_at, hw, Machine.perform_append]

theorem after (h : ShowAlike base m w) (effect : Effect) :
    ShowAlike base (m.after effect) (w.after effect) :=
  h.perform [effect] [effect] rfl

/-- Whatever scopes two machines enter, they have shown the same. -/
theorem enter (h : ShowAlike base m w) : ShowAlike base m.enter w.enter :=
  h.perform [.noted _] [.noted _] rfl

/-- Leaving a scope shows nothing. -/
theorem leave (h : ShowAlike base m w) (outer outer' : Nat) :
    ShowAlike base (m.leave outer) (w.leave outer') :=
  h.perform [.noted _] [.noted _] rfl

theorem symm (h : ShowAlike base m w) : ShowAlike base w m := by
  rcases h with ⟨es, fs, hsame, hm, hw⟩
  exact ⟨fs, es, hsame.symm, hw, hm⟩

/-- Two machines that have shown the same are the same apart from their scopes and logs. -/
theorem matched (h : ShowAlike base m w) : m.Matches w := by
  rcases h with ⟨es, fs, hsame, hm, hw⟩
  have hshown : (base.perform es).Matches (base.perform fs) := by
    have hes := (Machine.Matches.refl base).perform_withoutScopes es
    have hfs := (Machine.Matches.refl base).perform_withoutScopes fs
    exact hes.trans (hsame ▸ hfs.symm)
  rw [← hm, ← hw] at hshown
  exact ⟨hshown.clock, hshown.logLevel, hshown.logOpen, hshown.host, hshown.calls, hshown.out⟩

/-- Two machines that have shown the same have printed the same, unless what tells of scopes
is printed because the log is closed. -/
theorem out (h : ShowAlike base m w) (hquiet : base.logOpen = true ∨ base.logLevel < 2) :
    m.out = w.out := by
  refine h.matched.out ?_
  rcases h with ⟨es, fs, -, hm, -⟩
  have hes : (base.perform es).Quiet := Machine.quiet_perform.mpr hquiet
  rwa [← hm] at hes

end ShowAlike

namespace Eval

/-! ## Machines side by side -/

/-- The machines have the same scopes, the current one being the last, and have shown the
same. -/
structure SideBySide (base m w : Machine) : Prop where
  shows : ShowAlike base m w
  scopes : w.scopes = m.scopes
  current : w.current = m.current
  last : m.scopes.size = m.current + 1
  ordered : m.scopes.Ordered

/-- The second machine has an empty scope more behind the scope `q`, and otherwise the
machines are alike. Both are within `q`, and within a block they are further inside. -/
structure Apart (base : Machine) (q : Nat) (inside : Bool) (m w : Machine) : Prop where
  shows : ShowAlike base m w
  widened : Scopes.Widened q m.scopes w.scopes
  current : w.current = m.current + 1
  last : m.scopes.size = m.current + 1
  within : q ≤ m.current
  inner : inside = true → q < m.current

variable {base m w : Machine} {q : Nat} {d : Bool}

/-- An effect on both machines keeps them side by side. -/
theorem SideBySide.after (h : SideBySide base m w) (effect : Effect) :
    SideBySide base (m.after effect) (w.after effect) where
  shows := h.shows.after effect
  scopes := by simpa using h.scopes
  current := by simpa using h.current
  last := by simpa using h.last
  ordered := by simpa using h.ordered

/-- The same binding is changed in both machines. -/
theorem SideBySide.define (h : SideBySide base m w) (e : Nat) (name : Name) (v : Value) :
    SideBySide base { m with scopes := m.scopes.define e name v }
      { w with scopes := m.scopes.define e name v } where
  shows := h.shows
  scopes := rfl
  current := h.current
  last := Scopes.size_define.trans h.last
  ordered i p hp := h.ordered i p (Scopes.parent_define ▸ hp)

theorem sideBySide_simulation (base : Machine) : Simulation fun _ => SideBySide base where
  note e h := h.after (.noted e)
  print text h := h.after (.printed text)
  ask c h := ⟨(h.shows.matched.ask c).1, h.after (.asked c)⟩
  clock h := h.shows.matched.clock
  lookup t h := by rw [h.scopes, h.current]
  assign t v := by
    intro m w h
    have hsame : w.scopes.assign w.current t v = m.scopes.assign m.current t v := by
      rw [h.scopes, h.current]
    rw [run_assign, run_assign, hsame]
    cases hassign : m.scopes.assign m.current t v with
    | error i => exact ⟨rfl, h⟩
    | ok s =>
        -- both sides have the same scopes, so the same scope holds the name
        rcases Scopes.assign_eq_ok hassign with ⟨name, holder, -, -, rfl⟩
        exact ⟨rfl, h.define holder name v⟩
  declare t v := by
    intro m w h
    have hsame : w.scopes.declare w.current t v = m.scopes.declare m.current t v := by
      rw [h.scopes, h.current]
    rw [run_declare, run_declare, hsame]
    cases hdeclare : m.scopes.declare m.current t v with
    | error i => exact ⟨rfl, h⟩
    | ok s =>
        rcases Scopes.declare_eq_ok hdeclare with ⟨name, -, rfl⟩
        exact ⟨rfl, h.define m.current name v⟩
  enter {d m w} h := {
    shows := h.shows.enter
    scopes := by
      change w.scopes.create (some w.current) = m.scopes.create (some m.current)
      rw [h.scopes, h.current]
    current := by
      change w.scopes.size = m.scopes.size
      rw [h.scopes]
    last := Scopes.size_create
    ordered := (Machine.enter_proper ⟨by have := h.last; omega, h.ordered⟩).ordered }
  leave {d m w m' w' A D} h h' hm hw := {
    shows := h'.shows.leave _ _
    scopes := congrArg Scopes.dropLast h'.scopes
    current := h.current
    last := by
      change m'.scopes.dropLast.size = m.current + 1
      have hsize : m'.scopes.size = m.scopes.size + 1 := hm.size.trans Scopes.size_create
      rw [Scopes.size_dropLast, hsize, Nat.add_sub_cancel, h.last]
    -- the scope that is dropped was the last one, so the others keep their parents
    ordered := by
      intro i p hp
      change m'.scopes.dropLast.parent? i = some p at hp
      rw [Scopes.parent_dropLast] at hp
      split at hp
      · exact h'.ordered i p hp
      · cases hp }

/-- It also keeps them apart by one scope. -/
theorem Apart.after (h : Apart base q d m w) (effect : Effect) :
    Apart base q d (m.after effect) (w.after effect) where
  shows := h.shows.after effect
  widened := by simpa using h.widened
  current := by simpa using h.current
  last := by simpa using h.last
  within := by simpa using h.within
  inner := by simpa using h.inner

theorem apart_simulation (base : Machine) (q : Nat) : Simulation (Apart base q) where
  note e h := h.after (.noted e)
  print text h := h.after (.printed text)
  ask c h := ⟨(h.shows.matched.ask c).1, h.after (.asked c)⟩
  clock h := h.shows.matched.clock
  lookup t h := by
    rw [h.current]
    exact h.widened.lookup h.within (by have := h.last; omega) t
  assign t v := by
    intro m w h
    rw [run_assign, run_assign]
    -- one side has a scope more, which holds no name, so a name is found in the same place
    rcases h.widened.assign h.within (by have := h.last; omega) t v with
      ⟨i, hm, hw⟩ | ⟨s, s', hm, hw, hsize, hwidened⟩
    · rw [← h.current] at hw
      rw [hm, hw]
      exact ⟨rfl, h⟩
    · rw [← h.current] at hw
      rw [hm, hw]
      exact ⟨rfl, h.shows, hwidened, h.current, hsize.trans h.last, h.within, h.inner⟩
  declare t v := by
    intro m w h
    have hinner := h.inner rfl
    rw [run_declare, run_declare]
    unfold Scopes.declare
    cases Scopes.nameOf t with
    | error i => exact ⟨rfl, h⟩
    | ok name =>
        -- the body declares nothing unless it is inside of a scope that both sides have entered
        have hwidened := h.widened.define m.current name v
        rw [Scopes.lift_of_lt hinner, ← h.current] at hwidened
        exact ⟨rfl, h.shows, hwidened, h.current, Scopes.size_define.trans h.last, h.within,
          h.inner⟩
  enter {d m w} h := {
    shows := h.shows.enter
    widened := by
      have hcreate := h.widened.create h.within (by have := h.last; omega)
      rwa [← h.current] at hcreate
    current := h.widened.size
    last := Scopes.size_create
    within := Nat.le_of_lt h.widened.lt_size
    inner _ := h.widened.lt_size }
  leave {d m w m' w' A D} h h' hm hw := by
    have hsize : m'.scopes.size = m.scopes.size + 1 := hm.size.trans Scopes.size_create
    have hlt := h.widened.lt_size
    exact {
      shows := h'.shows.leave _ _
      widened := h'.widened.dropLast (by omega)
      current := h.current
      last := by
        change m'.scopes.dropLast.size = m.current + 1
        rw [Scopes.size_dropLast, hsize, Nat.add_sub_cancel, h.last]
      within := h.within
      inner := h.inner }

/-- A machine that enters a scope has one scope more. -/
theorem SideBySide.enter_apart (h : SideBySide base m w) :
    Apart base m.current false m w.enter where
  shows := h.shows.perform [] [.noted _] rfl
  widened := by
    change Scopes.Widened m.current m.scopes (w.scopes.create (some w.current))
    rw [h.scopes, h.current]
    exact Scopes.widened_create h.ordered h.last
  current := by
    change w.scopes.size = m.current + 1
    rw [h.scopes, h.last]
  last := h.last
  within := Nat.le_refl _
  inner := nofun

/-- When it leaves that scope, nothing is left of it. -/
theorem Apart.leave_sideBySide (h : Apart base q d m w) (hq : m.current = q) :
    SideBySide base m (w.leave q) where
  shows := h.shows.perform [] [.noted _] rfl
  scopes := h.widened.dropLast_eq (hq ▸ h.last)
  current := hq.symm
  last := h.last
  ordered := h.widened.ordered

/-! ## Loops -/

/-- Executes a statement, if there is one. -/
def executeAny (rounds : Nat) : Node → Exec Unit
  | .absent => return
  | s => execute rounds s

/-- Evaluates an expression, if there is one. -/
def evaluateAny : Node → Exec Unit
  | .absent => return
  | e => discard (evaluate e)

/-- The value of a condition, which is true if there is none. -/
def evaluateTest : Node → Exec Value
  | .absent => return .bool true
  | e => evaluate e

/-- What a `for` loop means: in a new scope the initializer is executed, and while the
condition holds, the body is executed and the increment evaluated in that scope. -/
def forReference (rounds : Nat) (initializer condition increment body : Node) : Exec Unit :=
  inScope do
    executeAny rounds initializer
    repeatWhile (evaluateTest condition) (do
      execute rounds body
      evaluateAny increment) rounds

/-- A list of one statement is run as that statement. -/
theorem executeAll_singleton (rounds : Nat) (s : Node) :
    executeAll rounds [s] = execute rounds s := by
  rw [executeAll, executeAll]
  exact bind_pure_unit

/-- What a loop repeats, in its block, goes side by side with the body and the increment
without a block, as the body declares nothing. -/
theorem forRounds_simulates (base : Machine) (rounds : Nat) {n b : Node} (hb : b.declared = []) :
    Simulates (SideBySide base) (do execute rounds b; evaluateAny n)
      (inScope (executeAll rounds (Descent.forRounds n b))) := by
  intro m w h
  -- one round: the block around body and step is the scope that the other side does not enter
  have hinner : Simulates (Apart base m.current false) (do execute rounds b; evaluateAny n)
      (executeAll rounds (Descent.forRounds n b)) := by
    have hapart := apart_simulation base m.current
    have hbody := hapart.execute rounds b false fun _ => hb
    cases n with
    | absent => exact .bind hbody fun _ => .pure ()
    | _ =>
        refine .bind hbody fun _ => ?_
        rw [executeAll_singleton, execute]
        exact (hapart.evaluate _).discard
  rcases hinner m w.enter h.enter_apart with ⟨houtcome, hafter⟩
  rw [run_inScope]
  refine ⟨houtcome, ?_⟩
  rw [h.current]
  refine hafter.leave_sideBySide ?_
  have hframe : Frame _ _ w.enter ((executeAll rounds (Descent.forRounds n b)).run w.enter).2 :=
    frame_of_executeAll rfl
  have hcurrent := hafter.current.symm.trans (hframe.current.trans h.enter_apart.current)
  exact Nat.succ.inj hcurrent

/-- Two runs from a machine agree: they end in the same way and with the same scopes, and
they have shown the same apart from what tells of scopes, so that they print the same unless
that is printed. -/
structure Agree (m : Machine) (x y : Except Interrupt Unit × Machine) : Prop where
  outcome : x.1 = y.1
  scopes : x.2.scopes = y.2.scopes
  current : x.2.current = y.2.current
  shows : ShowAlike m x.2 y.2
  out : m.logOpen = true ∨ m.logLevel < 2 → x.2.out = y.2.out

/-- A condition that is left out is one that holds. -/
theorem evaluateTest_simulates (base : Machine) (c : Node) :
    Simulates (SideBySide base) (evaluateTest c) (evaluate (Descent.forTest c)) := by
  cases c with
  | absent => exact .pure _
  | _ => exact (sideBySide_simulation base).evaluate (d := true) _

/-- The block of a `for` loop goes side by side with what the loop means. -/
theorem forBlock_simulates (base : Machine) (rounds : Nat) (i c n : Node) {b : Node}
    (hb : b.declared = []) :
    ∃ ss, Descent.forLoop i c n b = .block ss ∧
      Simulates (SideBySide base) (do
        executeAny rounds i
        repeatWhile (evaluateTest c) (do execute rounds b; evaluateAny n) rounds)
        (executeAll rounds ss) := by
  have hside := sideBySide_simulation base
  -- the rounds are those of the `while` loop that the desugared tree holds
  have hloop : Simulates (SideBySide base)
      (repeatWhile (evaluateTest c) (do execute rounds b; evaluateAny n) rounds)
      (executeAll rounds [.loop (Descent.forTest c) (.block (Descent.forRounds n b))]) := by
    rw [executeAll_singleton, execute, execute]
    exact .repeatWhile (hside.noted (d := true)) (evaluateTest_simulates base c)
      (forRounds_simulates base rounds hb) rounds
  rw [Descent.forLoop_eq]
  cases i with
  | absent => exact ⟨_, rfl, hloop⟩
  | _ =>
      refine ⟨_, rfl, ?_⟩
      rw [executeAll]
      exact .bind (hside.execute rounds _ true (by simp)) fun _ => hloop

/-- A `for` loop whose body declares nothing does what it means. -/
theorem forLoop_agree (rounds : Nat) (i c n : Node) {b : Node} (hb : b.declared = []) {m : Machine}
    (hm : m.Proper) : Agree m ((execute rounds (Descent.forLoop i c n b)).run m)
      ((forReference rounds i c n b).run m) := by
  rcases forBlock_simulates m rounds i c n hb with ⟨ss, hblock, hsimulates⟩
  -- inside of the block both sides have the same scopes, the innermost of them new
  have henter : SideBySide m m.enter m.enter := {
    shows := (ShowAlike.refl m).enter
    scopes := rfl
    current := rfl
    last := Scopes.size_create
    ordered := (Machine.enter_proper hm).ordered }
  rcases hsimulates m.enter m.enter henter with ⟨houtcome, hafter⟩
  have hshows := hafter.shows.symm.leave m.current m.current
  rw [hblock, execute, forReference, run_inScope, run_inScope]
  exact ⟨houtcome.symm, congrArg Scopes.dropLast hafter.scopes, rfl, hshows, hshows.out⟩

end Eval

/-! ## The loops that are read -/

namespace Phrase

/-- The tokens are a `for` loop with its four clauses. -/
inductive ForClauses : (ts : List Token) → (initializer condition increment body : Node) → Prop
  | mk {d : Bool} {f l s r : Token} {is cs ns bs : List Token} {i c n b : Node} :
    f.kind = .kwFor → l.kind = .leftParen → Initializer is i → Maybe cs c →
    s.kind = .semicolon → Maybe ns n → r.kind = .rightParen → Stmt .statement d bs b →
    ForClauses (f :: l :: is ++ cs ++ s :: ns ++ r :: bs) i c n b

/-- A statement declares nothing outside of its blocks. -/
theorem Stmt.declared {d : Bool} {ts : List Token} {s : Node} (h : Stmt .statement d ts s) :
    s.declared = [] := by
  generalize hp : Part.statement = p at h
  induction h with
  | exprStmt h => cases h; rfl
  | printStmt h => cases h; rfl
  | @forLoop _ _ _ _ _ _ _ _ _ i => cases i <;> rfl
  | block => rfl
  | whileLoop _ _ _ _ _ ih => exact ih hp
  | ifAlone _ _ _ _ _ ih => exact List.append_eq_nil_iff.mpr ⟨ih hp, rfl⟩
  | ifElse _ _ _ _ _ _ _ iht ihe => exact List.append_eq_nil_iff.mpr ⟨iht hp, ihe hp⟩
  | varDecl | statement | none | cons => cases hp

/-- A statement that begins with `for` is a `for` loop. -/
theorem Stmt.for_clauses {d : Bool} {f : Token} {ts : List Token} {s : Node}
    (h : Stmt .statement d (f :: ts) s) (hf : f.kind = .kwFor) :
    ∃ i c n b, s = Descent.forLoop i c n b ∧ ForClauses (f :: ts) i c n b ∧ b.declared = [] := by
  generalize hts : f :: ts = us at h
  cases h with
  | forLoop hf' hl hi hc hs hn hr hb =>
      exact ⟨_, _, _, _, rfl, .mk hf' hl hi hc hs hn hr hb, hb.declared⟩
  -- no other statement starts with `for`
  | exprStmt h =>
      rcases h.first with ⟨t, us, rfl, ht⟩
      obtain ⟨rfl, rfl⟩ := List.cons.inj hts
      rw [hf] at ht
      exact absurd ht (by decide)
  | printStmt h =>
      rcases h.first with ⟨t, us, rfl, ht⟩
      obtain ⟨rfl, rfl⟩ := List.cons.inj hts
      rw [hf] at ht
      exact absurd ht (by decide)
  | whileLoop hw | ifAlone hw | ifElse hw | block hw =>
      obtain ⟨rfl, -⟩ := List.cons.inj hts
      cases hf.symm.trans hw

end Phrase

namespace Eval

open Descent Phrase

/-- Wherever a statement that begins with `for` is read without a complaint, it is a loop with
four clauses whose body declares nothing outside of its blocks, and from every machine its
tree does what the loop means. -/
theorem for_read_means {bound : Nat} {c c' : Cursor} {f : Token} {rest : List Token} {s : Node}
    (hready : c.Ready) (hbound : c.rest.length ≤ bound) (hrest : c.rest = f :: rest)
    (hf : f.kind = .kwFor) (hrun : (statementWithin bound).run c = (.ok s, c'))
    (hquiet : c'.report = c.report) :
    ∃ ts i test n b, c.rest = ts ++ c'.rest ∧ ForClauses ts i test n b ∧ b.declared = [] ∧
      s = forLoop i test n b ∧ ∀ (rounds : Nat) (m : Machine), m.Proper →
        Agree m ((execute rounds s).run m) ((forReference rounds i test n b).run m) := by
  cases statementWithin_passes bound c hbound hready with
  | stops hstop => cases hrun.symm.trans hstop
  | @yields ts ds s' c'' hrun' hmoved hpost =>
      obtain ⟨hs, rfl⟩ := Prod.mk.inj (hrun'.symm.trans hrun)
      obtain rfl := Except.ok.inj hs
      -- nothing is reported, so what was read is a statement of the grammar
      rcases hpost (Report.addAll_eq_self.mp (hmoved.report.symm.trans hquiet)) with ⟨d, hstmt, -⟩
      rcases hstmt.first nofun with ⟨t, us, rfl, -⟩
      obtain ⟨rfl, -⟩ := List.cons.inj (hrest.symm.trans hmoved.rest)
      rcases hstmt.for_clauses hf with ⟨i, test, n, b, rfl, hclauses, hb⟩
      exact ⟨_, i, test, n, b, hmoved.rest, hclauses, hb, rfl,
        fun rounds m hm => forLoop_agree rounds i test n hb hm⟩

/-- The tokens of `for (var i = a; i; i = nil) print i;` in front of an end token. -/
def sampleFor : List Token :=
  [.scanned .kwFor "for" .nil 1, .scanned .leftParen "(" .nil 1, .scanned .kwVar "var" .nil 1,
    .scanned .identifier "i" .nil 1, .scanned .equal "=" .nil 1, .scanned .identifier "a" .nil 1,
    .scanned .semicolon ";" .nil 1, .scanned .identifier "i" .nil 1,
    .scanned .semicolon ";" .nil 1, .scanned .identifier "i" .nil 1, .scanned .equal "=" .nil 1,
    .scanned .kwNil "nil" .nil 1, .scanned .rightParen ")" .nil 1,
    .scanned .kwPrint "print" .nil 1, .scanned .identifier "i" .nil 1,
    .scanned .semicolon ";" .nil 1, .scanned .eof "" .nil 1]

/-- The tree of `sampleFor`. -/
def sampleForTree : Node :=
  forLoop (.var (.scanned .identifier "i" .nil 1) (.reference (.scanned .identifier "a" .nil 1)))
    (.reference (.scanned .identifier "i" .nil 1))
    (.assign (.scanned .identifier "i" .nil 1) (.literal .nil))
    (.print (.reference (.scanned .identifier "i" .nil 1)))

theorem for_read_means_sample :
    (statementWithin 17).run ⟨[], sampleFor, {}⟩ =
      (.ok sampleForTree,
        ⟨(sampleFor.take 16).reverse, [.scanned .eof "" .nil 1], {}⟩) ∧
    (Machine.new [.clock] 3 0).Proper ∧
    ∃ i test n b, b.declared = [] ∧ sampleForTree = forLoop i test n b ∧
      Agree (Machine.new [.clock] 3 0)
        ((execute 5 sampleForTree).run (Machine.new [.clock] 3 0))
        ((forReference 5 i test n b).run (Machine.new [.clock] 3 0)) := by
  have hready : (⟨[], sampleFor, {}⟩ : Cursor).Ready :=
    ⟨.scanned .eof "" .nil 1, by simp [sampleFor], rfl⟩
  have hrun : (statementWithin 17).run ⟨[], sampleFor, {}⟩ = (.ok sampleForTree,
    ⟨(sampleFor.take 16).reverse, [.scanned .eof "" .nil 1], {}⟩) := by cbv
  have hproper := Machine.new_proper [.clock] 3 0
  rcases for_read_means hready (Nat.le_refl 17) rfl rfl hrun rfl with
    ⟨_, i, test, n, b, -, -, hb, hs, hagree⟩
  exact ⟨hrun, hproper, i, test, n, b, hb, hs, hagree 5 _ hproper⟩

end Eval

end NovaLang
