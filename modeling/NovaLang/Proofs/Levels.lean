import NovaLang.Proofs.Eval.Simulation
import NovaLang.Session

namespace NovaLang

/-! # Log levels

A run does not look at its log. At a lower level it does what it does at a higher one, and
its log holds those events of the other log that show at the lower level.
-/

/-! ## Lower levels -/

/-- The log without the events that do not show at a level. -/
def Machine.shown (m : Machine) (level : Nat) : Array Event :=
  m.log.filter fun e => decide (e.level ≤ level)

/-- The machine as it is at a lower level. -/
def Machine.lower (m : Machine) (level : Nat) : Machine :=
  { m with logLevel := level, log := m.shown level }

/-- The log is open, and its level is not below the given one. -/
structure Machine.Logs (m : Machine) (level : Nat) : Prop where
  isOpen : m.logOpen = true
  le : level ≤ m.logLevel

namespace Machine

variable {m : Machine} {k : Nat}

/-- A machine that logs goes on logging. -/
theorem Logs.note (h : m.Logs k) (e : Event) : (m.note e).Logs k := by
  unfold Machine.note
  rw [if_pos h.isOpen]
  split
  · exact ⟨h.isOpen, h.le⟩
  · exact h

/-- What is noted at a lower level is the part of it that is within the level. -/
theorem lower_note (h : m.Logs k) (e : Event) : (m.lower k).note e = (m.note e).lower k := by
  unfold Machine.note lower shown
  rw [if_pos h.isOpen]
  dsimp only
  rw [if_pos h.isOpen]
  by_cases hlow : e.level ≤ k
  · rw [if_pos hlow, if_pos (Nat.le_trans hlow h.le),
      Array.filter_push_of_pos (by simpa using hlow) (Array.size_push _)]
  · rw [if_neg hlow]
    -- what does not show at the lower level may show at the higher one
    split
    · rw [Array.filter_push_of_neg (by simpa using hlow) (Array.size_push _)]
    · rfl

/-- So does one that enters a scope, ... -/
theorem Logs.enter (h : m.Logs k) : m.enter.Logs k := ⟨(h.note _).isOpen, (h.note _).le⟩

/-- Entering a scope is noted at a lower level, or not. -/
theorem lower_enter (h : m.Logs k) : (m.lower k).enter = m.enter.lower k := by
  unfold enter
  dsimp only
  rw [show (m.lower k).scopes = m.scopes from rfl, show (m.lower k).current = m.current from rfl,
    lower_note h]
  rfl

/-- ... or leaves it. -/
theorem Logs.leave (h : m.Logs k) (outer : Nat) : (m.leave outer).Logs k :=
  ⟨(h.note _).isOpen, (h.note _).le⟩

/-- So is leaving it. -/
theorem lower_leave (h : m.Logs k) (outer : Nat) :
    (m.lower k).leave outer = (m.leave outer).lower k := by
  unfold leave
  dsimp only
  rw [show (m.lower k).scopes = m.scopes from rfl, show (m.lower k).current = m.current from rfl,
    lower_note h]
  rfl

end Machine

/-! ## Runs at lower levels -/

/-- The log of the first machine is open, and the second machine is the first one at a lower
level. -/
structure Lowered (k : Nat) (m w : Machine) : Prop where
  logs : m.Logs k
  eq : w = m.lower k

/-- Every step does at a lower level what it does at a higher one. -/
theorem lowered_simulation (k : Nat) : Eval.Simulation fun _ => Lowered k where
  note e h := ⟨h.logs.note e, h.eq ▸ Machine.lower_note h.logs e⟩
  print text h := ⟨⟨h.logs.isOpen, h.logs.le⟩, h.eq ▸ rfl⟩
  ask c h := by
    obtain rfl := h.eq
    exact ⟨rfl, ⟨h.logs.isOpen, h.logs.le⟩, rfl⟩
  clock h := h.eq ▸ rfl
  lookup t h := h.eq ▸ rfl
  assign t v := by
    rintro m w ⟨hlogs, rfl⟩
    have hscopes : (m.lower k).scopes.assign (m.lower k).current t v =
        m.scopes.assign m.current t v := rfl
    rw [Eval.run_assign, Eval.run_assign, hscopes]
    -- the level has no influence on the variables
    cases m.scopes.assign m.current t v with
    | error i => exact ⟨rfl, hlogs, rfl⟩
    | ok scopes => exact ⟨rfl, ⟨hlogs.isOpen, hlogs.le⟩, rfl⟩
  declare t v := by
    rintro m w ⟨hlogs, rfl⟩
    have hscopes : (m.lower k).scopes.declare (m.lower k).current t v =
        m.scopes.declare m.current t v := rfl
    rw [Eval.run_declare, Eval.run_declare, hscopes]
    cases m.scopes.declare m.current t v with
    | error i => exact ⟨rfl, hlogs, rfl⟩
    | ok scopes => exact ⟨rfl, ⟨hlogs.isOpen, hlogs.le⟩, rfl⟩
  enter h := ⟨h.logs.enter, h.eq ▸ Machine.lower_enter h.logs⟩
  leave {d m w m' w' A D} h h' _ _ := by
    obtain rfl := h.eq
    obtain rfl := h'.eq
    exact ⟨h'.logs.leave _, Machine.lower_leave h'.logs _⟩

/-! ## Sessions at lower levels -/

namespace Session

/-- A source text, the front end that reads it, and how many rounds its loops may have. -/
structure Source where
  rounds : Nat
  frontEnd : FrontEnd
  text : String

/-- Runs some source texts one after another, whatever each of them ends with. -/
def runAll (s : Session) : List Source → List (Except Halt Bool) × Session
  | [] => ([], s)
  | source :: sources =>
    let (result, s) := s.runSource source.rounds source.frontEnd source.text
    let (results, s) := runAll s sources
    (result :: results, s)

/-- The session as it is at a lower log level. -/
def lower (s : Session) (level : Nat) : Session := { s with machine := s.machine.lower level }

variable {s : Session} {k : Nat}

/-- A program is interpreted alike at a lower level. -/
theorem interpret_lower (h : s.machine.Logs k) (rounds : Nat) (ss : List Node) :
    (s.lower k).interpret rounds ss =
      ((s.interpret rounds ss).1, (s.interpret rounds ss).2.lower k) ∧
    (s.interpret rounds ss).2.machine.Logs k := by
  rcases (lowered_simulation k).runProgram rounds ss s.machine (s.lower k).machine ⟨h, rfl⟩ with
    ⟨houtcome, hlogs, hmachine⟩
  have hrun : (Eval.runProgram rounds ss).run (s.lower k).machine =
      (((Eval.runProgram rounds ss).run s.machine).1,
        ((Eval.runProgram rounds ss).run s.machine).2.lower k) :=
    Prod.ext houtcome.symm hmachine
  unfold interpret step
  rw [hrun]
  revert hlogs
  rcases (Eval.runProgram rounds ss).run s.machine with ⟨(e | f | _) | _, m⟩
  · intro hlogs
    -- the error that ends the run is an event as well
    refine ⟨?_, hlogs.note _⟩
    exact congrArg (fun m => (Except.ok false, Session.mk m _)) (Machine.lower_note hlogs _)
  · exact fun hlogs => ⟨rfl, hlogs⟩
  · exact fun hlogs => ⟨rfl, hlogs⟩
  · exact fun hlogs => ⟨rfl, hlogs⟩

/-- A source is run alike at a lower level. -/
theorem runSource_lower (h : s.machine.Logs k) (rounds : Nat) (f : FrontEnd) (text : String) :
    (s.lower k).runSource rounds f text =
      ((s.runSource rounds f text).1, (s.runSource rounds f text).2.lower k) ∧
    (s.runSource rounds f text).2.machine.Logs k := by
  unfold runSource
  rw [show (s.lower k).report = s.report from rfl]
  rcases f.read text s.report with ⟨program, report⟩
  dsimp only
  split
  · exact ⟨rfl, h⟩
  · exact interpret_lower (s := { s with report }) h rounds program

/-- Source texts in a row are run alike at a lower level. -/
theorem runAll_lower (h : s.machine.Logs k) (sources : List Source) :
    (s.lower k).runAll sources = ((s.runAll sources).1, (s.runAll sources).2.lower k) := by
  induction sources generalizing s with
  | nil => rfl
  | cons source sources ih =>
      rcases runSource_lower h source.rounds source.frontEnd source.text with ⟨hrun, hlogs⟩
      simp only [runAll, hrun, ih hlogs]

/-- A new session at a lower level is the new session, lowered. -/
theorem new_lower (natives : List Native) {m n : Nat} (clock : Float) (report : Report)
    (host : Host) : (Session.new natives n clock report host).lower m =
      Session.new natives m clock report host := rfl

/-- Of two lists of results and sessions the second is the first at a higher log level: all
that a program or a user may see besides the log is the same. -/
structure Quieter (level : Nat) (low high : List (Except Halt Bool) × Session) : Prop where
  results : low.1 = high.1
  out : low.2.machine.out = high.2.machine.out
  /-- What has been written of errors, and what is remembered of them. -/
  report : low.2.report = high.2.report
  globals : low.2.machine.globals = high.2.machine.globals
  /-- The log is what the other one shows at the lower level. -/
  shown : low.2.machine.log = high.2.machine.shown level
  messages : (low.2.machine.log.toList.map Event.text).Sublist
    (high.2.machine.log.toList.map Event.text)

/-- Sessions that differ in their log level alone run all source texts alike, and the log of
the lower level is part of the log of the higher one. -/
theorem runAll_quieter (natives : List Native) {m n : Nat} (h : m ≤ n) (clock : Float)
    (report : Report) (host : Host) (sources : List Source) :
    Quieter m ((Session.new natives m clock report host).runAll sources)
      ((Session.new natives n clock report host).runAll sources) := by
  have hlogs : (Session.new natives n clock report host).machine.Logs m := ⟨rfl, h⟩
  have hrun := runAll_lower hlogs sources
  rw [new_lower] at hrun
  rw [hrun]
  refine ⟨rfl, rfl, rfl, rfl, rfl, List.Sublist.map _ ?_⟩
  change (Machine.shown _ m).toList.Sublist _
  rw [Machine.shown, Array.toList_filter]
  exact List.filter_sublist

/-- A text with a loop and a block, and one with an error at the end of the run. -/
def loopThenError : List Source :=
  [⟨3, .descent, "var a = true; while (a) { print a; a = false; }"⟩, ⟨1, .descent, "print b;"⟩]

theorem runAll_quieter_loop :
    1 ≤ 3 ∧
    Quieter 1 ((Session.new Native.standard 1 0 {}).runAll loopThenError)
      ((Session.new Native.standard 3 0 {}).runAll loopThenError) ∧
    ((Session.new Native.standard 1 0 {}).runAll loopThenError).1.map Except.toOption =
      [some true, some false] ∧
    ((Session.new Native.standard 1 0 {}).runAll loopThenError).2.machine.log.size = 4 ∧
    ((Session.new Native.standard 3 0 {}).runAll loopThenError).2.machine.log.size = 10 :=
  ⟨by decide, runAll_quieter Native.standard (by decide) 0 {} .idle loopThenError,
    by decide +kernel, by decide +kernel, by decide +kernel⟩

end Session

end NovaLang
