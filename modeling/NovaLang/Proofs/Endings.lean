import NovaLang.CommandLine
import NovaLang.Proofs.Eval.Soundness
import NovaLang.Proofs.Files
import NovaLang.Proofs.FrontEnds

namespace NovaLang

open Grammar Phrase

/-! # How a run ends

A run of a source text that ends at all ends in one of three ways: the text is refused for
its static errors, the run stops at a run-time error on one of its lines, or it ends well.
No run faults.
-/

/-! ## What is read -/

/-- The token is one of a text whose last line is the given one. -/
def Token.OnLines (last : Int) (t : Token) : Prop :=
  ∃ text line, t.lexeme = .str text ∧ t.line = .int line ∧ 1 ≤ line ∧ line ≤ last

/-- Lines of the source are kept by whatever holds tokens. -/
theorem Token.held_onLines (last : Int) : Eval.Held (Token.OnLines last) := by
  rintro t ⟨text, line, htext, -⟩
  exact ⟨text, by rw [Scopes.nameOf, htext]; rfl⟩

/-- A lexeme of the source has its token on a line of it. -/
theorem onLines_scanned {last : Int} {l : Lexeme} (h : l.Within 1 last) :
    l.scanned.OnLines last := by
  have habove := h.above
  exact ⟨_, _, rfl, rfl, by omega, h.below⟩

/-- The last line of a text. -/
def lastLine (source : String) : Int := 1 + Text.lineBreaks source.toList

namespace Report

/-- With a report there was an error. -/
theorem hadError_addAll (r : Report) {ds : List Diagnostic} (h : ds ≠ []) :
    (r.addAll ds).hadError = true := by
  cases ds with
  | nil => exact absurd rfl h
  | cons d ds =>
      -- the first one raises the flag, and the others leave it up
      have hstays : ∀ (ds : List Diagnostic) (r : Report), r.hadError = true →
          (r.addAll ds).hadError = true := by
        intro ds
        induction ds with
        | nil => exact fun _ h => h
        | cons d ds ih => exact fun r _ => ih (r.addStatic d) rfl
      exact hstays ds (r.addStatic d) rfl

/-- No report of the parser is one of a run. -/
theorem hadRuntimeError_addAll (r : Report) (ds : List Diagnostic) :
    (r.addAll ds).hadRuntimeError = r.hadRuntimeError := by
  induction ds generalizing r with
  | nil => rfl
  | cons d ds ih => exact ih (r.addStatic d)

end Report

/-- A front end reads a program of lexemes on the lines of the text, or it reports static
errors. -/
theorem FrontEnd.read_lexemes (f : FrontEnd) (source : String) (r : Report) :
    (∃ ls : List Lexeme, (∀ l ∈ ls, l.Within 1 (lastLine source)) ∧
      Program (ls.map Lexeme.scanned) (f.read source r).1 ∧ (f.read source r).2 = r) ∨
      ∃ ds ≠ [], (f.read source r).2 = r.addAll ds := by
  cases f with
  | descent =>
      rcases descent_read_cases source r with ⟨ls, ⟨hspells, hprogram⟩, hreport⟩ | hstatic
      · exact .inl ⟨ls, hspells.within, hprogram, hreport⟩
      · exact .inr hstatic
  | grammar =>
      cases hread : Grammar.read source with
      | error e =>
          refine .inr ⟨[⟨.line e.line, e.complaint⟩], by simp, ?_⟩
          simp only [FrontEnd.read, hread]
          rfl
      | ok ss =>
          rcases read_eq_ok_iff.mp hread with ⟨t, htree, hmeaning⟩
          rcases program_of_tree htree hmeaning with ⟨_, ⟨⟩, hprogram⟩
          have hcut := (Tree.ofSource_sound htree).2.2
          simp only [FrontEnd.read, hread]
          exact .inl ⟨t.leaves, hcut.within, hprogram, trivial⟩

/-- A front end reads a program of tokens on the lines of the text, or it reports static
errors. -/
theorem FrontEnd.read_cases (f : FrontEnd) (source : String) (r : Report) :
    (∃ ts, (∀ t ∈ ts, t.OnLines (lastLine source)) ∧ Program ts (f.read source r).1 ∧
      (f.read source r).2 = r) ∨
      ∃ ds ≠ [], (f.read source r).2 = r.addAll ds := by
  rcases f.read_lexemes source r with ⟨ls, hls, hread⟩ | hstatic
  · exact .inl ⟨_, List.forall_mem_map.mpr fun l hl => onLines_scanned (hls l hl), hread⟩
  · exact .inr hstatic

/-! ## The three endings -/

/-- How a run of a source text ends. -/
inductive Ending where
  /-- The text has static errors and is not run. -/
  | refused
  /-- The run stops at a run-time error. -/
  | stopped
  /-- The run ends well. -/
  | finished
  deriving DecidableEq, Repr

namespace Ending

/-- The status of a command that ends so. -/
def status : Ending → Nat
  | .refused => 65
  | .stopped => 70
  | .finished => 0

/-- What a new session has printed and reported when a run ends so. -/
def Describes (source : String) (s : Session) : Ending → Prop
  | .refused => (∃ ds ≠ [], s.report.entries = ds.map .static) ∧ s.machine.out = "" ∧
    s.report.hadError = true ∧ s.report.hadRuntimeError = false
  | .stopped => (∃ e line, s.report.entries = [.runtime e] ∧ 1 ≤ line ∧ line ≤ lastLine source ∧
      e.text = e.cause.message ++ "\n[line " ++ toString line ++ "]") ∧
    s.report.hadError = false ∧ s.report.hadRuntimeError = true
  | .finished => s.report.text = "" ∧ s.report.hadError = false ∧ s.report.hadRuntimeError = false

/-- A session ends in one way at most. -/
theorem describes_unique {source : String} {s : Session} {e e' : Ending}
    (h : e.Describes source s) (h' : e'.Describes source s) : e = e' := by
  cases e <;> cases e' <;> first | rfl | simp_all [Describes]

/-- The status tells how it ended. -/
theorem status_of_describes {source : String} {s : Session} {e : Ending}
    (h : e.Describes source s) : CommandLine.statusOf s.report = e.status := by
  unfold CommandLine.statusOf
  cases e with
  | refused => rw [if_pos h.2.2.1]; rfl
  | stopped => rw [h.2.1, if_neg Bool.false_ne_true, if_pos h.2.2]; rfl
  | finished => rw [h.2.1, h.2.2, if_neg Bool.false_ne_true, if_neg Bool.false_ne_true]; rfl

end Ending

namespace Session

variable {rounds : Nat}

/-- A session with nothing printed or reported, whose host fails no call. -/
structure Fresh (s : Session) : Prop where
  out : s.machine.out = ""
  report : s.report = {}
  host (f : Fault) : ¬ s.machine.host.Fails f

/-- A program of tokens on the lines of a text ends well, or stops on one of the lines. -/
theorem interpret_ends {s : Session} {source : String} {ts : List Token} {ss : List Node}
    (hs : s.Fresh) (hprogram : Program ts ss) (hts : ∀ t ∈ ts, t.OnLines (lastLine source))
    (hends : (s.interpret rounds ss).1 ≠ .error .endless) :
    (∃ ok, (s.interpret rounds ss).1 = .ok ok) ∧
      ∃ e : Ending, e.Describes source (s.interpret rounds ss).2 := by
  have hsafe := (Eval.safe_runProgram (Token.held_onLines _) rounds
    (hprogram.executable hts)).answers s.machine
  revert hends
  unfold interpret step
  revert hsafe
  rcases (Eval.runProgram rounds ss).run s.machine with ⟨outcome, m⟩
  intro hsafe
  rcases outcome with i | _
  · -- of the three interrupts one is reported, one cannot be, and one has been ruled out
    cases i with
    | runtime e =>
        rcases hsafe with ⟨text, line, -, hline, habove, hbelow⟩
        intro _
        refine ⟨⟨_, rfl⟩, .stopped, ⟨e, line, ?_, habove, hbelow, ?_⟩, ?_, rfl⟩
        · dsimp only
          rw [hs.report]
          rfl
        · rw [RuntimeError.text, Token.lineText, hline]
          rfl
        · dsimp only
          rw [hs.report]
          rfl
    | fault f => exact absurd hsafe (hs.host f)
    | endless => exact fun h => absurd rfl h
  · intro _
    refine ⟨⟨_, rfl⟩, .finished, ?_⟩
    dsimp only [Ending.Describes]
    rw [hs.report]
    exact ⟨rfl, rfl, rfl⟩

/-- A run of a source text that ends at all ends in one of the three ways. -/
theorem runSource_ends {s : Session} (hs : s.Fresh) (f : FrontEnd) (source : String)
    (hends : (s.runSource rounds f source).1 ≠ .error .endless) :
    (∃ ok, (s.runSource rounds f source).1 = .ok ok) ∧
      ∃ e : Ending, e.Describes source (s.runSource rounds f source).2 := by
  revert hends
  unfold runSource
  dsimp only
  rcases f.read_cases source s.report with ⟨ts, hts, hprogram, hreport⟩ | ⟨ds, hds, hreport⟩
  · rw [hreport, if_neg (Nat.lt_irrefl _)]
    exact interpret_ends hs hprogram hts
  · -- the text is not run, so nothing is printed
    have hpos := List.length_pos_iff.mpr hds
    rw [hreport, if_pos (by rw [Report.errorCount_addAll]; omega)]
    refine fun _ => ⟨⟨_, rfl⟩, .refused, ⟨ds, hds, ?_⟩, hs.out, ?_, ?_⟩
    · dsimp only
      rw [Report.entries_addAll, hs.report]
      rfl
    · exact Report.hadError_addAll _ hds
    · dsimp only
      rw [Report.hadRuntimeError_addAll, hs.report]

end Session

/-! ## Scripts -/

namespace CommandLine

/-- The log, if there is to be one, can be written, and then the file of a path reads as a
source text. -/
structure ReadsAs (files : Files) (settings : Settings) (path source : String) : Prop where
  log : settings.verbosity ≠ 0 →
    (∃ content, files.find logFile = .file content) ∨ files.find logFile = .missing
  script : ∃ content, (if settings.verbosity = 0 then files else files.write logFile "").find
    (Path.ofString path) = .file content ∧ Files.decode? content = some source

/-- A script is run in a new session once its log is open. -/
theorem run_script {files : Files} {settings : Settings} {path source input : String}
    {rounds : Nat} {clock : Float} (h : ReadsAs files settings path source) :
    ∃ files', run (.runScript path) settings files input rounds clock =
      ran files' ((newSession settings clock).runChosen rounds settings.frontEnd source).1
        ((newSession settings clock).runChosen rounds settings.frontEnd source).2 := by
  rcases h.script with ⟨content, hfind, hdecode⟩
  have htext : ∀ (files' : Files) (next : String → Outcome),
      files'.find (Path.ofString path) = .file content →
      withText files' path next = next source := by
    intro files' next hfound
    rw [withText]
    simp only [hfound, hdecode]
  have hrun : run (.runScript path) settings files input rounds clock =
      withLog files settings fun files => withText files path fun source =>
        ran files ((newSession settings clock).runChosen rounds settings.frontEnd source).1
          ((newSession settings clock).runChosen rounds settings.frontEnd source).2 := rfl
  rw [hrun, withLog]
  -- with a log, the script is looked for among the files that the log has been added to
  by_cases hquiet : settings.verbosity = 0
  · rw [if_pos hquiet] at hfind ⊢
    exact ⟨files, htext _ _ hfind⟩
  · rw [if_neg hquiet] at hfind ⊢
    refine ⟨files.write logFile "", ?_⟩
    have hwritten : ∀ next, withWritten files logFile "" next = next (files.write logFile "") := by
      intro next
      unfold withWritten
      rcases h.log hquiet with ⟨content, hlog⟩ | hlog <;> rw [hlog]
    rw [hwritten]
    exact htext _ _ hfind

end CommandLine

/-- On a new session every run of a source text that ends ends in exactly one of three
ways and never faults, whichever front end reads the text and whatever is logged. A
command that runs a script of that text ends with the status of that way. -/
theorem runs_end_in_one_way {source : String} {f : FrontEnd} {logLevel rounds : Nat}
    {clock : Float}
    (hends : ((Session.new Native.standard logLevel clock {}).runSource rounds f source).1 ≠
      .error .endless) :
    (∃ ok, ((Session.new Native.standard logLevel clock {}).runSource rounds f source).1 = .ok ok) ∧
    ∃ e : Ending, e.Describes source
        ((Session.new Native.standard logLevel clock {}).runSource rounds f source).2 ∧
      (∀ e' : Ending, e'.Describes source
        ((Session.new Native.standard logLevel clock {}).runSource rounds f source).2 → e' = e) ∧
      ∀ (arguments : List String) (settings : Settings) (files : Files) (path input : String),
        Settings.ofArguments arguments = .ok settings → settings.command = .runScript path →
        settings.frontEnd = .known f → settings.verbosity = logLevel →
        CommandLine.ReadsAs files settings path source →
        (CommandLine.perform arguments files input rounds clock).status = .ok e.status := by
  have hfresh : (Session.new Native.standard logLevel clock {}).Fresh :=
    ⟨rfl, rfl, fun _ hfails => Host.not_fails_idle hfails⟩
  rcases Session.runSource_ends hfresh f source hends with ⟨⟨ok, hok⟩, e, he⟩
  refine ⟨⟨ok, hok⟩, e, he, fun e' he' => Ending.describes_unique he' he, ?_⟩
  intro arguments settings files path input hsettings hcommand hfrontEnd hverbosity hreads
  -- the command line runs the script in just this session
  have hperform : CommandLine.perform arguments files input rounds clock =
      CommandLine.run (.runScript path) settings files input rounds clock := by
    unfold CommandLine.perform
    rw [hsettings]
    exact congrArg (CommandLine.run · settings files input rounds clock) hcommand
  rcases CommandLine.run_script hreads with ⟨files', hrun⟩
  have hsession : (CommandLine.newSession settings clock).runChosen rounds settings.frontEnd
      source = (Session.new Native.standard logLevel clock {}).runSource rounds f source := by
    rw [hfrontEnd, CommandLine.newSession, hverbosity]
    rfl
  rw [hperform, hrun, hsession, hok]
  exact congrArg Except.ok (Ending.status_of_describes he)

/-- A script with an undefined name on its second line. -/
def undefinedScript : String := "\nprint nope;"

/-- A directory with that script in it. -/
def undefinedFiles : Files := { contents := [("s", undefinedScript.toUTF8)] }

theorem readsAs_undefined : CommandLine.ReadsAs undefinedFiles
    { program := some "s", verbosity := 1 } "s" undefinedScript where
  log _ := by
    have hmissing : Keyed.get? undefinedFiles.contents "debug.txt" = none := rfl
    rw [CommandLine.logFile, Files.find_name (by decide) (by cbv) (by decide),
      hmissing]
    exact .inr rfl
  script := by
    have hpath : Path.ofString "s" = ⟨"", ["s"]⟩ := by cbv
    have hfile : Keyed.get? (undefinedFiles.write CommandLine.logFile "").contents "s" =
        some undefinedScript.toUTF8 := rfl
    refine ⟨undefinedScript.toUTF8, ?_, rfl⟩
    rw [if_neg (by decide), hpath,
      Files.find_name (by decide) (by cbv) (by decide), hfile]

theorem runs_end_in_one_way_undefined :
    ((Session.new Native.standard 1 0 {}).runSource 9 .descent undefinedScript).1 ≠
      .error .endless ∧
    (CommandLine.perform ["-v", "s"] undefinedFiles "" 9 0).status = .ok 70 := by
  have hok : ((Session.new Native.standard 1 0 {}).runSource 9 .descent undefinedScript).1 =
      .ok false := by decide +kernel
  have hends : ((Session.new Native.standard 1 0 {}).runSource 9 .descent undefinedScript).1 ≠
      .error .endless := by rw [hok]; exact nofun
  have hstopped : ((Session.new Native.standard 1 0 {}).runSource 9 .descent
      undefinedScript).2.report.hadRuntimeError = true := by decide +kernel
  rcases runs_end_in_one_way hends with ⟨-, e, he, -, hstatus⟩
  have hway : e = .stopped := by
    cases e with
    | stopped => rfl
    | refused => rw [he.2.2.2] at hstopped; cases hstopped
    | finished => rw [he.2.2] at hstopped; cases hstopped
  refine ⟨hends, ?_⟩
  rw [hstatus ["-v", "s"] { program := some "s", verbosity := 1 } undefinedFiles "s" ""
    (by decide +kernel) (by decide +kernel) rfl rfl readsAs_undefined, hway]
  rfl

end NovaLang
