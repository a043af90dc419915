import NovaLang.Proofs.Concatenation
import NovaLang.Proofs.Levels

namespace NovaLang

/-! # Refused texts leave no trace

A source text with a static error is refused: it is not run, and a session goes on as if
it had never been given. Whether a text is refused depends on the text and its front end
alone, and not on the errors that a session has seen before.
-/

/-- A front end reads a program and reports nothing, whatever has been reported before, or
it reports static errors at any time. -/
theorem FrontEnd.clean_or_refused (f : FrontEnd) (text : String) :
    (∃ program, ∀ r, f.read text r = (program, r)) ∨
      ∀ r, ∃ ds ≠ [], (f.read text r).2 = r.addAll ds := by
  cases f with
  | descent =>
      by_cases hwrites : ∃ ls ss, Writes text ls ss
      · rcases hwrites with ⟨ls, ss, hwrites⟩
        exact .inl ⟨ss, hwrites.descent_read⟩
      · refine .inr fun r => ?_
        rcases descent_read_cases text r with ⟨ls, h, -⟩ | hstatic
        · exact absurd ⟨ls, _, h⟩ hwrites
        · exact hstatic
  | grammar =>
      unfold FrontEnd.read
      cases Grammar.read text with
      | ok program => exact .inl ⟨program, fun _ => rfl⟩
      | error e => exact .inr fun r => ⟨[⟨.line e.line, e.complaint⟩], List.cons_ne_nil _ _, rfl⟩

namespace Session

/-! ## Calls -/

namespace Source

/-- The front end finds a static error in the text. -/
def isRefused (source : Source) : Bool := (source.frontEnd.read source.text {}).2.hadError

/-- What the front end reads. -/
def program (source : Source) : List Node := (source.frontEnd.read source.text {}).1

variable {source : Source}

theorem read_of_clean (h : source.isRefused = false) (r : Report) :
    source.frontEnd.read source.text r = (source.program, r) := by
  rcases source.frontEnd.clean_or_refused source.text with ⟨program, hread⟩ | hstatic
  · rw [Source.program, hread, hread]
  · rcases hstatic {} with ⟨ds, hds, hreport⟩
    rw [isRefused, hreport, Report.hadError_addAll _ hds] at h
    cases h

theorem read_of_refused (h : source.isRefused = true) (r : Report) :
    ∃ ds ≠ [], (source.frontEnd.read source.text r).2 = r.addAll ds := by
  rcases source.frontEnd.clean_or_refused source.text with ⟨program, hread⟩ | hstatic
  · rw [isRefused, hread] at h
    cases h
  · exact hstatic r

end Source

/-- One source text run in a session: the session before, what the run ended with, and the
session after. -/
structure Call where
  source : Source
  before : Session
  result : Except Halt Bool
  after : Session

/-- The calls that run some source texts one after another. -/
def calls (s : Session) : List Source → List Call
  | [] => []
  | source :: sources =>
    let (result, after) := s.runSource source.rounds source.frontEnd source.text
    ⟨source, s, result, after⟩ :: calls after sources

/-- What can be seen of a call, besides the errors of earlier calls. -/
structure Sight where
  source : Source
  result : Except Halt Bool
  /-- The bindings, the text printed and the log, before the call. -/
  before : Machine
  /-- The same after the call. -/
  after : Machine
  /-- What the call has reported. -/
  reported : List Entry

/-- What can be seen of a call. -/
def Call.sight (c : Call) : Sight :=
  ⟨c.source, c.result, c.before.machine, c.after.machine,
    c.after.report.entries.drop c.before.report.entries.length⟩

/-! ## One call -/

variable {s s' : Session} {source : Source}

/-- A refused text is not run, and only the report changes. -/
theorem runSource_refused (h : source.isRefused = true) (s : Session) :
    ∃ ds ≠ [], s.runSource source.rounds source.frontEnd source.text =
      (.ok false, { s with report := s.report.addAll ds }) := by
  rcases source.read_of_refused h s.report with ⟨ds, hds, hreport⟩
  refine ⟨ds, hds, ?_⟩
  have hcount : s.report.errorCount < (s.report.addAll ds).errorCount := by
    have hlength := List.length_pos_iff.mpr hds
    rw [Report.errorCount_addAll]
    omega
  unfold runSource
  rw [← hreport] at hcount ⊢
  exact if_pos hcount

/-- A text that is not refused is run, whatever has been reported before. -/
theorem runSource_clean (h : source.isRefused = false) (s : Session) :
    s.runSource source.rounds source.frontEnd source.text =
      s.interpret source.rounds source.program :=
  runSource_eq (source.read_of_clean h s.report)

/-- A program that is interpreted does not look at the report. -/
theorem interpret_congr (h : s.machine = s'.machine) (rounds : Nat) (ss : List Node) :
    (s.interpret rounds ss).1 = (s'.interpret rounds ss).1 ∧
      (s.interpret rounds ss).2.machine = (s'.interpret rounds ss).2.machine ∧
      ∃ es, (s.interpret rounds ss).2.report.entries = s.report.entries ++ es ∧
        (s'.interpret rounds ss).2.report.entries = s'.report.entries ++ es := by
  rw [interpret_eq, interpret_eq, h]
  rcases (Eval.runProgram rounds ss).run s'.machine with ⟨(e | f | _) | _, m⟩
  · exact ⟨rfl, rfl, [.runtime e], rfl, rfl⟩
  all_goals exact ⟨rfl, rfl, [], (List.append_nil _).symm, (List.append_nil _).symm⟩

/-! ## Calls in a row -/

/-- Sessions with the same machine show the same of the texts that are not refused. -/
theorem sights_without_refused (h : s.machine = s'.machine) (sources : List Source) :
    ((s.calls sources).filter fun c => !c.source.isRefused).map Call.sight =
      (s'.calls (sources.filter fun source => !source.isRefused)).map Call.sight := by
  induction sources generalizing s s' with
  | nil => rfl
  | cons source sources ih =>
      cases hrefused : source.isRefused with
      | true =>
          rcases runSource_refused hrefused s with ⟨ds, -, hrun⟩
          rw [List.filter_cons_of_neg (by simp [hrefused]), calls, hrun,
            List.filter_cons_of_neg (by simp [hrefused])]
          exact ih h
      | false =>
          rcases interpret_congr h source.rounds source.program with
            ⟨hresult, hmachine, es, hentries, hentries'⟩
          rw [List.filter_cons_of_pos (by simp [hrefused]), calls, calls,
            runSource_clean hrefused, runSource_clean hrefused,
            List.filter_cons_of_pos (by simp [hrefused]), List.map_cons, List.map_cons]
          refine congrArg₂ _ ?_ (ih hmachine)
          simp [Call.sight, h, hresult, hmachine, hentries, hentries']

/-- Of each call it is known what it does. -/
theorem forall_calls {P : Call → Prop}
    (h : ∀ (s : Session) (source : Source), P ⟨source, s,
      (s.runSource source.rounds source.frontEnd source.text).1,
      (s.runSource source.rounds source.frontEnd source.text).2⟩)
    (s : Session) (sources : List Source) : ∀ c ∈ s.calls sources, P c := by
  induction sources generalizing s with
  | nil => exact fun c hc => absurd hc List.not_mem_nil
  | cons source sources ih =>
      intro c hc
      rw [calls] at hc
      rcases List.mem_cons.mp hc with rfl | hc
      · exact h s source
      · exact ih _ c hc

/-- Source texts are run one after another, with any front ends. Each one that is refused
ends with no success and changes nothing but the report; what can be seen of the others is
the same without those that are refused; and each one of the others is run. -/
theorem calls_without_refused (s : Session) (sources : List Source) :
    (∀ c ∈ s.calls sources, c.source.isRefused = true →
      c.result = .ok false ∧ c.after.machine = c.before.machine ∧
        ∃ ds ≠ [], c.after.report = c.before.report.addAll ds) ∧
    ((s.calls sources).filter fun c => !c.source.isRefused).map Call.sight =
      (s.calls (sources.filter fun source => !source.isRefused)).map Call.sight ∧
    ∀ c ∈ s.calls sources, c.source.isRefused = false →
      (c.result, c.after) = c.before.interpret c.source.rounds c.source.program := by
  refine ⟨forall_calls (fun s source hrefused => ?_) s sources,
    sights_without_refused rfl sources, forall_calls (fun s source hclean => ?_) s sources⟩
  · rcases runSource_refused hrefused s with ⟨ds, hds, hrun⟩
    rw [hrun]
    exact ⟨rfl, rfl, ds, hds, rfl⟩
  · exact runSource_clean hclean s

/-- A text that stops at a run-time error, a refused one, and one that ends well. -/
example :
    ((Session.new Native.standard 0 0 {}).calls
      [⟨1, .descent, "var a = true; print b;"⟩, ⟨1, .descent, "print ;"⟩,
        ⟨1, .descent, "print a;"⟩]).map (fun c => (c.source.isRefused, c.result.toOption)) =
      [(false, some false), (true, some false), (false, some true)] := by
  decide +kernel

end Session

end NovaLang
