import NovaLang.Proofs.Descent.Parallel
import NovaLang.Proofs.Endings
import NovaLang.Proofs.LineNumbers

namespace NovaLang

open Phrase

/-! # Texts in a row

A session that runs one text and then another one ends as a session that runs both as one
text, a line break between them, except that the lines of the second text come later.
-/

/-! ## Later lines -/

/-- A token on a later line has the same kind, text and literal. -/
theorem Token.later_relabels (k : Int) : Token.Relabels (Token.later k) := by
  constructor
  all_goals
    intro t
    unfold Token.later
    split <;> rfl

/-! ## Phrases -/

namespace Phrase

variable {f : Token → Token} (hf : Token.Relabels f)

include hf

/-- Replacing a token keeps the constant it stands for. -/
theorem constant_relabel (t : Token) : (f t).constant? = t.constant? := by
  rw [Token.constant?, hf.kind, hf.literal, ← Token.constant?]

/-- The tokens of an expression may be replaced, and so are those of its tree. -/
theorem Expr.relabel {r : Rule} {ts : List Token} {e : Node} (h : Expr r ts e) :
    Expr r (ts.map f) (e.relabel f) := by
  -- the rules ask for kinds and constants only
  induction h with
  | constant ht => exact .constant ((constant_relabel hf _).trans ht)
  | name ht => exact .name (hf.kind_eq ht)
  | grouping hl _ hr ih =>
      simpa [Node.relabel] using Expr.grouping (hf.kind_eq hl) ih (hf.kind_eq hr)
  | primary _ ih => exact .primary ih
  | callAlone _ hl hr ih =>
      simpa [Node.relabel] using Expr.callAlone ih (hf.kind_eq hl) (hf.kind_eq hr)
  | callWith _ hl _ hcount hr ihf iha =>
      rw [Node.relabel, Node.relabelAll_eq] at iha
      simpa [Node.relabel] using
        Expr.callWith ihf (hf.kind_eq hl) iha (by rwa [List.length_map]) (hf.kind_eq hr)
  | lastArgument _ ih => exact .lastArgument ih
  | argument _ hc _ ih ihs => simpa [Node.relabel] using Expr.argument ih (hf.kind_eq hc) ihs
  | call _ ih => exact .call ih
  | unary ho _ ih => exact .unary (hf.kind_mem ho) ih
  | operand _ ih => exact .operand ih
  | @operation l o _ _ a b _ ho _ iha ihb =>
      have hjoin : (l.join a o b).relabel f = l.join (a.relabel f) (f o) (b.relabel f) := by
        cases l <;> rfl
      rw [hjoin]
      simpa using Expr.operation iha (hf.kind_mem ho) ihb
  | disjunction _ ih => exact .disjunction ih
  | assignment hn hq _ ih => exact .assignment (hf.kind_eq hn) (hf.kind_eq hq) ih
  | whole _ ih => exact .whole ih

/-- An expression that may be left out, with its tokens replaced. -/
theorem Maybe.relabel {ts : List Token} {e : Node} (h : Maybe ts e) :
    Maybe (ts.map f) (e.relabel f) := by
  cases h with
  | absent => exact .absent
  | present he => exact .present (he.relabel hf)

/-- A simple statement with its tokens replaced. -/
theorem Simple.relabel {r : Rule} {ts : List Token} {s : Node} (h : Simple r ts s) :
    Simple r (ts.map f) (s.relabel f) := by
  cases h with
  | bare hv hn hs => exact .bare (hf.kind_eq hv) (hf.kind_eq hn) (hf.kind_eq hs)
  | initialized hv hn hq he hs =>
      simpa [Node.relabel] using
        Simple.initialized (hf.kind_eq hv) (hf.kind_eq hn) (hf.kind_eq hq) (he.relabel hf)
          (hf.kind_eq hs)
  | expression he hs => simpa [Node.relabel] using Simple.expression (he.relabel hf) (hf.kind_eq hs)
  | print hp he hs =>
      simpa [Node.relabel] using Simple.print (hf.kind_eq hp) (he.relabel hf) (hf.kind_eq hs)

/-- An initializer with its tokens replaced. -/
theorem Initializer.relabel {ts : List Token} {s : Node} (h : Initializer ts s) :
    Initializer (ts.map f) (s.relabel f) := by
  cases h with
  | absent hs => exact .absent (hf.kind_eq hs)
  | varDecl hs => exact .varDecl (hs.relabel hf)
  | exprStmt hs => exact .exprStmt (hs.relabel hf)

/-- The tokens of a part of a program may be replaced, and so are those of its tree. -/
theorem Stmt.relabel {p : Part} {d : Bool} {ts : List Token} {s : Node} (h : Stmt p d ts s) :
    Stmt p d (ts.map f) (s.relabel f) := by
  induction h with
  | exprStmt h => exact .exprStmt (h.relabel hf)
  | printStmt h => exact .printStmt (h.relabel hf)
  | forLoop hfor hl hi hc hs hn hr _ ih =>
      rw [← Descent.forLoop_eq, Descent.forLoop_relabel, Descent.forLoop_eq]
      simpa using Stmt.forLoop (hf.kind_eq hfor) (hf.kind_eq hl) (hi.relabel hf) (hc.relabel hf)
        (hf.kind_eq hs) (hn.relabel hf) (hf.kind_eq hr) ih
  | whileLoop hw hl hc hr _ ih =>
      simpa [Node.relabel] using
        Stmt.whileLoop (hf.kind_eq hw) (hf.kind_eq hl) (hc.relabel hf) (hf.kind_eq hr) ih
  | ifAlone hi hl hc hr _ ih =>
      simpa [Node.relabel] using
        Stmt.ifAlone (hf.kind_eq hi) (hf.kind_eq hl) (hc.relabel hf) (hf.kind_eq hr) ih
  | ifElse hi hl hc hr _ ho _ iht ihe =>
      simpa [Node.relabel] using
        Stmt.ifElse (hf.kind_eq hi) (hf.kind_eq hl) (hc.relabel hf) (hf.kind_eq hr) iht
          (hf.kind_eq ho) ihe
  | block hl _ hr ih =>
      rw [Node.relabel, Node.relabelAll_eq] at ih
      simpa [Node.relabel] using Stmt.block (hf.kind_eq hl) ih (hf.kind_eq hr)
  | varDecl h => exact .varDecl (h.relabel hf)
  | statement _ ih => exact .statement ih
  | none => exact .none
  | cons _ _ ih ihs => simpa [Node.relabel] using Stmt.cons ih ihs

/-- A program with its tokens replaced. -/
theorem Program.relabel {ts : List Token} {ss : List Node} (h : Program ts ss) :
    Program (ts.map f) (ss.map (Node.relabel f)) := by
  have hstmt := Stmt.relabel hf h
  rwa [Node.relabel, Node.relabelAll_eq] at hstmt

end Phrase

/-! ## Sessions -/

@[simp] theorem Machine.logOpen_note (m : Machine) (e : Event) :
    (m.note e).logOpen = m.logOpen := by
  unfold Machine.note
  split
  · split
    · rfl
    · rfl
  · rfl

/-- A log stays open or closed. -/
theorem Eval.open_invariant : Eval.Invariant fun _ _ m m' => m'.logOpen = m.logOpen where
  refl _ := rfl
  trans h h' := h'.trans h
  mono _ h := h
  note m _ _ := m.logOpen_note _
  print _ _ := rfl
  ask _ _ := rfl
  assign _ _ := rfl
  declare _ _ := rfl
  -- neither entering nor leaving a scope closes the log
  scope {_ _ m m'} h := by
    have henter : m.enter.logOpen = m.logOpen := m.logOpen_note _
    have hleave : (m'.leave m.current).logOpen = m'.logOpen := m'.logOpen_note _
    exact hleave.trans (h.trans henter)

/-- What the descent accepts is a program, on whatever report it is read. -/
theorem FrontEnd.accepted {source : String}
    (h : (FrontEnd.descent.read source {}).2.hadError = false) :
    ∃ ts ss, Token.Scanned 1 source.toList ts [] ∧ Program ts ss ∧
      (∀ t ∈ ts, t.OnLines (lastLine source)) ∧ ∀ r, FrontEnd.descent.read source r = (ss, r) := by
  rcases FrontEnd.descent_read_cases source {} with ⟨ls, hwrites, -⟩ | ⟨ds, hds, hreport⟩
  · refine ⟨_, _, hwrites.1.scanned, hwrites.2, ?_, hwrites.descent_read⟩
    exact List.forall_mem_map.mpr fun l hl => onLines_scanned (hwrites.1.within l hl)
  · rw [hreport, Report.hadError_addAll _ hds] at h
    cases h

/-- The descent reads two texts in a row as one program after the other, the second one
with its tokens later. -/
theorem FrontEnd.descent_read_append {first second : String} {ts us : List Token}
    {as bs : List Node} (hts : Token.Scanned 1 first.toList ts []) (has : Program ts as)
    (hus : Token.Scanned 1 second.toList us []) (hbs : Program us bs) (r : Report) :
    FrontEnd.descent.read (first ++ "\n" ++ second) r =
      (as ++ bs.map (Node.relabel (Token.later (1 + Text.lineBreaks first.toList))), r) := by
  have hlater := hus.later (1 + Text.lineBreaks first.toList)
  have hscanned : Token.Scanned 1 (first ++ "\n" ++ second).toList
      (ts ++ us.map (Token.later (1 + Text.lineBreaks first.toList))) [] := by
    simpa using hts.seam (List.forall_mem_nil _) hlater
  have hrelabels := Token.later_relabels (1 + Text.lineBreaks first.toList)
  have hprogram := has.append (hbs.relabel hrelabels)
  rw [FrontEnd.descent_read_eq hscanned, Report.addAll_nil]
  exact Descent.read_complete hprogram rfl r

namespace Session

/-- Of two runs from a session the second one ends as the first one does, and reports a
run-time error, if there is one, some lines later. -/
structure Later (s : Session) (k : Int) (r r' : Except Halt Bool × Session) : Prop where
  result : r'.1 = r.1
  out : r'.2.machine.out = r.2.machine.out
  /-- All scopes are the same, the global one among them. -/
  scopes : r'.2.machine.scopes = r.2.machine.scopes
  report : (r.2.report = s.report ∧ r'.2.report = s.report) ∨
    ∃ e line, e.token.line = .int line ∧ r.2.report = s.report.addRuntime e ∧
      r'.2.report = s.report.addRuntime (e.relabel (Token.later k))

/-- A text that is read without a report is interpreted. -/
theorem runSource_eq {s : Session} {rounds : Nat} {f : FrontEnd} {source : String} {ss : List Node}
    (h : f.read source s.report = (ss, s.report)) :
    s.runSource rounds f source = s.interpret rounds ss := by
  unfold runSource
  rw [h]
  exact if_neg (Nat.lt_irrefl _)

/-- A session interprets a program by running it on its machine. -/
theorem interpret_eq (s : Session) (rounds : Nat) (ss : List Node) :
    s.interpret rounds ss = match (Eval.runProgram rounds ss).run s.machine with
      | (.ok (), m) => (.ok true, ⟨m, s.report⟩)
      | (.error (.runtime e), m) => (.ok false, ⟨m.note (.stopped e), s.report.addRuntime e⟩)
      | (.error (.fault f), m) => (.error (.fault f), ⟨m, s.report⟩)
      | (.error .endless, m) => (.error .endless, ⟨m, s.report⟩) := by
  unfold interpret step
  rcases (Eval.runProgram rounds ss).run s.machine with ⟨(_ | _ | _) | _, m⟩
  all_goals rfl

/-- Two programs in a row are interpreted one after the other, up to an error. -/
theorem interpret_append (s : Session) (rounds : Nat) (as bs : List Node) :
    ((s.interpret rounds as).1 = .ok true →
      s.interpret rounds (as ++ bs) = (s.interpret rounds as).2.interpret rounds bs) ∧
    ((s.interpret rounds as).1 ≠ .ok true →
      s.interpret rounds (as ++ bs) = s.interpret rounds as) := by
  rw [interpret_eq s rounds as, interpret_eq s rounds (as ++ bs), Eval.runProgram_append,
    Eval.run_bind]
  rcases (Eval.runProgram rounds as).run s.machine with ⟨(e | f | _) | _, m⟩
  · exact ⟨nofun, fun _ => rfl⟩
  · exact ⟨nofun, fun _ => rfl⟩
  · exact ⟨nofun, fun _ => rfl⟩
  · refine ⟨fun _ => ?_, fun h => absurd rfl h⟩
    rw [interpret_eq]

/-- What a program that ends well leaves behind. -/
theorem interpret_ok {s : Session} {rounds : Nat} {ss : List Node}
    (h : (s.interpret rounds ss).1 = .ok true) (hopen : s.machine.logOpen = true) :
    (s.interpret rounds ss).2.report = s.report ∧
      (s.interpret rounds ss).2.machine.logOpen = true := by
  have hkeeps := Eval.open_invariant.runProgram rounds ss _ (List.Subset.refl _)
    (List.Subset.refl _) s.machine
  revert h hkeeps
  rw [interpret_eq]
  rcases (Eval.runProgram rounds ss).run s.machine with ⟨(e | f | _) | _, m⟩
  · exact nofun
  · exact nofun
  · exact nofun
  · exact fun _ hkeeps => ⟨rfl, hkeeps.trans hopen⟩

/-- A program whose tokens come later is interpreted alike. -/
theorem interpret_later {s : Session} (rounds : Nat) {ts : List Token} {ss : List Node} {last : Int}
    (hprogram : Program ts ss) (hts : ∀ t ∈ ts, t.OnLines last)
    (hopen : s.machine.logOpen = true) (k : Int) :
    Later s k (s.interpret rounds ss)
      (s.interpret rounds (ss.map (Node.relabel (Token.later k)))) := by
  have hkeeps := Eval.open_invariant.runProgram rounds ss _ (List.Subset.refl _)
    (List.Subset.refl _) s.machine
  have hsafe := (Eval.safe_runProgram (Token.held_onLines _) rounds
    (hprogram.executable hts)).answers s.machine
  revert hkeeps hsafe
  rw [interpret_eq s rounds ss, interpret_eq s rounds (ss.map _),
    Eval.runProgram_relabel (Token.later_relabels k) rounds ss s.machine]
  rcases (Eval.runProgram rounds ss).run s.machine with ⟨(e | f | _) | _, m⟩
  · intro hkeeps hsafe
    -- the token of the error is a scanned one, so its line is a number
    rcases hsafe with ⟨text, line, -, hline, -⟩
    have hnote : ∀ e, m.note (.stopped e) = { m with log := (m.note (.stopped e)).log } := by
      intro e
      unfold Machine.note
      rw [if_pos (hkeeps.trans hopen)]
      split
      · rfl
      · rfl
    have hfailed : (Except.ok false : Except Halt Bool) = .ok false := rfl
    refine ⟨hfailed, ?_, ?_, .inr ⟨e, line, hline, rfl, rfl⟩⟩
    · exact (congrArg Machine.out (hnote _)).trans (congrArg Machine.out (hnote e)).symm
    · exact (congrArg Machine.scopes (hnote _)).trans (congrArg Machine.scopes (hnote e)).symm
  · exact fun _ _ => ⟨rfl, rfl, rfl, .inl ⟨rfl, rfl⟩⟩
  · exact fun _ _ => ⟨rfl, rfl, rfl, .inl ⟨rfl, rfl⟩⟩
  · exact fun _ _ => ⟨rfl, rfl, rfl, .inl ⟨rfl, rfl⟩⟩

/-- A session with an open log runs two texts that the descent accepts one after the other as
it runs them as one text, the second one on the lines after the first. A text that does not
end well is all that is run of the two. -/
theorem runSource_append {s : Session} {first second : String} (rounds : Nat)
    (hopen : s.machine.logOpen = true)
    (hfirst : (FrontEnd.descent.read first {}).2.hadError = false)
    (hsecond : (FrontEnd.descent.read second {}).2.hadError = false) :
    ((s.runSource rounds .descent first).1 = .ok true →
      Later s (1 + Text.lineBreaks first.toList)
        ((s.runSource rounds .descent first).2.runSource rounds .descent second)
        (s.runSource rounds .descent (first ++ "\n" ++ second))) ∧
    ((s.runSource rounds .descent first).1 ≠ .ok true →
      s.runSource rounds .descent (first ++ "\n" ++ second) =
        s.runSource rounds .descent first) := by
  rcases FrontEnd.accepted hfirst with ⟨ts, as, hts, has, -, hread⟩
  rcases FrontEnd.accepted hsecond with ⟨us, bs, hus, hbs, hlines, hread'⟩
  have hjoined := FrontEnd.descent_read_append hts has hus hbs s.report
  rw [runSource_eq (hread s.report), runSource_eq hjoined]
  -- what is left is a run of one program followed by the other one with its tokens later
  have happend := s.interpret_append rounds as
    (bs.map (Node.relabel (Token.later (1 + Text.lineBreaks first.toList))))
  refine ⟨fun hok => ?_, happend.2⟩
  rcases interpret_ok hok hopen with ⟨hreport, hopen'⟩
  have hlater := interpret_later rounds hbs hlines hopen' (1 + Text.lineBreaks first.toList)
  rw [happend.1 hok, runSource_eq (hread' _)]
  exact ⟨hlater.result, hlater.out, hlater.scopes, hreport ▸ hlater.report⟩

/-- A text that binds a name. -/
def bindsName : String := "var a = \"x\";"

/-- A text that prints that name, and then one that is not bound. -/
def printsNames : String := "print a;\nprint b;"

theorem runSource_append_names :
    let s := Session.new Native.standard 1 0 {}
    s.machine.logOpen = true ∧
    (FrontEnd.descent.read bindsName {}).2.hadError = false ∧
    (FrontEnd.descent.read printsNames {}).2.hadError = false ∧
    (s.runSource 9 .descent bindsName).1 = .ok true ∧
    Later s 1 ((s.runSource 9 .descent bindsName).2.runSource 9 .descent printsNames)
      (s.runSource 9 .descent (bindsName ++ "\n" ++ printsNames)) ∧
    (s.runSource 9 .descent (bindsName ++ "\n" ++ printsNames)).2.report.text =
      "Undefined variable 'b'.\n[line 3]\n" := by
  intro s
  have hfirst : (FrontEnd.descent.read bindsName {}).2.hadError = false := by decide +kernel
  have hsecond : (FrontEnd.descent.read printsNames {}).2.hadError = false := by decide +kernel
  have hok : (s.runSource 9 .descent bindsName).1 = .ok true := by decide +kernel
  have hlater := (runSource_append (s := s) 9 rfl hfirst hsecond).1 hok
  exact ⟨rfl, hfirst, hsecond, hok, hlater, by decide +kernel⟩

end Session

end NovaLang
