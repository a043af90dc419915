import NovaLang.Proofs.Concatenation
import NovaLang.Proofs.Node.Printing

namespace NovaLang

/-! # Printed programs are unambiguous

A program that the descent accepts can be printed, as its tokens are lexemes of the language and its
trees have expressions and statements where they belong. Its text tells it from every other
program but for the lines it stood on.
-/

/-! ## Trees of phrases -/

namespace Phrase

open Node

theorem Printable.join {l : Level} {a b : Node} {o : Token} (ha : Printable a) (hl : o.IsLexeme)
    (ho : o.kind ∈ l.operators) (hb : Printable b) : Printable (l.join a o b) := by
  cases l with
  | disjunction | conjunction => exact .logical ha hl (hl.text_mem (by decide) ho) hb
  | equality | comparison | term | factor =>
      exact .binary ha hl (hl.text_mem (by decide) ho) hb

theorem printable_builds : Builds Token.IsPrinted Printable Printable where
  literal ht hv := .literal (ht.constant hv)
  reference hn hkind := .reference (hn.isName hkind)
  grouping he := .grouping he
  call hf hp hkind has :=
    .call hf hp.toIsLexeme (hp.text_eq (hkind ▸ by decide)) has
  unary ho hkind he := .unary ho.toIsLexeme (ho.text_mem (by decide) hkind) he
  operation ha ho hkind hb := Printable.join ha ho.toIsLexeme hkind hb
  assign hn hkind he := .assign (hn.isName hkind) he
  always := .literal trivial
  expression he := .expression he
  print he := .print he
  declaration hn hkind := .declaration (hn.isName hkind)
  definition hn hkind he := .definition (hn.isName hkind) he
  block hss := .block hss
  branch hc ht := .branch hc ht
  branches hc ht he := .branches hc ht he
  loop hc hb := .loop hc hb

/-- The statements of a program can be printed if its tokens can. -/
theorem Program.printable {ts : List Token} {ss : List Node} (h : Program ts ss)
    (hts : ∀ t ∈ ts, t.IsPrinted) : ∀ s ∈ ss, s.Printable ∧ s.form.isStatement = true := by
  intro s hs
  refine ⟨printable_builds.program h hts s hs, ?_⟩
  cases (h.executable fun _ _ => trivial : ∀ s ∈ ss, Executable (fun _ => True) s) s hs <;> rfl

end Phrase

/-! ## Texts -/

/-- All numbers in the text are finite. -/
def FiniteNumbers (source : String) : Prop :=
  ∀ t ∈ (Token.scan source {}).1, t.literal.IsFinite

instance : DecidablePred Value.IsFinite := fun v =>
  match v with
  | .number x => inferInstanceAs (Decidable (x.isFinite = true))
  | .nil | .bool _ | .text _ | .native _ | .int _ | .data _ => .isTrue trivial

instance (source : String) : Decidable (FiniteNumbers source) :=
  inferInstanceAs (Decidable (∀ t ∈ (Token.scan source {}).1, t.literal.IsFinite))

namespace FrontEnd

/-- The program that the descent accepts is one that can be printed. -/
theorem printable {source : String} (h : (descent.read source {}).2.hadError = false)
    (hfinite : FiniteNumbers source) :
    ∀ s ∈ (descent.read source {}).1, s.Printable ∧ s.form.isStatement = true := by
  obtain ⟨ts, ss, hscanned, hprogram, -, hread⟩ := accepted h
  obtain ⟨us, ds, hscanned', -, hscan⟩ := Token.scan_scanned source {}
  obtain ⟨rfl, -⟩ := hscanned.unique hscanned'
  obtain ⟨segments, hdivides, rfl, -⟩ := Lexical.divides_of_scanned hscanned
  have hts : ∀ t ∈ Lexical.tokens 1 segments, t.IsPrinted := fun t ht =>
    ⟨Token.isLexeme_of_divides hdivides 1 t ht,
      hfinite t (by rw [hscan]; exact List.mem_append_left _ ht)⟩
  rw [hread]
  exact hprogram.printable hts

/-- **Printed programs are unambiguous.** The programs of two texts that the descent accepts, all
numbers in which are finite, are printed; and if they are printed alike, they are the same up to
lines. -/
theorem printed_unique {first second : String}
    (hfirst : (descent.read first {}).2.hadError = false)
    (hsecond : (descent.read second {}).2.hadError = false)
    (hfinite : FiniteNumbers first) (hfinite' : FiniteNumbers second) :
    ∃ text text', Node.programText (descent.read first {}).1 = .ok text ∧
      Node.programText (descent.read second {}).1 = .ok text' ∧
      (text = text' →
        (descent.read first {}).1.map Node.unplaced = (descent.read second {}).1.map Node.unplaced) := by
  have hprintable := printable hfirst hfinite
  have hprintable' := printable hsecond hfinite'
  refine ⟨_, _, Node.programText_eq hprintable, Node.programText_eq hprintable', fun h => ?_⟩
  exact Node.unplaced_of_programText (fun s hs => (hprintable s hs).1)
    (fun s hs => (hprintable' s hs).1) h

/-- One call in two layouts, with a text that looks like a group. -/
theorem printed_unique_call :
    (descent.read "f(-1, \"(\n)\");" {}).2.hadError = false ∧
      (descent.read "f( // twice\n- 1.0, \"(\n)\") ;" {}).2.hadError = false ∧
      FiniteNumbers "f(-1, \"(\n)\");" ∧ FiniteNumbers "f( // twice\n- 1.0, \"(\n)\") ;" ∧
      (descent.read "f(-1, \"(\n)\");" {}).1.map Node.unplaced =
        (descent.read "f( // twice\n- 1.0, \"(\n)\") ;" {}).1.map Node.unplaced := by
  have hfirst : (descent.read "f(-1, \"(\n)\");" {}).2.hadError = false := rfl
  have hsecond : (descent.read "f( // twice\n- 1.0, \"(\n)\") ;" {}).2.hadError = false := rfl
  have hfinite : FiniteNumbers "f(-1, \"(\n)\");" := by decide
  have hfinite' : FiniteNumbers "f( // twice\n- 1.0, \"(\n)\") ;" := by decide
  have hprinted : Node.programText (descent.read "f(-1, \"(\n)\");" {}).1 =
      .ok "(; (call f (- 1) \"(\n)\"))" := rfl
  have hprinted' : Node.programText (descent.read "f( // twice\n- 1.0, \"(\n)\") ;" {}).1 =
      .ok "(; (call f (- 1) \"(\n)\"))" := rfl
  obtain ⟨text, text', htext, htext', hsame⟩ := printed_unique hfirst hsecond hfinite hfinite'
  rw [hprinted] at htext
  rw [hprinted'] at htext'
  exact ⟨hfirst, hsecond, hfinite, hfinite',
    hsame (Except.ok.inj (htext.symm.trans htext'))⟩

end FrontEnd

end NovaLang
