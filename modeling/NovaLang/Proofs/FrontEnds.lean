import NovaLang.Proofs.Descent.Exact
import NovaLang.Proofs.Grammar.Complete
import NovaLang.Proofs.Grammar.Grows
import NovaLang.Proofs.Grammar.Lines
import NovaLang.Proofs.Grammar.Sound
import NovaLang.Session

namespace NovaLang.FrontEnd

open Grammar Phrase

/-! # The two front ends

What the descent reads without a complaint, the grammar reads as the same program. The
grammar also reads texts in which a keyword stands for a name or is cut off the front of a
longer word; on every other text that it reads, the two agree.
-/

/-! ## Texts that are programs -/

/-- The lexemes that a text is cut into are a program, with its statements. -/
def Writes (source : String) (ls : List Lexeme) (ss : List Node) : Prop :=
  Spells 1 source.toList ls ∧ Program (ls.map Lexeme.scanned) ss

/-- The descent scans a text and reads its tokens up to the end token. -/
theorem descent_read_eq {source : String} {ts : List Token} {ds : List Diagnostic}
    (h : Token.Scanned 1 source.toList ts ds) (r : Report) :
    descent.read source r = Descent.read
      (ts ++ [.scanned .eof "" .nil (1 + Text.lineBreaks source.toList)]) (r.addAll ds) := by
  obtain ⟨us, es, hscanned, -, hscan⟩ := Token.scan_scanned source r
  obtain ⟨rfl, rfl⟩ := h.unique hscanned
  rw [FrontEnd.read, hscan]

/-- The descent reads a text that is a program, and reports nothing. -/
theorem Writes.descent_read {source : String} {ls : List Lexeme} {ss : List Node}
    (h : Writes source ls ss) (r : Report) : descent.read source r = (ss, r) := by
  rw [descent_read_eq h.1.scanned, Report.addAll_nil]
  exact Descent.read_complete h.2 rfl r

/-- What the descent reads is a program, or there are static errors. -/
theorem descent_read_cases (source : String) (r : Report) :
    (∃ ls, Writes source ls (descent.read source r).1 ∧ (descent.read source r).2 = r) ∨
      ∃ ds ≠ [], (descent.read source r).2 = r.addAll ds := by
  obtain ⟨ts, ds, hscanned, -⟩ := Token.scan_scanned source r
  rw [descent_read_eq hscanned]
  obtain ⟨es, hreport, hquiet⟩ := @Descent.read_sound ts
    (.scanned .eof "" .nil (1 + Text.lineBreaks source.toList))
    (kind_ne_eof_of_scanned hscanned) rfl (r.addAll ds)
  rw [hreport, ← Report.addAll_append]
  by_cases hds : ds ++ es = []
  · obtain ⟨rfl, rfl⟩ := List.append_eq_nil_iff.mp hds
    obtain ⟨ls, hspells, rfl⟩ := Spells.of_scanned hscanned rfl
    exact .inl ⟨ls, ⟨hspells, (hquiet rfl).2⟩, rfl⟩
  · exact .inr ⟨ds ++ es, hds, rfl⟩

/-- The tree that the grammar finds in a text that is a program. -/
theorem Writes.tree {source : String} {ls : List Lexeme} {ss : List Node}
    (h : Writes source ls ss) :
    ∃ t, Tree.ofSource source = .ok t ∧ t.leaves = ls ∧ t.meaning = .ok (.nodes ss) := by
  obtain ⟨hspells, hprogram⟩ := h
  obtain ⟨_, t, hproper, hsymbol, -, rfl, hmeaning⟩ :=
    grown_of_program hprogram fun l hl => (hspells.within l hl).plain
  exact ⟨t, Tree.ofSource_complete hproper hsymbol hspells, rfl, hmeaning⟩

/-- What the tree of a text stands for is the program that its lexemes are. -/
theorem program_of_tree {source : String} {t : Tree} {m : Meaning}
    (htree : Tree.ofSource source = .ok t) (hmeaning : t.meaning = .ok m) :
    ∃ ss, m = .nodes ss ∧ Program (t.leaves.map Lexeme.scanned) ss := by
  obtain ⟨hproper, hsymbol, hcut⟩ := Tree.ofSource_sound htree
  have hgrown : Grown .program t.opens t.leaves m := ⟨t, hproper, hsymbol, rfl, rfl, hmeaning⟩
  exact hgrown.means fun l hl => (hcut.within l hl).plain

theorem read_eq_ok_iff {source : String} {ss : List Node} :
    Grammar.read source = .ok ss ↔
      ∃ t, Tree.ofSource source = .ok t ∧ t.meaning = .ok (.nodes ss) := by
  unfold Grammar.read
  cases htree : Tree.ofSource source with
  | error e => simp [bind, Except.bind]
  | ok t =>
      cases hmeaning : t.meaning with
      | error e => simp [bind, Except.bind, hmeaning]
      | ok m =>
          obtain ⟨ss', rfl, -⟩ := program_of_tree htree hmeaning
          simp [bind, Except.bind, pure, Except.pure, hmeaning]

/-! ## What both front ends read -/

/-- What the descent reads without a complaint, the grammar reads too, as the same program. -/
theorem grammar_reads_alike {source : String} {r : Report} (h : (descent.read source r).2 = r) :
    Grammar.read source = .ok (descent.read source r).1 ∧
      grammar.read source r = descent.read source r := by
  have hread : Grammar.read source = .ok (descent.read source r).1 := by
    obtain ⟨ls, hwrites, -⟩ | ⟨ds, hds, hreport⟩ := descent_read_cases source r
    · obtain ⟨t, htree, -, hmeaning⟩ := hwrites.tree
      exact read_eq_ok_iff.mpr ⟨t, htree, hmeaning⟩
    · exact absurd (Report.addAll_eq_self.mp (hreport.symm.trans h)) hds
  refine ⟨hread, ?_⟩
  have hgrammar : grammar.read source r = ((descent.read source r).1, r) := by
    simp only [FrontEnd.read, hread]
  exact hgrammar.trans (Prod.ext rfl h.symm)

/-- Two nested `if`s with one `else`, behind a text of two lines. -/
def nestedIfs : String := "if (a) if (b) \"x\ny\"; else f(a);"

/-- The program that both front ends read. -/
def nestedIfsProgram : List Node :=
  [.branch (.reference (.scanned .identifier "a" .nil 1))
    (.branch (.reference (.scanned .identifier "b" .nil 1))
      (.expression (.literal (.text "x\ny")))
      (.expression (.call (.reference (.scanned .identifier "f" .nil 2))
        (.scanned .rightParen ")" .nil 2) [.reference (.scanned .identifier "a" .nil 2)])))
    .absent]

theorem grammar_reads_nestedIfs :
    (descent.read nestedIfs {}).2 = {} ∧ Grammar.read nestedIfs = .ok nestedIfsProgram := by
  have hquiet : (descent.read nestedIfs {}).2 = {} := by decide +kernel
  have hprogram : (descent.read nestedIfs {}).1 = nestedIfsProgram := by decide +kernel
  obtain ⟨hread, -⟩ := grammar_reads_alike hquiet
  exact ⟨hquiet, hread.trans (congrArg Except.ok hprogram)⟩

/-- What the grammar reads, the descent reads without a complaint if and only if no keyword
in it stands for a name or is cut off the front of a longer word, and then as the same
program. -/
theorem descent_reads_alike_iff {source : String} {ss : List Node}
    (h : Grammar.read source = .ok ss) (r : Report) :
    ∃ t, Tree.ofSource source = .ok t ∧
      (misread source.toList t.leaves = false → descent.read source r = (ss, r)) ∧
      (misread source.toList t.leaves = true →
        r.errorCount < (descent.read source r).2.errorCount) := by
  obtain ⟨t, htree, hmeaning⟩ := read_eq_ok_iff.mp h
  refine ⟨t, htree, fun hmisread => ?_, fun hmisread => ?_⟩
  · obtain ⟨-, -, hcut⟩ := Tree.ofSource_sound htree
    obtain ⟨_, ⟨⟩, hprogram⟩ := program_of_tree htree hmeaning
    exact Writes.descent_read ⟨hcut.spells hmisread, hprogram⟩ r
  · obtain ⟨ls, hwrites, -⟩ | ⟨ds, hds, hreport⟩ := descent_read_cases source r
    · -- the tree of a program is found by its lexemes, and what a text spells is not misread
      obtain ⟨t', htree', rfl, -⟩ := hwrites.tree
      obtain rfl := Except.ok.inj (htree.symm.trans htree')
      rw [hwrites.1.not_misread] at hmisread
      cases hmisread
    · rw [hreport, Report.errorCount_addAll]
      have hpos := List.length_pos_iff.mpr hds
      omega

theorem descent_reads_alike_iff_var_if :
    Grammar.read "var if;" = .ok [.var (.scanned .identifier "if" .nil 1) .absent] ∧
      ∃ t, Tree.ofSource "var if;" = .ok t ∧ misread "var if;".toList t.leaves = true ∧
        ({} : Report).errorCount < (descent.read "var if;" {}).2.errorCount := by
  obtain ⟨t, htree, hagree, hdiffer⟩ := descent_reads_alike_iff grammar_reads_var_if {}
  refine ⟨grammar_reads_var_if, t, htree, ?_⟩
  cases hmisread : misread "var if;".toList t.leaves with
  | true => exact ⟨rfl, hdiffer hmisread⟩
  | false =>
      have hsilent : (descent.read "var if;" {}).2.errorCount = 0 := by rw [hagree hmisread]
      exact absurd hsilent (by decide +kernel)

/-- The descent does not read all that the grammar reads. -/
theorem not_descent_reads_alike : ¬∀ source ss, Grammar.read source = .ok ss →
    descent.read source {} = (ss, {}) := by
  intro h
  have hread := h _ _ grammar_reads_var_if
  have hsilent : (descent.read "var if;" {}).2.errorCount = 0 := by rw [hread]
  exact absurd hsilent (by decide +kernel)

end NovaLang.FrontEnd
