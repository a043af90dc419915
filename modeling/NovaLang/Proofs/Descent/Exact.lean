import NovaLang.Proofs.Derivable
import NovaLang.Proofs.Descent.Complete
import NovaLang.Proofs.Descent.Sound

namespace NovaLang.Descent

open Phrase

/-! # The descent reads exactly the grammar

A token list is read without a complaint if and only if the grammar derives it, and then
what is read is its only tree.
-/

/-- Where nothing is reported, the grammar derives the tokens, and what is read is the
one program they are. -/
theorem read_exact {tokens : List Token} {stop : Token} (htokens : ∀ t ∈ tokens, t.kind ≠ .eof)
    (hstop : stop.kind = .eof) (r : Report) :
    ((read (tokens ++ [stop]) r).2 = r ↔
      (Ebnf.rule .program).Derives (Token.kinds (tokens ++ [stop]))) ∧
    ((read (tokens ++ [stop]) r).2 = r →
      (program.run ⟨[], tokens ++ [stop], r⟩).1 = .ok (read (tokens ++ [stop]) r).1 ∧
      ∀ ss, Program tokens ss ↔ ss = (read (tokens ++ [stop]) r).1) := by
  obtain ⟨ds, hreport, hquiet⟩ := read_sound htokens hstop r
  have hread : (read (tokens ++ [stop]) r).2 = r → Program tokens (read (tokens ++ [stop]) r).1 := by
    intro h
    rw [hreport] at h
    exact (hquiet (Report.addAll_eq_self.mp h)).2
  refine ⟨⟨fun h => ?_, fun h => ?_⟩, fun h => ⟨?_, fun ss => ⟨fun hss => ?_, ?_⟩⟩⟩
  · exact (derived_program_iff hstop).mpr ⟨_, hread h⟩
  · obtain ⟨ss, hss⟩ := (derived_program_iff hstop).mp h
    rw [read_complete hss hstop]
  · rw [hreport] at h
    exact (hquiet (Report.addAll_eq_self.mp h)).1
  · rw [read_complete hss hstop]
  · rintro rfl
    exact hread h

/-- The tokens of `if (a) if (b) c; else d;`. -/
def nestedIfs : List Token :=
  [.scanned .kwIf "if" .nil 1, .scanned .leftParen "(" .nil 1, .scanned .identifier "a" .nil 1,
    .scanned .rightParen ")" .nil 1, .scanned .kwIf "if" .nil 1, .scanned .leftParen "(" .nil 1,
    .scanned .identifier "b" .nil 1, .scanned .rightParen ")" .nil 1,
    .scanned .identifier "c" .nil 1, .scanned .semicolon ";" .nil 1,
    .scanned .kwElse "else" .nil 1, .scanned .identifier "d" .nil 1, .scanned .semicolon ";" .nil 1]

/-- The tree of `nestedIfs`: the inner `if` has the `else`. -/
def nestedIfsTree : Node :=
  .branch (.reference (.scanned .identifier "a" .nil 1))
    (.branch (.reference (.scanned .identifier "b" .nil 1))
      (.expression (.reference (.scanned .identifier "c" .nil 1)))
      (.expression (.reference (.scanned .identifier "d" .nil 1))))
    .absent

theorem read_exact_nestedIfs :
    (∀ t ∈ nestedIfs, t.kind ≠ .eof) ∧ (Token.scanned .eof "" .nil 1).kind = .eof ∧
      (Ebnf.rule .program).Derives (Token.kinds (nestedIfs ++ [.scanned .eof "" .nil 1])) ∧
      ∀ ss, Program nestedIfs ss ↔ ss = [nestedIfsTree] := by
  have hkinds : ∀ t ∈ nestedIfs, t.kind ≠ .eof := by decide
  have hread : read (nestedIfs ++ [.scanned .eof "" .nil 1]) {} = ([nestedIfsTree], {}) := rfl
  obtain ⟨hderives, htree⟩ := @read_exact nestedIfs (.scanned .eof "" .nil 1) hkinds rfl {}
  rw [hread] at hderives htree
  exact ⟨hkinds, rfl, hderives.mp rfl, (htree rfl).2⟩

end NovaLang.Descent
