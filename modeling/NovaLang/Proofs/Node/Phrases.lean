import NovaLang.Proofs.Grammar.Lines
import NovaLang.Proofs.Node.RoundTrip
import NovaLang.Proofs.Trees
import Mathlib.Algebra.Order.Group.Unbundled.Int

namespace NovaLang

/-! # Trees of phrases read back

All tokens and literals of the tree of a phrase come from the tokens of the phrase, but
for the `true` that a `for` without a condition tests. What a scanner makes of a text has
a JSON form of its own, so the program of a text survives its JSON.
-/

namespace Phrase

open Node

section

variable {P : Token → Prop} {Q : Value → Prop}

/-- The token has the one property and the value that it may stand for the other. -/
def Bears (P : Token → Prop) (Q : Value → Prop) (t : Token) : Prop :=
  P t ∧ ∀ v, t.constant? = some v → Q v

theorem all_join {l : Level} {a b : Node} {o : Token} (ha : a.All P Q) (ho : P o)
    (hb : b.All P Q) : (l.join a o b).All P Q := by
  cases l <;> exact ⟨ha, ho, hb⟩

theorem all_builds (htrue : Q (.bool true)) : Builds (Bears P Q) (All P Q) (All P Q) where
  literal ht hv := ht.2 _ hv
  reference hn _ := hn.1
  grouping he := he
  call hf hp _ has := ⟨hf, hp.1, allOf_iff.mpr has⟩
  unary ho _ he := ⟨ho.1, he⟩
  operation ha ho _ hb := all_join ha ho.1 hb
  assign hn _ he := ⟨hn.1, he⟩
  always := htrue
  expression he := he
  print he := he
  declaration hn _ := ⟨hn.1, trivial⟩
  definition hn _ he := ⟨hn.1, he⟩
  block hss := allOf_iff.mpr hss
  branch hc ht := ⟨hc, ht, trivial⟩
  branches hc ht he := ⟨hc, ht, he⟩
  loop hc hb := ⟨hc, hb⟩

/-- Every token and literal of a program is as its tokens are. -/
theorem Program.allOf {ts : List Token} {ss : List Node} (h : Program ts ss)
    (htrue : Q (.bool true)) (hts : ∀ t ∈ ts, Bears P Q t) : AllOf P Q ss :=
  allOf_iff.mpr ((all_builds htrue).program h hts)

end

end Phrase

/-! ## Texts -/

open Grammar Phrase Node

/-- A value that can be written in a text. -/
def Value.IsConstant : Value → Prop
  | .nil | .bool _ | .number _ | .text _ => True
  | .native _ | .int _ | .data _ => False

theorem Value.IsConstant.isPlain {v : Value} (h : v.IsConstant) : v.IsPlain := by
  cases v <;> trivial

theorem Value.IsConstant.legible {v : Value} (h : v.IsConstant) : ValueLegible v := by
  cases v <;> trivial

theorem isConstant_literal (l : Lexeme) : l.literal.IsConstant := by
  have hvalue : l.value.IsConstant := by
    unfold Lexeme.value
    split <;> trivial
  unfold Lexeme.literal
  split
  · exact hvalue
  · exact hvalue
  · trivial

theorem isConstant_of_constant? {l : Lexeme} {v : Value} (h : l.scanned.constant? = some v) :
    v.IsConstant := by
  unfold Token.constant? at h
  split at h <;> cases h <;> first | exact isConstant_literal l | trivial

/-- The token of a lexeme on a line whose number is not too long can be read back. -/
theorem legible_scanned {l : Lexeme} {first last : Int} (h : l.Within first last)
    (hfirst : 0 ≤ first) (hlast : last < 10 ^ Json.maxDigits) : TokenLegible l.scanned := by
  refine ⟨trivial, (isConstant_literal l).legible, ?_⟩
  have habove := h.above
  have hbelow := h.below
  have hline : (l.line + Text.lineBreaks l.text).natAbs < 10 ^ Json.maxDigits := by
    zify
    rw [abs_of_nonneg (by omega)]
    exact Int.lt_of_le_of_lt hbelow hlast
  exact hline

/-- The JSON of a program whose line numbers are not too long is read back from its text, and the
program from its JSON. -/
theorem Phrase.Program.read_back {ls : List Lexeme} {program : List Node} {first last : Int}
    (h : Program (ls.map Lexeme.scanned) program) (hls : ∀ l ∈ ls, l.Within first last)
    (hfirst : 0 ≤ first) (hlast : last < 10 ^ Json.maxDigits) :
    (programToJson program).Legible ∧ programOfJson (programToJson program) = .ok program := by
  have hlegible : AllOf TokenLegible ValueLegible program := by
    refine h.allOf trivial (List.forall_mem_map.mpr fun l hl => ?_)
    exact ⟨legible_scanned (hls l hl) hfirst hlast,
      fun v hv => (isConstant_of_constant? hv).legible⟩
  have hplain : AllOf (fun t => t.literal.IsPlain) Value.IsPlain program := by
    refine h.allOf trivial (List.forall_mem_map.mpr fun l _ => ?_)
    exact ⟨(isConstant_literal l).isPlain, fun v hv => (isConstant_of_constant? hv).isPlain⟩
  exact ⟨legible_programToJson hlegible, programOfJson_programToJson hplain⟩

end NovaLang
