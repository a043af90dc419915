import NovaLang.Proofs.Json.RoundTrip
import NovaLang.Text.Line

namespace NovaLang.Json

open Decimal

/-! # Control characters in JSON text

Of the control characters below U+0020 written JSON holds line feeds only. Reading it as a
file, where every line end becomes a line feed, therefore changes nothing.
-/

/-- The text holds no control characters but line feeds. -/
def Clean (cs : List Char) : Prop := ∀ c ∈ cs, 32 ≤ c.toNat ∨ c = '\n'

instance (cs : List Char) : Decidable (Clean cs) :=
  List.decidableBAll (fun c : Char => 32 ≤ c.toNat ∨ c = '\n') cs

theorem clean_nil : Clean [] := nofun

theorem clean_cons {c : Char} {cs : List Char} :
    Clean (c :: cs) ↔ (32 ≤ c.toNat ∨ c = '\n') ∧ Clean cs := List.forall_mem_cons

theorem clean_append {as bs : List Char} : Clean (as ++ bs) ↔ Clean as ∧ Clean bs :=
  List.forall_mem_append

/-! ## Numbers -/

/-- Digits are no control characters. -/
theorem clean_of_allDigits {cs : List Char} (h : AllDigits cs) : Clean cs := by
  intro c hc
  have hdigit : 48 ≤ c.toNat := (Char.isDigit_iff_toNat.mp (h c hc)).1
  exact .inl (by omega)

/-- Neither is a sign. -/
theorem clean_signed {negative : Bool} {cs : List Char} (h : Clean cs) :
    Clean (signed negative cs) := by
  cases negative with
  | true => exact clean_cons.mpr ⟨by decide, h⟩
  | false => exact h

/-- Integers are written with digits and a sign. -/
theorem clean_int (n : ℤ) : Clean (toString n).toList := by
  rw [toList_toString]
  exact clean_signed (clean_of_allDigits (allDigits_digits _))

/-- Wherever the point stands, a number holds digits, zeros and that point. -/
theorem clean_plain {ds : List Char} (hds : AllDigits ds) (whole : ℤ) :
    Clean (Decimal.plain floatLayout ds whole) := by
  unfold Decimal.plain
  -- the point may stand in front of the digits, behind them, or among them
  split_ifs
  · simp only [clean_append]
    exact ⟨⟨by decide, clean_of_allDigits (allDigits_zeros _)⟩, clean_of_allDigits hds⟩
  · simp only [clean_append]
    exact ⟨⟨clean_of_allDigits hds, clean_of_allDigits (allDigits_zeros _)⟩, by decide⟩
  · simp only [clean_append]
    exact ⟨⟨fun c hc => clean_of_allDigits hds c (List.mem_of_mem_take hc), by decide⟩,
      fun c hc => clean_of_allDigits hds c (List.mem_of_mem_drop hc)⟩

/-- An exponent adds a mark, a sign and digits. -/
theorem clean_scientific {ds : List Char} (hds : AllDigits ds) (exponent : ℤ) :
    Clean (scientific floatLayout ds exponent) := by
  have hfraction : Clean (ds.drop 1) :=
    fun c hc => clean_of_allDigits hds c (List.mem_of_mem_drop hc)
  have hexponent : Clean (padZeros floatLayout.exponentDigits (digits exponent.natAbs)) :=
    clean_of_allDigits (allDigits_padZeros (allDigits_digits _) _)
  have hmark : Clean ['e', if exponent < 0 then '-' else '+'] := by
    split_ifs <;> decide
  unfold scientific
  simp only [clean_append]
  refine ⟨⟨⟨fun c hc => clean_of_allDigits hds c (List.mem_of_mem_take hc), ?_⟩, hmark⟩, hexponent⟩
  split_ifs
  · exact clean_nil
  · exact clean_cons.mpr ⟨by decide, hfraction⟩

/-- Numbers are written plainly or with an exponent. -/
theorem clean_scaled (s : Scaled) : Clean (s.write floatLayout) := by
  -- cutting off zeros leaves digits
  have hds : AllDigits (dropTrailingZeros (digits s.coefficient)) := by
    obtain ⟨k, hk⟩ := dropTrailingZeros_append (digits s.coefficient)
    have hdigits := allDigits_digits s.coefficient
    rw [hk] at hdigits
    exact fun c hc => hdigits c (List.mem_append_left _ hc)
  unfold Scaled.write
  dsimp only
  -- zero is written apart from the others
  split
  · decide
  · split
    · exact clean_plain hds _
    · exact clean_scientific hds _

/-- Numbers that are not finite are written as words. -/
theorem clean_float (x : Float) : Clean (Decimal.write floatLayout x).toList := by
  unfold Decimal.write
  split
  · rw [String.toList_ofList]
    exact clean_signed (clean_scaled _)
  · rw [String.toList_ofList]
    exact clean_signed (by decide)
  · decide

/-! ## Values -/

/-- Hexadecimal digits are no control characters. -/
theorem clean_hex {n : ℕ} (hn : n < 32) : Clean (Text.hex 4 n) := by
  interval_cases n <;> decide

/-- Control characters are escaped, so none is left in a text in quotation marks. -/
theorem clean_escapeChar (c : Char) : Clean (escapeChar c) := by
  unfold escapeChar
  split_ifs with hmark hslash hn hr ht hb hf hcontrol
  · -- the characters with an escape of their own
    decide
  · decide
  · decide
  · decide
  · decide
  · decide
  · decide
  · -- the other control characters, and all that are none
    exact clean_append.mpr ⟨by decide, clean_hex hcontrol⟩
  · exact clean_cons.mpr ⟨.inl (by omega), clean_nil⟩

theorem clean_quote (s : String) {rest : List Char} (h : Clean rest) : Clean (quote s rest) := by
  have hescaped : Clean (s.toList.flatMap escapeChar) := by
    intro c hc
    rcases List.mem_flatMap.mp hc with ⟨d, -, hmem⟩
    exact clean_escapeChar d c hmem
  unfold quote
  simp only [clean_cons, clean_append]
  exact ⟨by decide, hescaped, by decide, h⟩

/-- The indented style ends its lines with line feeds alone. -/
theorem clean_newline (style : Style) (depth : ℕ) : Clean (style.newline depth) := by
  cases style with
  | compact => exact clean_nil
  | indented =>
      refine clean_cons.mpr ⟨.inr rfl, fun c hc => ?_⟩
      rw [List.eq_of_mem_replicate hc]
      decide

theorem clean_comma (style : Style) (depth : ℕ) : Clean (style.comma depth) := by
  cases style with
  | compact => exact (by decide : Clean [',', ' '])
  | indented => exact clean_cons.mpr ⟨by decide, clean_newline .indented depth⟩

mutual

/-- Whatever is written in front of clean text leaves it clean. -/
theorem clean_chars (style : Style) : ∀ (j : Json) (depth : ℕ) {rest : List Char}, Clean rest →
    Clean (chars style depth j rest)
  | .null, _, _, h => clean_append.mpr ⟨by decide, h⟩
  | .bool b, _, _, h => clean_append.mpr ⟨by cases b <;> decide, h⟩
  | .int n, _, _, h => clean_append.mpr ⟨clean_int n, h⟩
  | .float x, _, _, h => clean_append.mpr ⟨clean_float x, h⟩
  | .str s, _, _, h => clean_quote s h
  | .arr [], _, _, h => by
    simp only [chars, clean_cons]
    exact ⟨by decide, by decide, h⟩
  | .arr (a :: as), depth, rest, h => by
    have hclose : Clean (style.newline depth ++ ']' :: rest) :=
      clean_append.mpr ⟨clean_newline style depth, clean_cons.mpr ⟨by decide, h⟩⟩
    simp only [chars, clean_cons, clean_append]
    exact ⟨by decide, clean_newline style _,
      clean_chars style a _ (clean_itemChars style as _ hclose)⟩
  | .obj [], _, _, h => by
    simp only [chars, clean_cons]
    exact ⟨by decide, by decide, h⟩
  | .obj ((k, a) :: as), depth, rest, h => by
    have hclose : Clean (style.newline depth ++ '\x7d' :: rest) :=
      clean_append.mpr ⟨clean_newline style depth, clean_cons.mpr ⟨by decide, h⟩⟩
    simp only [chars, clean_cons, clean_append]
    refine ⟨by decide, clean_newline style _, clean_quote k ?_⟩
    simp only [clean_cons]
    exact ⟨by decide, by decide, clean_chars style a _ (clean_fieldChars style as _ hclose)⟩

theorem clean_itemChars (style : Style) : ∀ (items : List Json) (depth : ℕ) {rest : List Char},
    Clean rest → Clean (itemChars style depth items rest)
  | [], _, _, h => h
  | a :: as, depth, _, h =>
    clean_append.mpr ⟨clean_comma style depth,
      clean_chars style a depth (clean_itemChars style as depth h)⟩

theorem clean_fieldChars (style : Style) :
    ∀ (fields : List (String × Json)) (depth : ℕ) {rest : List Char}, Clean rest →
      Clean (fieldChars style depth fields rest)
  | [], _, _, h => h
  | (k, a) :: as, depth, _, h => by
    simp only [fieldChars, clean_append]
    refine ⟨clean_comma style depth, clean_quote k ?_⟩
    simp only [clean_cons]
    exact ⟨by decide, by decide, clean_chars style a depth (clean_fieldChars style as depth h)⟩

end

/-- Written JSON holds no control characters but line feeds. -/
theorem clean_write (style : Style) (j : Json) : Clean (write style j).toList := by
  rw [write, String.toList_ofList]
  exact clean_chars style j 0 clean_nil

/-! ## Line ends -/

/-- Without carriage returns there is nothing to unify. -/
theorem unifyLines_eq_self {cs : List Char} (h : Clean cs) : Text.unifyLines cs = cs := by
  induction cs with
  | nil => rfl
  | cons c cs ih =>
      obtain ⟨hc, hcs⟩ := clean_cons.mp h
      -- a carriage return is a control character and no line feed
      have hreturn : c ≠ '\r' := by
        rintro rfl
        exact absurd hc (by decide)
      rw [Text.unifyLines, ih hcs, if_neg hreturn]
      exact fun rest hcr => absurd hcr hreturn

end NovaLang.Json
