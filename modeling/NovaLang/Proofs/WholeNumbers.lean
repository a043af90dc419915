import NovaLang.Proofs.Decimal.Display
import NovaLang.Proofs.Grammar.Lines
import NovaLang.Proofs.LexicalGrammar

namespace NovaLang

/-! # Whole numbers from source to display

A whole number below `2 ^ 53` is a double. So its digits, with any number of zeros in front of
them, are scanned as exactly that number, and its display text has its digits and no others.
-/

namespace Decimal

variable {d : Dyadic} {n : ℕ}

/-! ## Whole doubles -/

/-- A dyadic number with a whole value is found to be whole. -/
theorem whole_of_value (h : d.value = n) : d.whole? = some n := by
  have hdown : 0 < powerDown 2 d.exponent := powerDown_pos (by norm_num) d.exponent
  have hscaled : d.mantissa * powerUp 2 d.exponent = n * powerDown 2 d.exponent := by
    have hvalue : (d.mantissa * powerUp 2 d.exponent : ℚ) = n * powerDown 2 d.exponent := by
      rw [powerUp_eq (by norm_num), ← h, Dyadic.value, mul_assoc]
      rfl
    exact_mod_cast hvalue
  simp [Dyadic.whole?, hscaled, Nat.mul_div_cancel _ hdown]

/-- A whole double below the bound is displayed by its digits. -/
theorem display_of_value {x : Float} (hx : parts x = .finite false d) (h : d.value = n)
    (hn : n < displayBound) : display x = toString n := by
  unfold display
  rw [hx]
  simp only [whole_of_value h, if_pos hn]
  rfl

/-- A whole number of at most 53 bits is read as itself. -/
theorem nearest_whole (hn : n < 2 ^ 53) :
    ∃ d, parts (nearest n 0) = .finite false d ∧ d.value = n := by
  rcases Nat.eq_zero_or_pos n with rfl | hpos
  · exact ⟨⟨0, -1074, false⟩, by decide, by simp [Dyadic.value]⟩
  have hlog : n.log2 < 53 := log2_lt_of_lt (by norm_num) hn
  have hd : (Dyadic.ofShort n 0).Canonical := canonical_ofShort hpos hn (by omega) (by omega)
  have hvalue : (Dyadic.ofShort n 0).value = n := by
    rw [Dyadic.value, value_ofShort hn, zpow_zero, mul_one]
  have hholds : (Dyadic.ofShort n 0).Holds (n * 10 ^ (0 : ℤ)) := by
    have hself := (Dyadic.ofShort n 0).holds_value
    rw [value_ofShort hn] at hself
    simpa using hself
  rw [nearest_of_holds hd.toShaped hpos hholds]
  exact ⟨_, parts_toFloat hd, hvalue⟩

end Decimal

/-! ## Their source texts -/

namespace Token

open Decimal

/-- A text of digits alone is scanned as one number. -/
theorem scan_digits {ds : List Char} (hne : ds ≠ []) (hds : ∀ d ∈ ds, d.isDigit = true)
    (r : Report) :
    scan (String.ofList ds) r = ([
      .scanned .number (String.ofList ds) (.number (ofParts ds [])) 1,
      .scanned .eof "" .nil 1], r) := by
  obtain ⟨ts, es, hscanned, -, hscan⟩ := scan_scanned (String.ofList ds) r
  obtain ⟨c, cs, rfl⟩ := List.exists_cons_of_ne_nil hne
  have hdigits : ∀ d ∈ c :: cs, isDigit d = true := hds
  rcases List.forall_mem_cons.mp hdigits with ⟨hc, hcs⟩
  have hpiece : nextPiece c cs = (⟨.number, c :: cs⟩, []) := by
    rcases Lexical.span_all hcs with ⟨htake, hdrop⟩
    rw [Grammar.nextPiece_digit hc, numberTail, htake, hdrop]
  have hline : Text.lineBreaks (c :: cs) = 0 :=
    Grammar.lineBreaks_eq_zero.mpr fun d hd => Grammar.ne_of_isDigit (hdigits d hd)
  have htoken : Piece.token? 1 ⟨.number, c :: cs⟩ =
      some (.scanned .number (String.ofList (c :: cs)) (.number (ofParts (c :: cs) [])) 1) := by
    rw [Piece.token?, Lexical.readPlain_whole ⟨hne, hdigits⟩]
    rfl
  have hall : Scanned 1 (c :: cs) _ _ := .cons_plain hpiece hline .nil
  rw [String.toList_ofList] at hscanned hscan
  obtain ⟨rfl, rfl⟩ := hscanned.unique hall
  rw [hscan, htoken, hline]
  rfl

/-- Digits of a whole number below `2 ^ 53`, with any number of zeros in front, are scanned in
silence as one number token and an end token. The literal is the number, exactly, and is displayed
by its digits. -/
theorem scan_whole_number {ds : List Char} {n : ℕ} (hne : ds ≠ [])
    (hds : ∀ d ∈ ds, d.isDigit = true) (hvalue : Nat.ofDigitChars 10 ds 0 = n) (hn : n < 2 ^ 53)
    (r : Report) :
    ∃ x d, scan (String.ofList ds) r = ([
        .scanned .number (String.ofList ds) (.number x) 1, .scanned .eof "" .nil 1], r) ∧
      parts x = .finite false d ∧ d.value = n ∧ (Value.number x).display = toString n := by
  have hread : ofParts ds [] = nearest n 0 := by
    rw [ofParts, List.append_nil, ← hvalue, ← valueOf_eq]
    rfl
  obtain ⟨d, hparts, hd⟩ := nearest_whole hn
  have hbound : n < displayBound := hn.trans (by decide)
  have hscan := scan_digits hne hds r
  rw [hread] at hscan
  exact ⟨nearest n 0, d, hscan, hparts, hd, display_of_value hparts hd hbound⟩

/-- The greatest such number, behind a zero. -/
theorem scan_whole_number_greatest :
    let ds := "09007199254740991".toList
    ds ≠ [] ∧ (∀ d ∈ ds, d.isDigit = true) ∧ Nat.ofDigitChars 10 ds 0 = 2 ^ 53 - 1 ∧
      2 ^ 53 - 1 < 2 ^ 53 ∧
      ∃ x d, scan (String.ofList ds) {} = ([
          .scanned .number (String.ofList ds) (.number x) 1, .scanned .eof "" .nil 1], {}) ∧
        parts x = .finite false d ∧ d.value = (2 ^ 53 - 1 : ℕ) ∧
        (Value.number x).display = "9007199254740991" := by
  have hne : "09007199254740991".toList ≠ [] := by decide
  have hds : ∀ d ∈ "09007199254740991".toList, d.isDigit = true := by simp
  have hvalue : Nat.ofDigitChars 10 "09007199254740991".toList 0 = 2 ^ 53 - 1 := by decide
  exact ⟨hne, hds, hvalue, by norm_num, scan_whole_number hne hds hvalue (by norm_num) {}⟩

end Token

end NovaLang
