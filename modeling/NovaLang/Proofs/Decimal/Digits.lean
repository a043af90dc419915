import Mathlib.Data.List.TakeWhile
import Mathlib.Tactic.NormNum
import Mathlib.Tactic.Ring
import NovaLang.Decimal.Numeral
import NovaLang.Decimal.Text

namespace NovaLang.Decimal

/-! # Digits

The digits of a number read back as the number. Zeros at the end of the digits
are powers of ten, zeros in front change nothing.
-/

/-- The number that digits stand for. -/
def valueOf (cs : List Char) : ℕ := ofDigits (cs.map digitOf)

/-- The value of digits, by the library's own reading of them. -/
theorem valueOf_eq (cs : List Char) : valueOf cs = Nat.ofDigitChars 10 cs 0 := by
  simp only [valueOf, ofDigits, List.foldl_map]
  rfl

/-- Digits on the left count by the number of those on the right. -/
theorem valueOf_append (as bs : List Char) :
    valueOf (as ++ bs) = valueOf as * 10 ^ bs.length + valueOf bs := by
  simp only [valueOf_eq, Nat.ofDigitChars_append]
  rw [Nat.ofDigitChars_eq_ofDigitChars_zero, Nat.mul_comm]

/-- Zeros have no value, ... -/
theorem valueOf_zeros (n : ℕ) : valueOf (List.replicate n '0') = 0 := by
  rw [valueOf_eq, Nat.ofDigitChars_replicate_zero, Nat.mul_zero]

theorem valueOf_cons (c : Char) (cs : List Char) :
    valueOf (c :: cs) = digitOf c * 10 ^ cs.length + valueOf cs := by
  have h := valueOf_append [c] cs
  simpa [valueOf, ofDigits] using h

/-- ... and add none in front. -/
theorem valueOf_zeros_append (n : ℕ) (cs : List Char) :
    valueOf (List.replicate n '0' ++ cs) = valueOf cs := by
  rw [valueOf_append, valueOf_zeros, Nat.zero_mul, Nat.zero_add]

/-- All characters are digits. -/
def AllDigits (cs : List Char) : Prop := ∀ c ∈ cs, c.isDigit = true

/-- Two runs of digits are one. -/
theorem AllDigits.append {as bs : List Char} (ha : AllDigits as) (hb : AllDigits bs) :
    AllDigits (as ++ bs) := fun c hc => by
  rcases List.mem_append.mp hc with h | h
  · exact ha c h
  · exact hb c h

theorem allDigits_zeros (n : ℕ) : AllDigits (List.replicate n '0') := fun c hc => by
  rw [List.eq_of_mem_replicate hc]
  rfl

/-- A digit is less than ten. -/
theorem digitOf_lt {c : Char} (h : c.isDigit = true) : digitOf c < 10 := by
  have hle : c.toNat ≤ 57 := (Char.isDigit_iff_toNat.mp h).2
  unfold digitOf
  omega

/-- So digits are worth less than the power of ten by their number. -/
theorem AllDigits.valueOf_lt {cs : List Char} (h : AllDigits cs) : valueOf cs < 10 ^ cs.length := by
  induction cs with
  | nil => simp [valueOf, ofDigits]
  | cons c cs ih =>
    have hc := digitOf_lt (h c (List.mem_cons_self ..))
    have hcs := ih fun d hd => h d (List.mem_cons_of_mem _ hd)
    have hle : digitOf c * 10 ^ cs.length ≤ 9 * 10 ^ cs.length :=
      Nat.mul_le_mul_right _ (by omega)
    rw [valueOf_cons, List.length_cons, pow_succ]
    omega

/-! ## The digits of a number -/

/-- A number is the value of its digits. -/
theorem valueOf_digits (n : ℕ) : valueOf (digits n) = n := by
  rw [valueOf_eq, digits, Nat.ofDigitChars_ten_toDigits]

theorem allDigits_digits (n : ℕ) : AllDigits (digits n) := fun _ hc =>
  Nat.isDigit_of_mem_toDigits (by decide) (by decide) hc

theorem digits_ne_nil (n : ℕ) : digits n ≠ [] := Nat.toDigits_ne_nil

/-- The number of digits tells the size. -/
theorem length_digits_le {n k : ℕ} (hk : 0 < k) : (digits n).length ≤ k ↔ n < 10 ^ k :=
  Nat.length_toDigits_le_iff (by decide) hk

/-- Only zero begins with a zero. -/
theorem exists_digits_cons {n : ℕ} (hn : 0 < n) : ∃ c cs, digits n = c :: cs ∧ c ≠ '0' := by
  obtain ⟨c, cs, hcs⟩ := List.exists_cons_of_ne_nil (digits_ne_nil n)
  refine ⟨c, cs, hcs, fun hzero => ?_⟩
  have hdigits := allDigits_digits n
  have hvalue := valueOf_digits n
  rw [hcs] at hdigits hvalue
  have hrest : AllDigits cs := fun d hd => hdigits d (List.mem_cons_of_mem _ hd)
  -- with a leading zero the other digits would be worth as much
  have hlt : n < 10 ^ cs.length := by
    rw [← hvalue, valueOf_cons, hzero]
    simpa [digitOf] using hrest.valueOf_lt
  rcases Nat.eq_zero_or_pos cs.length with hnil | hpos
  · rw [hnil] at hlt
    omega
  · have hshort := (length_digits_le hpos).mpr hlt
    rw [hcs, List.length_cons] at hshort
    omega

/-! ## Zeros at the end -/

/-- Nothing but zeros is dropped. -/
theorem dropTrailingZeros_append (cs : List Char) :
    ∃ k, cs = dropTrailingZeros cs ++ List.replicate k '0' := by
  refine ⟨(cs.reverse.takeWhile (· == '0')).length, ?_⟩
  have hzeros : cs.reverse.takeWhile (· == '0') =
      List.replicate (cs.reverse.takeWhile (· == '0')).length '0' :=
    List.eq_replicate_of_mem fun c hc => by simpa using List.mem_takeWhile_imp hc
  rw [dropTrailingZeros, ← List.reverse_replicate, ← hzeros, ← List.reverse_append,
    List.takeWhile_append_dropWhile, List.reverse_reverse]

/-- The digits of a number without the zeros at their end, which count as a power of ten. -/
theorem exists_significant {n : ℕ} (hn : 0 < n) :
    ∃ c cs k, dropTrailingZeros (digits n) = c :: cs ∧ c ≠ '0' ∧ AllDigits (c :: cs) ∧
      digits n = c :: cs ++ List.replicate k '0' ∧ valueOf (c :: cs) * 10 ^ k = n := by
  obtain ⟨k, hk⟩ := dropTrailingZeros_append (digits n)
  obtain ⟨c, cs, hcs, hc⟩ := exists_digits_cons hn
  have hdigits := allDigits_digits n
  have hvalue := valueOf_digits n
  generalize dropTrailingZeros (digits n) = ds at hk
  rw [hk, valueOf_append, valueOf_zeros, List.length_replicate, Nat.add_zero] at hvalue
  rw [hk] at hdigits
  have hds : AllDigits ds := fun d hd => hdigits d (List.mem_append_left _ hd)
  cases ds with
  | nil =>
    -- a number all of whose digits are zeros is zero
    simp [valueOf, ofDigits] at hvalue
    omega
  | cons d ds =>
    have hcd : d = c := by
      rw [hcs] at hk
      exact (List.cons.inj hk).1.symm
    exact ⟨d, ds, k, rfl, hcd ▸ hc, hds, hk, hvalue⟩

end NovaLang.Decimal
