import NovaLang.Proofs.Decimal.Digits
import NovaLang.Proofs.Decimal.Spacing

namespace NovaLang.Decimal

/-! # Numerals are read as the nearest double

What the double nearest to a number is, said of the numbers of all finite doubles and of nothing
else: for every number that is not negative there is exactly one, and it is the one that a decimal
with that value is read as.
-/

/-! ## The nearest double -/

/-- The number that a finite double is. -/
def Parts.value? : Parts → Option ℚ
  | .finite negative d => some (if negative then -d.value else d.value)
  | .infinite _ | .undefined => none

/-- Half a step beyond the greatest finite double. -/
def beyond : ℚ := 2 ^ (1024 : ℤ) - 2 ^ (970 : ℤ)

/-- The double is the one nearest to a number that is not negative. Of two equally near ones it is
the one with the even mantissa, and from half a step beyond the greatest finite double on it is
infinity. -/
inductive IsNearest (q : ℚ) (x : Float) : Prop where
  | finite {d : Dyadic} : parts x = .finite false d → q < beyond →
      (∀ y w, (parts y).value? = some w → w = d.value ∨ |q - d.value| < |q - w| ∨
        |q - d.value| = |q - w| ∧ d.mantissa % 2 = 0) →
      IsNearest q x
  | infinite : parts x = .infinite false → beyond ≤ q → IsNearest q x

theorem beyond_eq : beyond = (2 ^ (53 : ℤ) - 1 / 2) * 2 ^ (971 : ℤ) := by
  have hhalf : (2 : ℚ) ^ (971 : ℤ) = 2 ^ (970 : ℤ) * 2 := zpow_add_one₀ two_ne_zero 970
  rw [beyond, show (1024 : ℤ) = 53 + 971 from rfl, zpow_add₀ two_ne_zero, hhalf]
  ring

/-! ## There is one -/

section Existence

variable {d : Dyadic} {q w : ℚ} {y : Float}

/-- The number of a double is not positive, or it is the value of a form. -/
theorem number_cases (hy : (parts y).value? = some w) :
    w ≤ 0 ∨ ∃ d : Dyadic, d.Canonical ∧ parts y = .finite false d ∧ w = d.value := by
  cases hparts : parts y with
  | infinite | undefined =>
      rw [hparts] at hy
      cases hy
  | finite negative d =>
      rw [hparts] at hy
      obtain rfl := Option.some.inj hy
      have hvalue : 0 ≤ d.value := mul_nonneg (Nat.cast_nonneg _) (by positivity)
      rcases canonical_of_parts hparts with hzero | hd
      · rw [value_eq_zero_iff.mpr hzero]
        simp
      · cases negative with
        | true => exact .inl (neg_nonpos.mpr hvalue)
        | false => exact .inr ⟨d, hd, rfl, rfl⟩

/-- Other doubles are at least one step away. -/
theorem apart (hd : d.Shaped) (hy : (parts y).value? = some w) :
    w = d.value ∨ w ≤ d.value - d.stepBelow ∨ d.value + 2 ^ d.exponent ≤ w := by
  rcases number_cases hy with hw | ⟨d', hd', -, rfl⟩
  · exact .inr (.inl (hw.trans (sub_nonneg.mpr (stepBelow_le_value hd))))
  · rcases lt_trichotomy d'.value d.value with hlt | heq | hgt
    · exact .inr (.inl (le_sub_stepBelow hd hd'.toShaped hlt))
    · exact .inl heq
    · exact .inr (.inr (add_unit_le hd hd'.toShaped hgt))

/-- A number in the interval of a double is no nearer to another one. -/
theorem Dyadic.Holds.nearer (hd : d.Shaped) (h : d.Holds q) (hy : (parts y).value? = some w) :
    w = d.value ∨ |q - d.value| < |q - w| ∨ |q - d.value| = |q - w| ∧ d.mantissa % 2 = 0 := by
  have hunit : (0 : ℚ) < 2 ^ d.exponent := by positivity
  have hstep := stepBelow_pos d
  unfold Dyadic.Holds at h
  rw [low_eq, high_eq] at h
  rcases apart hd hy with heq | hbelow | habove
  · exact .inl heq
  · -- the other double lies below, so the number is above the middle between the two
    right
    by_cases heven : d.mantissa % 2 = 0
    · rw [if_pos heven] at h
      have hle : |q - d.value| ≤ |q - w| := by
        rw [abs_of_pos (show 0 < q - w by linarith)]
        exact abs_le.mpr ⟨by linarith, by linarith⟩
      exact hle.lt_or_eq.imp_right fun htie => ⟨htie, heven⟩
    · rw [if_neg heven] at h
      left
      rw [abs_of_pos (show 0 < q - w by linarith)]
      exact abs_lt.mpr ⟨by linarith, by linarith⟩
  · right
    by_cases heven : d.mantissa % 2 = 0
    · rw [if_pos heven] at h
      have hle : |q - d.value| ≤ |q - w| := by
        rw [abs_of_neg (show q - w < 0 by linarith)]
        exact abs_le.mpr ⟨by linarith, by linarith⟩
      exact hle.lt_or_eq.imp_right fun htie => ⟨htie, heven⟩
    · rw [if_neg heven] at h
      left
      rw [abs_of_neg (show q - w < 0 by linarith)]
      exact abs_lt.mpr ⟨by linarith, by linarith⟩

/-- The numbers of an interval end half a step beyond the greatest finite double. -/
theorem Dyadic.Holds.lt_beyond (hd : d.Canonical) (h : d.Holds q) : q < beyond := by
  have hunit : (0 : ℚ) < 2 ^ d.exponent := by positivity
  have hmost : (2 : ℚ) ^ d.exponent ≤ 2 ^ (971 : ℤ) :=
    zpow_le_zpow_right₀ (by norm_num) hd.most
  have hm : (d.mantissa : ℚ) + 1 ≤ 2 ^ (53 : ℕ) := by exact_mod_cast hd.fits
  have hend : d.high ≤ (2 ^ (53 : ℕ) - 1 / 2) * 2 ^ d.exponent := by
    apply mul_le_mul_of_nonneg_right _ hunit.le
    linarith
  have hlast : (2 ^ (53 : ℕ) - 1 / 2 : ℚ) * 2 ^ d.exponent ≤ beyond := by
    rw [beyond_eq]
    exact mul_le_mul_of_nonneg_left hmost (by norm_num)
  unfold Dyadic.Holds at h
  by_cases heven : d.mantissa % 2 = 0
  · -- the greatest mantissa is odd
    rw [if_pos heven] at h
    have hfits := hd.fits
    have hless : (d.mantissa : ℚ) + 2 ≤ 2 ^ (53 : ℕ) := by
      exact_mod_cast (show d.mantissa + 2 ≤ 2 ^ 53 by omega)
    have hhigh : d.high < (2 ^ (53 : ℕ) - 1 / 2) * 2 ^ d.exponent := by
      apply mul_lt_mul_of_pos_right _ hunit
      linarith
    exact (h.2.trans_lt hhigh).trans_le hlast
  · rw [if_neg heven] at h
    exact (h.2.trans_le hend).trans_le hlast

theorem Dyadic.Holds.beyond_le (hd : d.Shaped) (hhuge : 972 ≤ d.exponent) (h : d.Holds q) :
    beyond ≤ q := by
  have hpow : (2 : ℚ) ^ (971 : ℤ) * 2 ≤ 2 ^ d.exponent := by
    rw [← zpow_add_one₀ two_ne_zero]
    exact zpow_le_zpow_right₀ (by norm_num) hhuge
  have hfull := hd.two_pow_le_mantissa (by omega)
  have hm : (2 : ℚ) ^ (52 : ℕ) - 1 / 4 ≤ d.mantissa - if d.narrowBelow then 1 / 4 else 1 / 2 := by
    split
    · have : (2 : ℚ) ^ (52 : ℕ) ≤ d.mantissa := by exact_mod_cast hfull
      linarith
    · next hwide =>
      have hne : d.mantissa ≠ 2 ^ 52 := fun heq => hwide (hd.narrow.mpr ⟨heq, by omega⟩)
      have : (2 : ℚ) ^ (52 : ℕ) + 1 ≤ d.mantissa := by
        exact_mod_cast (show 2 ^ 52 + 1 ≤ d.mantissa by omega)
      linarith
  calc beyond = (2 ^ (52 : ℕ) - 1 / 4) * (2 ^ (971 : ℤ) * 2) := by
        rw [beyond_eq]
        ring
    _ ≤ (2 ^ (52 : ℕ) - 1 / 4) * 2 ^ d.exponent := mul_le_mul_of_nonneg_left hpow (by norm_num)
    _ ≤ d.low := mul_le_mul_of_nonneg_right hm (by positivity)
    _ ≤ q := h.bounds.1

/-- Up to half the least double, zero is the nearest one. -/
theorem isNearest_zero (hq : 0 ≤ q) (hsmall : q ≤ 2 ^ (-1075 : ℤ)) : IsNearest q 0.0 := by
  have hparts : parts 0.0 = .finite false ⟨0, -1074, false⟩ := by decide
  have hvalue : (⟨0, -1074, false⟩ : Dyadic).value = 0 := value_eq_zero_iff.mpr rfl
  have hdouble : (2 : ℚ) ^ (-1074 : ℤ) = 2 ^ (-1075 : ℤ) * 2 := zpow_add_one₀ two_ne_zero (-1075)
  have hlittle : (2 : ℚ) ^ (-1075 : ℤ) ≤ 2 ^ (971 : ℤ) :=
    zpow_le_zpow_right₀ (by norm_num) (by norm_num)
  refine .finite hparts ?_ fun y w hy => ?_
  · have hpos : (0 : ℚ) < 2 ^ (971 : ℤ) := zpow_pos two_pos _
    rw [beyond_eq]
    exact (hsmall.trans hlittle).trans_lt (lt_mul_of_one_lt_left hpos (by norm_num))
  · rw [hvalue, sub_zero, abs_of_nonneg hq]
    rcases number_cases hy with hw | ⟨d, hd, -, rfl⟩
    · rcases hw.eq_or_lt with heq | hneg
      · exact .inl heq
      · refine .inr (.inl ?_)
        rw [abs_of_pos (by linarith)]
        linarith
    · -- the least double is as near at the most
      have hleast := least_le_value hd.toShaped
      have hle : q ≤ |q - d.value| := by
        rw [abs_sub_comm]
        exact le_trans (by linarith) (le_abs_self _)
      exact .inr (hle.lt_or_eq.imp_right fun htie => ⟨htie, rfl⟩)

/-- A decimal is read as the double nearest to it. -/
theorem isNearest_nearest (c : ℕ) (e : ℤ) : IsNearest (c * 10 ^ e) (nearest c e) := by
  rcases Nat.eq_zero_or_pos c with rfl | hc
  · have hzero : nearest 0 e = 0.0 := if_pos rfl
    rw [hzero, Nat.cast_zero, zero_mul]
    exact isNearest_zero le_rfl (zpow_pos two_pos _).le
  have hpos : (0 : ℚ) < c * 10 ^ e := by
    have : (0 : ℚ) < c := by exact_mod_cast hc
    positivity
  rcases le_or_gt (c * 10 ^ e : ℚ) (2 ^ (-1075 : ℤ)) with hsmall | hlarge
  · have hzero : nearest c e = 0.0 :=
      (nearest_eq hc (roundsAs_zero hpos hsmall)).trans (by decide)
    rw [hzero]
    exact isNearest_zero hpos.le hsmall
  · obtain ⟨d, hd, hholds⟩ := exists_holds hlarge
    rw [nearest_of_holds hd hc hholds]
    rcases le_or_gt d.exponent 971 with hmost | hhuge
    · have hcanonical : d.Canonical := ⟨hd, hmost⟩
      exact .finite (parts_toFloat hcanonical) (hholds.lt_beyond hcanonical)
        fun _ _ hy => hholds.nearer hd hy
    · have hinfinite : (Parts.finite false d).toFloat = (Parts.infinite false).toFloat := by
        rw [hd.toFloat, pack_of_huge .positive hd.pos (by omega)]
        rfl
      rw [hinfinite]
      exact .infinite (by decide) (hholds.beyond_le hd (by omega))

end Existence

/-! ## There is only one -/

section Uniqueness

variable {d d' : Dyadic} {q : ℚ} {x y : Float}

/-- Between two doubles with even mantissas there is another one. -/
theorem exists_between (hx : parts x = .finite false d) (hy : parts y = .finite false d')
    (heven : d.mantissa % 2 = 0) (heven' : d'.mantissa % 2 = 0) (h : d.value < d'.value) :
    ∃ z w, (parts z).value? = some w ∧ d.value < w ∧ w < d'.value := by
  -- the next one has an odd mantissa, so it is not the other one of the two
  obtain ⟨s, hs, hodd, hlt, hle⟩ : ∃ s : Dyadic, s.Canonical ∧ s.mantissa % 2 = 1 ∧
      d.value < s.value ∧ (d'.Canonical → s.value ≤ d'.value) := by
    rcases canonical_of_parts hx with hzero | hd
    · have hs : (⟨1, -1074, false⟩ : Dyadic).Canonical :=
        ⟨by constructor <;> norm_num, by norm_num⟩
      have hvalue : (⟨1, -1074, false⟩ : Dyadic).value = 2 ^ (-1074 : ℤ) := by
        simp [Dyadic.value]
      refine ⟨_, hs, rfl, ?_, fun hd' => hvalue ▸ least_le_value hd'.toShaped⟩
      rw [value_eq_zero_iff.mpr hzero, hvalue]
      exact zpow_pos two_pos _
    · have hfits := hd.fits
      have hs : (⟨d.mantissa + 1, d.exponent, false⟩ : Dyadic).Canonical := by
        have := hd.full
        refine ⟨?_, hd.most⟩
        constructor <;> simp <;> [omega; exact hd.least; omega; omega]
      have hvalue : (⟨d.mantissa + 1, d.exponent, false⟩ : Dyadic).value =
          d.value + 2 ^ d.exponent := by
        simp only [Dyadic.value]
        push_cast
        ring
      refine ⟨_, hs, by simp only; omega, ?_, fun hd' => ?_⟩
      · rw [hvalue]
        exact lt_add_of_pos_right _ (by positivity)
      · rw [hvalue]
        exact add_unit_le hd.toShaped hd'.toShaped h
  have hd' : d'.Canonical := (canonical_of_parts hy).resolve_left fun hzero => by
    rw [value_eq_zero_iff.mpr hzero] at h
    exact absurd h (not_lt.mpr (mul_nonneg (Nat.cast_nonneg _) (by positivity)))
  refine ⟨_, s.value, by rw [parts_toFloat hs]; rfl, hlt, (hle hd').lt_of_ne fun heq => ?_⟩
  have hmantissa := (eq_of_value hs hd' heq).1
  omega

/-- Of two nearest doubles the one is not smaller than the other. -/
theorem not_lt_of_isNearest (hx : parts x = .finite false d) (hy : parts y = .finite false d')
    (hnear : ∀ z w, (parts z).value? = some w → w = d.value ∨ |q - d.value| < |q - w| ∨
      |q - d.value| = |q - w| ∧ d.mantissa % 2 = 0)
    (hnear' : ∀ z w, (parts z).value? = some w → w = d'.value ∨ |q - d'.value| < |q - w| ∨
      |q - d'.value| = |q - w| ∧ d'.mantissa % 2 = 0) :
    ¬ d.value < d'.value := by
  intro hlt
  have hother := hnear y d'.value (by rw [hy]; rfl)
  have hother' := hnear' x d.value (by rw [hx]; rfl)
  -- the number is in the middle between the two, and both mantissas are even
  obtain ⟨htie, heven⟩ : |q - d.value| = |q - d'.value| ∧ d.mantissa % 2 = 0 := by
    rcases hother with heq | hless | htie
    · exact absurd heq hlt.ne'
    · rcases hother' with heq | hless' | htie
      · exact absurd heq hlt.ne
      · exact absurd hless' hless.le.not_gt
      · exact absurd htie.1 hless.ne'
    · exact htie
  have heven' : d'.mantissa % 2 = 0 := by
    rcases hother' with heq | hless | htie'
    · exact absurd heq hlt.ne
    · exact absurd htie hless.ne'
    · exact htie'.2
  obtain ⟨z, w, hz, hlow, hhigh⟩ := exists_between hx hy heven heven' hlt
  have hmiddle : q - d.value = d'.value - q := by
    rcases abs_eq_abs.mp htie with heq | heq
    · linarith
    · linarith
  have hnearer : |q - w| < |q - d.value| := by
    rw [abs_of_pos (show 0 < q - d.value by linarith)]
    exact abs_lt.mpr ⟨by linarith, by linarith⟩
  rcases hnear z w hz with heq | hless | htie'
  · exact absurd heq hlow.ne'
  · exact absurd hless hnearer.le.not_gt
  · exact absurd htie'.1 hnearer.ne'

/-- No number has two nearest doubles. -/
theorem IsNearest.unique (h : IsNearest q x) (h' : IsNearest q y) : x = y := by
  cases h with
  | finite hx hq hnear =>
      cases h' with
      | finite hy _ hnear' =>
          have hle := not_lt.mp (not_lt_of_isNearest hx hy hnear hnear')
          have hge := not_lt.mp (not_lt_of_isNearest hy hx hnear' hnear)
          exact float_eq_of_value hx hy (hge.antisymm hle)
      | infinite _ hq' => exact absurd hq hq'.not_gt
  | infinite hx hq =>
      cases h' with
      | finite _ hq' => exact absurd hq' hq.not_gt
      | infinite hy => rw [← toFloat_parts x, ← toFloat_parts y, hx, hy]

end Uniqueness

/-! ## Numerals -/

/-- The number that a numeral stands for, by its digits before and after the point. -/
def numeral (whole fraction : List Char) : ℚ :=
  Nat.ofDigitChars 10 (whole ++ fraction) 0 / 10 ^ fraction.length

/-- A numeral is read as a double exactly if that is the one nearest to its number. -/
theorem isNearest_numeral_iff {whole fraction : List Char} {x : Float} :
    IsNearest (numeral whole fraction) x ↔ x = ofParts whole fraction := by
  have hread : IsNearest (numeral whole fraction) (ofParts whole fraction) := by
    have h := isNearest_nearest (valueOf (whole ++ fraction)) (-fraction.length)
    rw [zpow_neg, zpow_natCast, ← div_eq_mul_inv] at h
    rw [numeral, ← valueOf_eq]
    exact h
  constructor
  · exact fun h => h.unique hread
  · rintro rfl
    exact hread

end NovaLang.Decimal
