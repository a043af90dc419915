import NovaLang.Decimal.Numeral
import NovaLang.Proofs.Decimal.Rounding

namespace NovaLang.Decimal

open Float.Model Float.Model.UnpackedFloat

/-! # Decimals read as doubles

A decimal is read as what rounding makes of its value: the double whose interval holds it, zero
below the least interval, infinity above the greatest. The reader multiplies or divides by a power
of ten and rounds once: small powers of ten and short coefficients are doubles themselves, all
others go through whole numbers.
-/

/-! ## Products and quotients -/

theorem stands_exact (m : ℕ) : Stands (.ofMantissaAndAccuracy m .exact) m := rfl

/-- A quotient and the remainder's share of a unit stand for the exact quotient. -/
theorem stands_quotient (n : ℕ) {k : ℕ} (hk : 0 < k) :
    Stands (.ofMantissaAndAccuracy (n / k) (accuracyOfFraction (n % k) k)) (n / k : ℚ) := by
  have hkq : (0 : ℚ) < k := by exact_mod_cast hk
  have hn : (n : ℚ) = k * (n / k : ℕ) + (n % k : ℕ) := by exact_mod_cast (Nat.div_add_mod n k).symm
  have hlt : ((n % k : ℕ) : ℚ) < k := by exact_mod_cast Nat.mod_lt n hk
  generalize n / k = q at hn ⊢
  generalize n % k = r at hn hlt ⊢
  have hquotient : (n : ℚ) / k = q + r / k := by
    rw [hn]
    field_simp
  rw [hquotient, accuracyOfFraction]
  split
  · next hzero =>
    rw [hzero]
    simp [ExtendedMantissa.ofMantissaAndAccuracy, Stands]
  · next hne =>
    have hr : (0 : ℚ) < r := by exact_mod_cast Nat.pos_of_ne_zero hne
    have hpos : (0 : ℚ) < r / k := by positivity
    rcases lt_trichotomy (2 * r) k with hcmp | hcmp | hcmp
    · have : (2 : ℚ) * r < k := by exact_mod_cast hcmp
      have hhalf : (r : ℚ) / k < 1 / 2 := by
        rw [div_lt_iff₀ hkq]
        linarith
      rw [Nat.compare_eq_lt.mpr hcmp]
      exact ⟨by linarith, by linarith⟩
    · have : (2 : ℚ) * r = k := by exact_mod_cast hcmp
      have hhalf : (r : ℚ) / k = 1 / 2 := by
        rw [div_eq_iff hkq.ne']
        linarith
      rw [Nat.compare_eq_eq.mpr hcmp]
      show _ = _
      rw [hhalf]
    · have : (k : ℚ) < 2 * r := by exact_mod_cast hcmp
      have hhalf : 1 / 2 < (r : ℚ) / k := by
        rw [lt_div_iff₀ hkq]
        linarith
      have hone : (r : ℚ) / k < 1 := by
        rw [div_lt_one hkq]
        exact hlt
      rw [Nat.compare_eq_gt.mpr hcmp]
      exact ⟨by linarith, by linarith⟩

section Operations

variable {u : UnpackedFloat} {m₁ m₂ : ℕ} {e₁ e₂ : ℤ}

/-- A product is rounded once. -/
theorem mul_eq (h₁ : 0 < m₁) (h₂ : 0 < m₂) (hlong : 2 ^ 52 ≤ m₁ * m₂)
    (h : RoundsAs (m₁ * 2 ^ e₁ * (m₂ * 2 ^ e₂)) u) :
    UnpackedFloat.mul .binary64 (.finite .positive m₁ e₁ h₁) (.finite .positive m₂ e₂ h₂) = u := by
  refine h.rounds ?_ ?_
  · have hvalue : (m₁ * 2 ^ e₁ * (m₂ * 2 ^ e₂) : ℚ) / 2 ^ (e₁ + e₂) = (m₁ * m₂ : ℕ) := by
      rw [zpow_add₀ (by norm_num)]
      push_cast
      field_simp
    rw [hvalue]
    exact stands_exact _
  · have hlog : 52 ≤ (m₁ * m₂).log2 := (Nat.le_log2 (by positivity)).mpr hlong
    rw [targetExponent_eq]
    omega

/-- The quotient is taken with so many bits that none is missing from the mantissa. -/
theorem le_targetExponent_quotient {e : ℤ} (h₁ : 0 < m₁) (h₂ : 0 < m₂) (hle : e ≤ e₁ - e₂)
    (htarget : e ≤ Format.binary64.targetExponent (totalExponent m₁ e₁ - totalExponent m₂ e₂)) :
    e ≤ Format.binary64.targetExponent
      (totalExponent ((m₁ <<< (e₁ - e₂ - e).toNat) / m₂) e) := by
  rw [targetExponent_eq]
  by_cases hmin : e ≤ -1074
  · omega
  · have htarget' : e ≤ max ((m₁.log2 + 1 + e₁) - (m₂.log2 + 1 + e₂) - 53) (-1074) := htarget
    have hshift : 52 + (m₂.log2 + 1) ≤ m₁.log2 + (e₁ - e₂ - e).toNat := by omega
    have hlong : 2 ^ 52 ≤ (m₁ <<< (e₁ - e₂ - e).toNat) / m₂ := by
      rw [Nat.le_div_iff_mul_le h₂, Nat.shiftLeft_eq]
      calc 2 ^ 52 * m₂ ≤ 2 ^ 52 * 2 ^ (m₂.log2 + 1) :=
            Nat.mul_le_mul_left _ Nat.lt_log2_self.le
        _ ≤ 2 ^ m₁.log2 * 2 ^ (e₁ - e₂ - e).toNat := by
            rw [← pow_add, ← pow_add]
            exact Nat.pow_le_pow_right (by norm_num) hshift
        _ ≤ m₁ * 2 ^ (e₁ - e₂ - e).toNat :=
            Nat.mul_le_mul_right _ (Nat.log2_self_le h₁.ne')
    have hlog := (Nat.le_log2 (by omega)).mpr hlong
    omega

/-- A quotient is rounded once. -/
theorem div_eq (h₁ : 0 < m₁) (h₂ : 0 < m₂) (h : RoundsAs (m₁ * 2 ^ e₁ / (m₂ * 2 ^ e₂)) u) :
    UnpackedFloat.div .binary64 (.finite .positive m₁ e₁ h₁) (.finite .positive m₂ e₂ h₂) = u := by
  have hle : min (e₁ - e₂)
      (Format.binary64.targetExponent (totalExponent m₁ e₁ - totalExponent m₂ e₂)) ≤ e₁ - e₂ :=
    min_le_left ..
  have htarget := le_targetExponent_quotient h₁ h₂ hle (min_le_right ..)
  simp only [UnpackedFloat.div, divCore]
  generalize min (e₁ - e₂)
    (Format.binary64.targetExponent (totalExponent m₁ e₁ - totalExponent m₂ e₂)) = e at hle htarget
  refine h.rounds ?_ htarget
  have hm₂ : (m₂ : ℚ) ≠ 0 := by exact_mod_cast h₂.ne'
  have hvalue : (m₁ * 2 ^ e₁ / (m₂ * 2 ^ e₂) : ℚ) / 2 ^ e =
      ((m₁ <<< (e₁ - e₂ - e).toNat : ℕ) : ℚ) / m₂ := by
    have hpow : (2 : ℚ) ^ (e₁ - e₂ - e).toNat = 2 ^ e₁ / 2 ^ e₂ / 2 ^ e := by
      rw [← zpow_natCast, Int.toNat_of_nonneg (by omega), zpow_sub₀ (by norm_num),
        zpow_sub₀ (by norm_num)]
    rw [Nat.shiftLeft_eq]
    push_cast
    rw [hpow]
    field_simp
  rw [hvalue]
  exact stands_quotient _ h₂

end Operations

/-! ## Short numbers are doubles -/

/-- A double lies in its own interval. -/
theorem Dyadic.holds_value (d : Dyadic) : d.Holds (d.mantissa * 2 ^ d.exponent) := by
  have hunit : (0 : ℚ) < 2 ^ d.exponent := by positivity
  have hlow : d.low < d.mantissa * 2 ^ d.exponent := by
    apply mul_lt_mul_of_pos_right _ hunit
    split <;> linarith
  have hhigh : d.mantissa * 2 ^ d.exponent < d.high := by
    apply mul_lt_mul_of_pos_right _ hunit
    linarith
  unfold Dyadic.Holds
  split
  · exact ⟨hlow.le, hhigh.le⟩
  · exact ⟨hlow, hhigh⟩

/-- The double `k * 2 ^ e`, for a number of at most 53 bits. -/
def Dyadic.ofShort (k : ℕ) (e : ℤ) : Dyadic :=
  ⟨k <<< (52 - k.log2), e + k.log2 - 52, k <<< (52 - k.log2) == 2 ^ 52 && -1022 < e + k.log2⟩

section Short

variable {k : ℕ} {e : ℤ}

theorem shiftLeft_short_bounds (hk : 0 < k) (hshort : k < 2 ^ 53) :
    2 ^ 52 ≤ k <<< (52 - k.log2) ∧ k <<< (52 - k.log2) < 2 ^ 53 := by
  have hlog : k.log2 < 53 := log2_lt_of_lt (by norm_num) hshort
  have hself := Nat.log2_self_le hk.ne'
  have hlt : k < 2 ^ (k.log2 + 1) := Nat.lt_log2_self
  rw [Nat.shiftLeft_eq]
  constructor
  · calc 2 ^ 52 = 2 ^ k.log2 * 2 ^ (52 - k.log2) := by rw [← pow_add]; congr 1; omega
      _ ≤ k * 2 ^ (52 - k.log2) := Nat.mul_le_mul_right _ hself
  · calc k * 2 ^ (52 - k.log2) < 2 ^ (k.log2 + 1) * 2 ^ (52 - k.log2) :=
          Nat.mul_lt_mul_of_pos_right hlt (by positivity)
      _ = 2 ^ 53 := by rw [← pow_add]; congr 1; omega

theorem canonical_ofShort (hk : 0 < k) (hshort : k < 2 ^ 53) (hlow : -1022 ≤ e + k.log2)
    (hhigh : e + k.log2 ≤ 1023) : (Dyadic.ofShort k e).Canonical := by
  obtain ⟨h1, h2⟩ := shiftLeft_short_bounds hk hshort
  refine ⟨?_, by simp only [Dyadic.ofShort]; omega⟩
  constructor <;> simp only [Dyadic.ofShort, Bool.and_eq_true, beq_iff_eq, decide_eq_true_eq] <;>
    omega

theorem value_ofShort (hshort : k < 2 ^ 53) :
    ((Dyadic.ofShort k e).mantissa * 2 ^ (Dyadic.ofShort k e).exponent : ℚ) = k * 2 ^ e := by
  have hlog : k.log2 < 53 := log2_lt_of_lt (by norm_num) hshort
  simp only [Dyadic.ofShort, Nat.shiftLeft_eq]
  push_cast
  rw [mul_assoc, ← zpow_natCast, ← zpow_add₀ (by norm_num)]
  congr 2
  omega

/-- A whole number of at most 53 bits is a double. -/
theorem toFloat_toUInt64 (hk : 0 < k) (hshort : k < 2 ^ 53) :
    k.toUInt64.toFloat = (Parts.finite false (.ofShort k 0)).toFloat := by
  have hlog : k.log2 < 53 := log2_lt_of_lt (by norm_num) hshort
  have hd : (Dyadic.ofShort k 0).Canonical :=
    canonical_ofShort hk hshort (by omega) (by omega)
  have hnat : k.toUInt64.toNat = k := by
    rw [Nat.toUInt64_eq, UInt64.toNat_ofNat']
    omega
  have hround : UnpackedFloat.round .binary64 .positive k 0 =
      .finite .positive (Dyadic.ofShort k 0).mantissa (Dyadic.ofShort k 0).exponent hd.pos := by
    have hshift : (0 - Format.binary64.targetExponent (totalExponent k 0)).toNat = 52 - k.log2 := by
      rw [targetExponent_eq]
      omega
    have hexponent : (0 - (52 - k.log2 : ℕ) : ℤ) = (Dyadic.ofShort k 0).exponent := by
      show _ = 0 + (k.log2 : ℤ) - 52
      omega
    simp only [UnpackedFloat.round, decreaseExponent, hshift, hexponent]
    refine roundWithAccuracy_eq hd.toShaped _ ?_ ?_ (Dyadic.holds_value _)
    · rw [mul_div_cancel_right₀ _ (by positivity)]
      exact stands_exact _
    · have hlog' := log2_of_full (shiftLeft_short_bounds hk hshort).1
        (shiftLeft_short_bounds hk hshort).2
      rw [targetExponent_eq, hlog']
      omega
  have hcompare : compare (k : ℤ) 0 = .gt := Int.compare_eq_gt.mpr (by omega)
  rw [hd.toFloat, ← hround, UInt64.toFloat, Float.Model.ofUInt64, UnpackedFloat.ofUInt64, hnat,
    UnpackedFloat.ofNat, UnpackedFloat.ofInt, UnpackedFloat.normalize, hcompare]
  rfl

/-- The small powers of ten are doubles. -/
theorem exactlyRepresentablePowersOfTen_eq : ∀ n : Fin 23,
    Float.exactlyRepresentablePowersOfTen[n] =
      (Parts.finite false (.ofShort (5 ^ n.val) n)).toFloat := by
  decide

end Short

/-! ## Reading a decimal -/

section Read

variable {u : UnpackedFloat} {d₁ d₂ : Dyadic} {c : ℕ} {e : ℤ}

theorem mul_toFloat (h₁ : d₁.Canonical) (h₂ : d₂.Canonical)
    (hlong : 2 ^ 52 ≤ d₁.mantissa * d₂.mantissa)
    (h : RoundsAs (d₁.mantissa * 2 ^ d₁.exponent * (d₂.mantissa * 2 ^ d₂.exponent)) u) :
    (Parts.finite false d₁).toFloat * (Parts.finite false d₂).toFloat = .ofModel (.pack u) := by
  rw [h₁.toFloat, h₂.toFloat]
  show Float.ofModel (.pack (UnpackedFloat.mul .binary64 (Float.Model.unpack _)
    (Float.Model.unpack _))) = _
  rw [unpack_pack_canonical _ h₁, unpack_pack_canonical _ h₂, mul_eq _ _ hlong h]

theorem div_toFloat (h₁ : d₁.Canonical) (h₂ : d₂.Canonical)
    (h : RoundsAs (d₁.mantissa * 2 ^ d₁.exponent / (d₂.mantissa * 2 ^ d₂.exponent)) u) :
    (Parts.finite false d₁).toFloat / (Parts.finite false d₂).toFloat = .ofModel (.pack u) := by
  rw [h₁.toFloat, h₂.toFloat]
  show Float.ofModel (.pack (UnpackedFloat.div .binary64 (Float.Model.unpack _)
    (Float.Model.unpack _))) = _
  rw [unpack_pack_canonical _ h₁, unpack_pack_canonical _ h₂, div_eq _ _ h]

/-- With a great exponent the value is beyond all doubles. -/
theorem huge_of_exponent (hc : 0 < c) (he : 2048 < e) : (2 : ℚ) ^ (1024 : ℤ) ≤ c * 10 ^ e := by
  have hcoefficient : (1 : ℚ) ≤ c := by exact_mod_cast hc
  calc (2 : ℚ) ^ (1024 : ℤ) ≤ 2 ^ e := zpow_le_zpow_right₀ (by norm_num) (by omega)
    _ ≤ 10 ^ e := zpow_le_zpow_left₀ (by omega) (by norm_num) (by norm_num)
    _ ≤ c * 10 ^ e := le_mul_of_one_le_left (by positivity) hcoefficient

/-- With an exponent so small that the coefficient does not matter the value is below all doubles. -/
theorem tiny_of_exponent (he : e < -(2048 + (c.log2 : ℤ))) :
    (c * 10 ^ e : ℚ) < 2 ^ (-1076 : ℤ) := by
  have hcoefficient : (c : ℚ) < 2 ^ (c.log2 + 1) := by exact_mod_cast Nat.lt_log2_self
  have hten : (10 : ℚ) ^ e ≤ 2 ^ e := by
    have hpowers : (2 : ℚ) ^ (-e) ≤ 10 ^ (-e) :=
      zpow_le_zpow_left₀ (by omega) (by norm_num) (by norm_num)
    have hinverse := inv_anti₀ (by positivity) hpowers
    rwa [← zpow_neg, ← zpow_neg, neg_neg] at hinverse
  calc (c * 10 ^ e : ℚ) < 2 ^ (c.log2 + 1) * 10 ^ e :=
        mul_lt_mul_of_pos_right hcoefficient (by positivity)
    _ ≤ 2 ^ (c.log2 + 1) * 2 ^ e := mul_le_mul_of_nonneg_left hten (by positivity)
    _ = 2 ^ (c.log2 + 1 + e) := by
        rw [zpow_add₀ (by norm_num)]
        norm_cast
    _ ≤ 2 ^ (-1076 : ℤ) := zpow_le_zpow_right₀ (by norm_num) (by omega)

/-- Long coefficients and large powers of ten: one product or quotient of whole numbers, unless
the exponent alone tells what the value is rounded to. -/
theorem ofScientific_long (hc : 0 < c) (h : RoundsAs (c * 10 ^ e) u) :
    Float.Model.pack (UnpackedFloat.ofScientific .binary64 c e) = .pack u := by
  rw [UnpackedFloat.ofScientific, dif_neg hc.ne']
  split
  · next hhuge =>
    exact (h.huge (huge_of_exponent hc hhuge)).symm
  split
  · next htiny =>
    rw [h.tiny (tiny_of_exponent htiny)]
  split
  · next hpos =>
    congr 1
    refine mul_eq _ _ ?_ ?_
    · calc 2 ^ 52 ≤ c * 2 ^ 53 := by omega
        _ = c <<< Format.binary64.mantissaBits := (Nat.shiftLeft_eq ..).symm
        _ ≤ c <<< Format.binary64.mantissaBits * 10 ^ e.toNat :=
          Nat.le_mul_of_pos_right _ (by positivity)
    · convert h using 1
      have hten : (10 : ℚ) ^ e = 10 ^ e.toNat := by
        rw [← zpow_natCast, Int.toNat_of_nonneg hpos]
      rw [hten, Nat.shiftLeft_eq, mantissaBits_binary64]
      push_cast
      rw [zpow_neg]
      norm_num
      ring
  · next hneg =>
    congr 1
    refine div_eq _ _ ?_
    convert h using 1
    have hten : (10 : ℚ) ^ e = (10 ^ (-e).toNat)⁻¹ := by
      rw [← zpow_natCast, Int.toNat_of_nonneg (by omega), zpow_neg, inv_inv]
    rw [hten]
    push_cast
    simp [div_eq_mul_inv]

/-- The power of ten with a sign in front of its exponent. -/
def signedExponent (negative : Bool) (n : ℕ) : ℤ := if negative then -n else n

theorem ofScientific_eq {n : ℕ} (negative : Bool) (hc : 0 < c)
    (h : RoundsAs (c * 10 ^ signedExponent negative n) u) :
    Float.ofScientific c negative n = .ofModel (.pack u) := by
  unfold Float.ofScientific
  split
  · next hshort =>
    obtain ⟨hc53, hn22⟩ := hshort
    have hten := exactlyRepresentablePowersOfTen_eq ⟨n, by omega⟩
    have hfive : 5 ^ n < 2 ^ 53 :=
      (Nat.pow_le_pow_right (by norm_num) hn22).trans_lt (by norm_num)
    have hlog : (5 ^ n).log2 < 53 := log2_lt_of_lt (by norm_num) hfive
    have hclog : c.log2 < 53 := log2_lt_of_lt (by norm_num) hc53
    have hwhole : (Dyadic.ofShort c 0).Canonical :=
      canonical_ofShort hc hc53 (by omega) (by omega)
    have hpower : (Dyadic.ofShort (5 ^ n) n).Canonical :=
      canonical_ofShort (by positivity) hfive (by omega) (by omega)
    have hvalue : ((5 ^ n : ℕ) * 2 ^ (n : ℤ) : ℚ) = 10 ^ n := by
      rw [zpow_natCast]
      push_cast
      rw [← mul_pow]
      norm_num
    simp only [Fin.getElem_fin] at hten
    simp only [toFloat_toUInt64 hc hc53, hten]
    split
    · next hnegative =>
      refine div_toFloat hwhole hpower ?_
      rw [value_ofShort hc53, value_ofShort hfive, hvalue]
      simpa [signedExponent, hnegative, div_eq_mul_inv] using h
    · next hpositive =>
      refine mul_toFloat hwhole hpower ?_ ?_
      · calc 2 ^ 52 ≤ (Dyadic.ofShort c 0).mantissa := (shiftLeft_short_bounds hc hc53).1
          _ ≤ (Dyadic.ofShort c 0).mantissa * (Dyadic.ofShort (5 ^ n) n).mantissa :=
            Nat.le_mul_of_pos_right _ hpower.pos
      · rw [value_ofShort hc53, value_ofShort hfive, hvalue]
        simpa [signedExponent, hpositive] using h
  · have he : (if negative then Int.negOfNat n else Int.ofNat n) = signedExponent negative n := by
      cases negative
      · rfl
      · exact Int.negOfNat_eq
    simp only [he]
    rw [Float.Model.ofScientific, ofScientific_long hc h]

/-- A decimal is read as what its value is rounded to. -/
theorem nearest_eq (hc : 0 < c) (h : RoundsAs (c * 10 ^ e) u) :
    nearest c e = .ofModel (.pack u) := by
  have hnotzero : ¬ (c == 0) = true := by simpa using hc.ne'
  rw [nearest, if_neg hnotzero]
  split
  · next hneg =>
    refine ofScientific_eq true hc ?_
    rwa [signedExponent, if_pos rfl, Int.toNat_of_nonneg (by omega), neg_neg]
  · next hpos =>
    refine ofScientific_eq false hc ?_
    rwa [signedExponent, if_neg (by decide), Int.toNat_of_nonneg (by omega)]

/-- A decimal in the interval of a double is read as that double. -/
theorem nearest_of_holds {d : Dyadic} (hd : d.Shaped) (hc : 0 < c) (h : d.Holds (c * 10 ^ e)) :
    nearest c e = (Parts.finite false d).toFloat := by
  rw [nearest_eq hc (h.roundsAs hd), hd.toFloat]

end Read

end NovaLang.Decimal
