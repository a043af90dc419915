import NovaLang.Proofs.Decimal.Nearest
import NovaLang.Proofs.Decimal.Shortest

namespace NovaLang.Decimal

/-! # Where doubles lie

A finite double is determined by its value, and two of them are at least one step apart. The
intervals of the positive doubles leave nothing out between half the least one and infinity, if
the exponent is allowed to be too great.
-/

/-! ## Doubles by their values -/

section Values

variable {d d' : Dyadic}

theorem log2_eq_of_value (hd : d.Canonical) (hd' : d'.Canonical) (h : d.value = d'.value) :
    (d.mantissa.log2 + d.exponent : ℤ) = d'.mantissa.log2 + d'.exponent := by
  have lt_of_value {d d' : Dyadic} (hd : d.Canonical) (hd' : d'.Canonical)
      (h : d.value = d'.value) :
      (d.mantissa.log2 + d.exponent : ℤ) < d'.mantissa.log2 + d'.exponent + 1 := by
    have hpowers := hd.value_bounds.1.trans_lt (h ▸ hd'.value_bounds.2)
    exact (zpow_lt_zpow_iff_right₀ (by norm_num)).mp hpowers
  have hle := lt_of_value hd hd' h
  have hge := lt_of_value hd' hd h.symm
  omega

/-- Of two canonical forms of one value neither has the smaller exponent: the mantissa
would not fit. -/
theorem exponent_le_of_value (hd : d.Canonical) (hd' : d'.Canonical) (h : d.value = d'.value) :
    d'.exponent ≤ d.exponent := by
  have hlog := log2_eq_of_value hd hd' h
  have hfits : d.mantissa.log2 < 53 := log2_lt_of_lt (by norm_num) hd.fits
  rcases hd'.full with hfull | hleast
  · rw [log2_of_full hfull hd'.fits] at hlog
    omega
  · have := hd.least
    omega

/-- A canonical form is determined by its value. -/
theorem eq_of_value (hd : d.Canonical) (hd' : d'.Canonical) (h : d.value = d'.value) :
    d.mantissa = d'.mantissa ∧ d.exponent = d'.exponent := by
  have hexponent : d.exponent = d'.exponent :=
    le_antisymm (exponent_le_of_value hd' hd h.symm) (exponent_le_of_value hd hd' h)
  have hunit : (2 : ℚ) ^ d'.exponent ≠ 0 := by positivity
  rw [Dyadic.value, Dyadic.value, hexponent] at h
  exact ⟨by exact_mod_cast mul_right_cancel₀ hunit h, hexponent⟩

theorem value_eq_zero_iff : d.value = 0 ↔ d.mantissa = 0 := by
  have hunit : (2 : ℚ) ^ d.exponent ≠ 0 := by positivity
  simp [Dyadic.value, hunit]

/-- A finite double is determined by its sign and its value. -/
theorem float_eq_of_value {x y : Float} {negative : Bool} (hx : parts x = .finite negative d)
    (hy : parts y = .finite negative d') (h : d.value = d'.value) : x = y := by
  have hunpacked : (Parts.finite negative d).unpacked = (Parts.finite negative d').unpacked := by
    have hzero : d.mantissa = 0 ↔ d'.mantissa = 0 := by
      rw [← value_eq_zero_iff, h, value_eq_zero_iff]
    rcases canonical_of_parts hx with hm | hd
    · simp [Parts.unpacked, hm, hzero.mp hm]
    · rcases canonical_of_parts hy with hm' | hd'
      · exact absurd (hzero.mpr hm') hd.pos.ne'
      · obtain ⟨hmantissa, hexponent⟩ := eq_of_value hd hd' h
        simp [Parts.unpacked, hmantissa, hexponent]
  rw [← toFloat_parts x, ← toFloat_parts y, hx, hy, Parts.toFloat, Parts.toFloat, hunpacked]

/-- Only the parts of a positive number unpack to one. -/
theorem eq_finite_of_unpacked {p : Parts} {m : ℕ} {e : ℤ} {hm : 0 < m}
    (h : p.unpacked = .finite .positive m e hm) :
    ∃ d, p = .finite false d ∧ d.mantissa = m ∧ d.exponent = e := by
  cases p with
  | finite negative d =>
      by_cases hpos : 0 < d.mantissa
      · rw [Parts.unpacked, dif_pos hpos] at h
        obtain ⟨hsign, hmantissa, hexponent⟩ := Float.Model.UnpackedFloat.finite.inj h
        cases negative with
        | false => exact ⟨d, rfl, hmantissa, hexponent⟩
        | true => cases hsign
      · rw [Parts.unpacked, dif_neg hpos] at h
        cases h
  | infinite negative => cases h
  | undefined => cases h

/-- The parts of the double of a canonical form are that form. -/
theorem parts_toFloat (hd : d.Canonical) :
    parts (Parts.finite false d).toFloat = .finite false d := by
  have hmodel : (Parts.finite false d).toFloat.toModel.unpack =
      .finite .positive d.mantissa d.exponent hd.pos := by
    rw [hd.toFloat]
    exact unpack_pack_canonical .positive hd
  have hunpack := (unpack_toModel (Parts.finite false d).toFloat).symm.trans hmodel
  obtain ⟨d', hparts, hmantissa, hexponent⟩ := eq_finite_of_unpacked hunpack
  have hd' : d'.Canonical := (canonical_of_parts hparts).resolve_left fun hzero =>
    hd.pos.ne' (hmantissa ▸ hzero)
  have hnarrow : d'.narrowBelow = d.narrowBelow := by
    rw [Bool.eq_iff_iff, hd'.narrow, hd.narrow, hmantissa, hexponent]
  cases d
  cases d'
  simp only at hmantissa hexponent hnarrow
  rw [hparts, hmantissa, hexponent, hnarrow]

end Values

/-! ## Steps -/

section Steps

variable {d d' : Dyadic}

/-- The distance to the next smaller double. -/
def Dyadic.stepBelow (d : Dyadic) : ℚ := (if d.narrowBelow then 1 / 2 else 1) * 2 ^ d.exponent

theorem low_eq (d : Dyadic) : d.low = d.value - d.stepBelow / 2 := by
  rw [Dyadic.low, Dyadic.value, Dyadic.stepBelow]
  split <;> ring

theorem high_eq (d : Dyadic) : d.high = d.value + 2 ^ d.exponent / 2 := by
  rw [Dyadic.high, Dyadic.value]
  ring

theorem stepBelow_pos (d : Dyadic) : 0 < d.stepBelow := by
  unfold Dyadic.stepBelow
  split <;> positivity

theorem stepBelow_le (d : Dyadic) : d.stepBelow ≤ 2 ^ d.exponent := by
  have hunit : (0 : ℚ) < 2 ^ d.exponent := by positivity
  unfold Dyadic.stepBelow
  split <;> linarith

/-- A value is a whole number of units of any smaller exponent. -/
theorem exists_value_eq {e : ℤ} (he : e ≤ d.exponent) : ∃ k : ℕ, d.value = k * 2 ^ e := by
  refine ⟨d.mantissa * 2 ^ (d.exponent - e).toNat, ?_⟩
  push_cast
  rw [Dyadic.value, mul_assoc, ← zpow_natCast, ← zpow_add₀ (by norm_num)]
  congr 2
  omega

theorem Dyadic.Shaped.value_lt (hd : d.Shaped) : d.value < 2 ^ (53 : ℕ) * 2 ^ d.exponent := by
  have hm : (d.mantissa : ℚ) < 2 ^ (53 : ℕ) := by exact_mod_cast hd.fits
  exact mul_lt_mul_of_pos_right hm (by positivity)

/-- Where the exponent could be smaller, the mantissa is full. -/
theorem Dyadic.Shaped.two_pow_le_mantissa (hd : d.Shaped) (h : -1074 < d.exponent) :
    2 ^ 52 ≤ d.mantissa := hd.full.resolve_right (by omega)

/-- A step of a greater exponent is at least two of a smaller one. -/
theorem two_mul_unit_le {e e' : ℤ} (h : e' < e) : 2 * (2 : ℚ) ^ e' ≤ 2 ^ e := by
  rw [← zpow_one_add₀ (by norm_num)]
  exact zpow_le_zpow_right₀ (by norm_num) (by omega)

/-- The next greater double is one unit away or more. -/
theorem add_unit_le (hd : d.Shaped) (hd' : d'.Shaped) (h : d.value < d'.value) :
    d.value + 2 ^ d.exponent ≤ d'.value := by
  have hunit : (0 : ℚ) < 2 ^ d.exponent := by positivity
  rcases le_or_gt d.exponent d'.exponent with hle | hgt
  · obtain ⟨k, hk⟩ := exists_value_eq hle
    rw [hk, Dyadic.value] at h ⊢
    have hlt : d.mantissa < k := by exact_mod_cast lt_of_mul_lt_mul_right h hunit.le
    have hsucc : (d.mantissa : ℚ) + 1 ≤ k := by exact_mod_cast hlt
    linarith [mul_le_mul_of_nonneg_right hsucc hunit.le]
  · -- a smaller exponent does not reach as far as a full mantissa
    have hfull : (2 : ℚ) ^ (52 : ℕ) ≤ d.mantissa := by
      exact_mod_cast hd.two_pow_le_mantissa (hd'.least.trans_lt hgt)
    have hvalue : 2 ^ (52 : ℕ) * 2 ^ d.exponent ≤ d.value :=
      mul_le_mul_of_nonneg_right hfull hunit.le
    have hlt := hd'.value_lt
    linarith [two_mul_unit_le hgt]

/-- The next smaller double is one step away or more. -/
theorem le_sub_stepBelow (hd : d.Shaped) (hd' : d'.Shaped) (h : d'.value < d.value) :
    d'.value ≤ d.value - d.stepBelow := by
  have hunit : (0 : ℚ) < 2 ^ d.exponent := by positivity
  have hstep := stepBelow_le d
  rcases le_or_gt d.exponent d'.exponent with hle | hgt
  · obtain ⟨k, hk⟩ := exists_value_eq hle
    rw [hk, Dyadic.value] at h ⊢
    have hlt : k < d.mantissa := by exact_mod_cast lt_of_mul_lt_mul_right h hunit.le
    have hsucc : (k : ℚ) + 1 ≤ d.mantissa := by exact_mod_cast hlt
    linarith [mul_le_mul_of_nonneg_right hsucc hunit.le]
  · have hleast := hd'.least.trans_lt hgt
    have hfull := hd.two_pow_le_mantissa hleast
    have htwo := two_mul_unit_le hgt
    by_cases hnarrow : d.mantissa = 2 ^ 52
    · -- below the least full mantissa the units are half as great
      have hmost : (d'.mantissa : ℚ) ≤ 2 ^ (53 : ℕ) - 1 := by
        have := hd'.fits
        have : (d'.mantissa : ℚ) + 1 ≤ 2 ^ (53 : ℕ) := by exact_mod_cast this
        linarith
      have hvalue : d'.value ≤ (2 ^ (53 : ℕ) - 1) * 2 ^ d'.exponent :=
        mul_le_mul_of_nonneg_right hmost (by positivity)
      have hown : d.value = 2 ^ (52 : ℕ) * 2 ^ d.exponent := by
        rw [Dyadic.value, hnarrow]
        norm_num
      rw [hown, Dyadic.stepBelow, if_pos (hd.narrow.mpr ⟨hnarrow, hleast⟩)]
      linarith
    · have hmore : (2 : ℚ) ^ (52 : ℕ) + 1 ≤ d.mantissa := by
        exact_mod_cast (show 2 ^ 52 + 1 ≤ d.mantissa by omega)
      have hvalue : (2 ^ (52 : ℕ) + 1) * 2 ^ d.exponent ≤ d.value :=
        mul_le_mul_of_nonneg_right hmore hunit.le
      have hlt := hd'.value_lt
      linarith

/-- One step below a positive double there is nothing negative. -/
theorem stepBelow_le_value (hd : d.Shaped) : d.stepBelow ≤ d.value := by
  have hone : (1 : ℚ) ≤ d.mantissa := by exact_mod_cast hd.pos
  calc d.stepBelow ≤ 1 * 2 ^ d.exponent := by rw [one_mul]; exact stepBelow_le d
    _ ≤ d.value := mul_le_mul_of_nonneg_right hone (by positivity)

/-- No positive double is smaller than the least one. -/
theorem least_le_value (hd : d.Shaped) : (2 : ℚ) ^ (-1074 : ℤ) ≤ d.value := by
  have hone : (1 : ℚ) ≤ d.mantissa := by exact_mod_cast hd.pos
  calc (2 : ℚ) ^ (-1074 : ℤ) ≤ 1 * 2 ^ d.exponent := by
        rw [one_mul]
        exact zpow_le_zpow_right₀ (by norm_num) hd.least
    _ ≤ d.value := mul_le_mul_of_nonneg_right hone (by positivity)

end Steps

/-! ## Every positive number is in an interval -/

/-- Every number that is not negative rounds to a whole number. -/
theorem exists_roundsTo {x : ℚ} (hx : 0 ≤ x) : ∃ k, RoundsTo k x := by
  have hle := Nat.floor_le hx
  have hlt := Nat.lt_floor_add_one x
  generalize ⌊x⌋₊ = k at hle hlt
  rcases lt_trichotomy x (k + 1 / 2) with h | h | h
  · refine ⟨k, ?_⟩
    unfold RoundsTo
    split <;> constructor <;> linarith
  · -- half way between two whole numbers the even one is taken
    rcases Nat.mod_two_eq_zero_or_one k with heven | hodd
    · refine ⟨k, ?_⟩
      rw [RoundsTo, if_pos heven]
      constructor <;> linarith
    · refine ⟨k + 1, ?_⟩
      rw [RoundsTo, if_pos (by omega)]
      push_cast
      constructor <;> linarith
  · refine ⟨k + 1, ?_⟩
    unfold RoundsTo
    push_cast
    split <;> constructor <;> linarith

/-- A number that rounds to a mantissa lies in the interval of the double. Below a narrow one it
has to lie closer. -/
theorem holds_of_roundsTo {d : Dyadic} {v : ℚ} (h : RoundsTo d.mantissa (v / 2 ^ d.exponent))
    (hnarrow : d.narrowBelow = true → (d.mantissa - 1 / 4 : ℚ) ≤ v / 2 ^ d.exponent)
    (heven : d.narrowBelow = true → d.mantissa % 2 = 0) : d.Holds v := by
  have hunit : (0 : ℚ) < 2 ^ d.exponent := by positivity
  have hv : v = v / 2 ^ d.exponent * 2 ^ d.exponent := (div_mul_cancel₀ v hunit.ne').symm
  generalize v / 2 ^ d.exponent = x at *
  subst hv
  unfold RoundsTo at h
  unfold Dyadic.Holds Dyadic.low Dyadic.high
  cases hbelow : d.narrowBelow with
  | true =>
      rw [if_pos (heven hbelow)] at h ⊢
      rw [if_pos rfl]
      exact ⟨mul_le_mul_of_nonneg_right (hnarrow hbelow) hunit.le,
        mul_le_mul_of_nonneg_right h.2 hunit.le⟩
  | false =>
      rw [if_neg Bool.false_ne_true]
      split
      · rw [if_pos ‹_›] at h
        exact ⟨mul_le_mul_of_nonneg_right h.1 hunit.le, mul_le_mul_of_nonneg_right h.2 hunit.le⟩
      · rw [if_neg ‹_›] at h
        exact ⟨mul_lt_mul_of_pos_right h.1 hunit, mul_lt_mul_of_pos_right h.2 hunit⟩

/-- The exponent at which a positive number has a mantissa that fits. -/
theorem exists_exponent {v : ℚ} (hv : 0 < v) : ∃ e : ℤ, -1074 ≤ e ∧
    v / 2 ^ e < 2 ^ (53 : ℕ) ∧ (-1074 < e → 2 ^ (52 : ℕ) ≤ v / 2 ^ e) := by
  have hlow : (2 : ℚ) ^ Int.log 2 v ≤ v := Int.zpow_log_le_self (by norm_num) hv
  have hhigh : v < (2 : ℚ) ^ (Int.log 2 v + 1) := Int.lt_zpow_succ_log_self (by norm_num) v
  generalize Int.log 2 v = l at hlow hhigh
  refine ⟨max (l - 52) (-1074), le_max_right .., ?_, fun hleast => ?_⟩
  · rw [div_lt_iff₀ (by positivity), ← zpow_natCast, ← zpow_add₀ (by norm_num)]
    exact hhigh.trans_le (zpow_le_zpow_right₀ (by norm_num) (by omega))
  · rw [le_div_iff₀ (by positivity), ← zpow_natCast, ← zpow_add₀ (by norm_num)]
    refine le_trans (zpow_le_zpow_right₀ (by norm_num) ?_) hlow
    omega

/-- A number that rounds to a mantissa of one bit more lies in the first interval with the next
exponent. -/
theorem holds_of_carry {v : ℚ} {e : ℤ} (hlow : (2 ^ 53 : ℚ) - 1 / 2 ≤ v / 2 ^ e)
    (hfits : v / 2 ^ e < 2 ^ 53) : (⟨2 ^ 52, e + 1, true⟩ : Dyadic).Holds v := by
  have hdouble : (2 : ℚ) ^ (e + 1) = 2 ^ e * 2 := zpow_add_one₀ two_ne_zero e
  have hv : v / 2 ^ (e + 1) = v / 2 ^ e / 2 := by rw [hdouble, div_div]
  refine holds_of_roundsTo ?_ (fun _ => ?_) fun _ => by norm_num
  · rw [RoundsTo, if_pos (by norm_num)]
    simp only [hv]
    push_cast
    constructor <;> linarith
  · simp only [hv]
    push_cast
    linarith

/-- Every number beyond half the least double lies in an interval. -/
theorem exists_holds {v : ℚ} (hv : 2 ^ (-1075 : ℤ) < v) : ∃ d : Dyadic, d.Shaped ∧ d.Holds v := by
  have hpos : 0 < v := lt_trans (by positivity) hv
  obtain ⟨e, hleast, hfits, hfull⟩ := exists_exponent hpos
  have hunit : (0 : ℚ) < 2 ^ e := by positivity
  have hx : 0 < v / 2 ^ e := by positivity
  have hhalf : e = -1074 → 1 / 2 < v / 2 ^ e := by
    rintro rfl
    have hdouble : (2 : ℚ) ^ (-1074 : ℤ) = 2 ^ (-1075 : ℤ) * 2 := zpow_add_one₀ two_ne_zero (-1075)
    rw [lt_div_iff₀ hunit, hdouble]
    linarith
  obtain ⟨k, hk⟩ := exists_roundsTo hx.le
  obtain ⟨hlow, hhigh⟩ := hk.bounds
  have hkpos : 0 < k := by
    have : (0 : ℚ) < k := by
      rcases hleast.eq_or_lt with hmin | hmore
      · linarith [hhalf hmin.symm]
      · have := hfull hmore
        norm_num at this
        linarith
    exact_mod_cast this
  have hkmost : k ≤ 2 ^ 53 := by
    have : (k : ℚ) < 2 ^ (53 : ℕ) + 1 := by linarith
    have : k < 2 ^ 53 + 1 := by exact_mod_cast this
    omega
  have hkfull : -1074 < e → 2 ^ 52 ≤ k := fun hmore => by
    have := hfull hmore
    have : (2 : ℚ) ^ (52 : ℕ) < k + 1 := by linarith
    have : 2 ^ 52 < k + 1 := by exact_mod_cast this
    omega
  rcases hkmost.eq_or_lt with hcarry | hkfits
  · -- rounding carries into the next exponent
    rw [hcarry] at hlow
    push_cast at hlow
    refine ⟨⟨2 ^ 52, e + 1, true⟩, ?_, holds_of_carry hlow hfits⟩
    constructor <;> simp <;> omega
  · refine ⟨⟨k, e, k == 2 ^ 52 && -1074 < e⟩, ?_, holds_of_roundsTo hk ?_ ?_⟩
    · constructor <;> simp <;> omega
    · intro hnarrow
      simp only [Bool.and_eq_true, beq_iff_eq, decide_eq_true_eq] at hnarrow ⊢
      have := hfull hnarrow.2
      rw [hnarrow.1]
      push_cast
      linarith
    · intro hnarrow
      simp only [Bool.and_eq_true, beq_iff_eq, decide_eq_true_eq] at hnarrow ⊢
      omega

end NovaLang.Decimal
