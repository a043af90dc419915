import NovaLang.Proofs.Decimal.Rounding

namespace NovaLang.Decimal

/-! # The shortest decimal lies in the interval

Two facts: a point that the search takes lies in the interval of the double, and a
grid of seventeen digits always has one, since its step is smaller than the
interval.
-/

/-! ## Powers as whole numbers -/

theorem powerDown_pos {b : ℕ} (hb : 0 < b) (e : ℤ) : 0 < powerDown b e :=
  Nat.pow_pos hb

/-- Both powers together are the power with its sign. -/
theorem powerUp_eq {b : ℕ} (hb : 0 < b) (e : ℤ) :
    (powerUp b e : ℚ) = b ^ e * powerDown b e := by
  have hbq : (b : ℚ) ≠ 0 := by exact_mod_cast hb.ne'
  simp only [powerUp, powerDown, Nat.pow_eq]
  push_cast
  rw [← zpow_natCast, ← zpow_natCast, ← zpow_add₀ hbq]
  congr 1
  omega

/-- A power of two is compared with a power of ten in whole numbers. -/
theorem powers_lt_iff {a : ℕ} {x y : ℤ} :
    a * powerUp 2 x * powerDown 10 y < powerUp 10 y * powerDown 2 x ↔
      (a * 2 ^ x : ℚ) < 10 ^ y := by
  have hten : (0 : ℚ) < powerDown 10 y := by exact_mod_cast powerDown_pos (by norm_num) y
  have htwo : (0 : ℚ) < powerDown 2 x := by exact_mod_cast powerDown_pos (by norm_num) x
  have hleft : ((a * powerUp 2 x * powerDown 10 y : ℕ) : ℚ) =
      a * 2 ^ x * (powerDown 2 x * powerDown 10 y) := by
    push_cast
    rw [powerUp_eq (by norm_num)]
    push_cast
    ring
  have hright : ((powerUp 10 y * powerDown 2 x : ℕ) : ℚ) =
      10 ^ y * (powerDown 2 x * powerDown 10 y) := by
    push_cast
    rw [powerUp_eq (by norm_num)]
    push_cast
    ring
  rw [← Nat.cast_lt (α := ℚ), hleft, hright, mul_lt_mul_iff_left₀ (mul_pos htwo hten)]

/-! ## The magnitude of a double -/

/-- The estimate of the digits before the point, from the place of the leading bit. -/
def estimateOf (log2 : ℤ) : ℤ := (log2 * 30103).fdiv 100000 + 1

/-- The estimate for numbers with their leading bit at a place is right or one too small. -/
def EstimateFits (log2 : ℤ) : Prop :=
  let e := estimateOf log2
  ¬ 1 * powerUp 2 log2 * powerDown 10 (e - 1) < powerUp 10 (e - 1) * powerDown 2 log2 ∧
    1 * powerUp 2 (log2 + 1) * powerDown 10 (e + 1) < powerUp 10 (e + 1) * powerDown 2 (log2 + 1)

instance : DecidablePred EstimateFits := fun _ => inferInstanceAs (Decidable (¬ _ ∧ _))

theorem estimateFits_double : ∀ i ∈ List.range 2098, EstimateFits ((i : ℕ) - 1074) := by
  decide +kernel

theorem estimateOf_bounds {x : ℤ} (hlow : -1074 ≤ x) (hhigh : x < 1024) :
    (10 : ℚ) ^ (estimateOf x - 1) ≤ 2 ^ x ∧ (2 : ℚ) ^ (x + 1) < 10 ^ (estimateOf x + 1) := by
  have h := estimateFits_double (x + 1074).toNat (List.mem_range.mpr (by omega))
  rw [Int.toNat_of_nonneg (by omega), add_sub_cancel_right, EstimateFits, powers_lt_iff,
    powers_lt_iff, not_lt] at h
  simpa using h

/-- The exact value of a double without its sign. -/
def Dyadic.value (d : Dyadic) : ℚ := d.mantissa * 2 ^ d.exponent

theorem Dyadic.Canonical.value_bounds {d : Dyadic} (hd : d.Canonical) :
    (2 : ℚ) ^ (d.mantissa.log2 + d.exponent) ≤ d.value ∧
      d.value < 2 ^ (d.mantissa.log2 + d.exponent + 1) := by
  have hunit : (2 : ℚ) ^ d.exponent ≠ 0 := by positivity
  apply log2_bounds hd.pos
  · rw [Dyadic.value, mul_div_cancel_right₀ _ hunit]
  · rw [Dyadic.value, mul_div_cancel_right₀ _ hunit]
    linarith

/-- The magnitude is the number of digits before the point. -/
theorem Dyadic.Canonical.magnitude_bounds {d : Dyadic} (hd : d.Canonical) :
    (10 : ℚ) ^ (d.magnitude - 1) ≤ d.value ∧ d.value < 10 ^ d.magnitude := by
  have hlog : d.mantissa.log2 < 53 := log2_lt_of_lt (by norm_num) hd.fits
  obtain ⟨hlow, hhigh⟩ := hd.value_bounds
  obtain ⟨hunder, hover⟩ := estimateOf_bounds (x := d.mantissa.log2 + d.exponent)
    (by linarith [hd.least]) (by have := hd.most; omega)
  have hmagnitude : d.magnitude =
      if d.mantissa * powerUp 2 d.exponent * powerDown 10 (estimateOf (d.mantissa.log2 + d.exponent)) <
        powerUp 10 (estimateOf (d.mantissa.log2 + d.exponent)) * powerDown 2 d.exponent
      then estimateOf (d.mantissa.log2 + d.exponent)
      else estimateOf (d.mantissa.log2 + d.exponent) + 1 := rfl
  rw [hmagnitude]
  split
  · next hfits => exact ⟨hunder.trans hlow, powers_lt_iff.mp hfits⟩
  · next hfits =>
    rw [powers_lt_iff, not_lt] at hfits
    rw [add_sub_cancel_right]
    exact ⟨hfits, hhigh.trans hover⟩

/-! ## Points of a grid -/

/-- The grid counts the value and the ends of the interval in steps. -/
theorem onGrid_eq {d : Dyadic} (hd : d.Canonical) (step : ℤ) :
    ∃ k : ℚ, 0 < k ∧ ((d.onGrid step).low : ℚ) = d.low * k ∧
      ((d.onGrid step).value : ℚ) = d.value * k ∧ ((d.onGrid step).high : ℚ) = d.high * k ∧
      ((d.onGrid step).denominator : ℚ) = 10 ^ step * k := by
  have hten : (0 : ℚ) < powerDown 10 step := by exact_mod_cast powerDown_pos (by norm_num) step
  have htwo : (0 : ℚ) < powerDown 2 (d.exponent - 2) := by
    exact_mod_cast powerDown_pos (by norm_num) _
  have hquarter : (2 : ℚ) ^ (d.exponent - 2) = 2 ^ d.exponent / 4 := by
    rw [zpow_sub₀ (by norm_num)]
    norm_num
  have hpos := hd.pos
  refine ⟨powerDown 2 (d.exponent - 2) * powerDown 10 step, by positivity, ?_, ?_, ?_, ?_⟩
  · have hlow : ((if d.narrowBelow then 4 * d.mantissa - 1 else 4 * d.mantissa - 2 : ℕ) : ℚ) =
        4 * (d.mantissa - if d.narrowBelow then 1 / 4 else 1 / 2) := by
      split
      · rw [Nat.cast_sub (by omega)]
        push_cast
        ring
      · rw [Nat.cast_sub (by omega)]
        push_cast
        ring
    simp only [Dyadic.onGrid]
    rw [Nat.cast_mul, Nat.cast_mul, hlow, powerUp_eq (by norm_num)]
    push_cast
    rw [hquarter, Dyadic.low]
    ring
  · simp only [Dyadic.onGrid]
    push_cast
    rw [powerUp_eq (by norm_num)]
    push_cast
    rw [hquarter, Dyadic.value]
    ring
  · simp only [Dyadic.onGrid]
    push_cast
    rw [powerUp_eq (by norm_num)]
    push_cast
    rw [hquarter, Dyadic.high]
    ring
  · simp only [Dyadic.onGrid]
    push_cast
    rw [powerUp_eq (by norm_num)]
    push_cast
    ring

/-- A point of the grid lies in the interval when the grid says so. -/
theorem holds_iff {d : Dyadic} (hd : d.Canonical) (step : ℤ) (point : ℕ) :
    (d.onGrid step).holds (d.mantissa % 2 == 0) point ↔ d.Holds (point * 10 ^ step) := by
  obtain ⟨k, hk, hlow, -, hhigh, hden⟩ := onGrid_eq hd step
  have hpoint : ((point * (d.onGrid step).denominator : ℕ) : ℚ) = point * 10 ^ step * k := by
    push_cast
    rw [hden]
    ring
  have hle : (d.onGrid step).low ≤ point * (d.onGrid step).denominator ↔
      d.low ≤ point * 10 ^ step := by
    rw [← Nat.cast_le (α := ℚ), hlow, hpoint, mul_le_mul_iff_left₀ hk]
  have hlt : (d.onGrid step).low < point * (d.onGrid step).denominator ↔
      d.low < point * 10 ^ step := by
    rw [← Nat.cast_lt (α := ℚ), hlow, hpoint, mul_lt_mul_iff_left₀ hk]
  have hle' : point * (d.onGrid step).denominator ≤ (d.onGrid step).high ↔
      point * 10 ^ step ≤ d.high := by
    rw [← Nat.cast_le (α := ℚ), hhigh, hpoint, mul_le_mul_iff_left₀ hk]
  have hlt' : point * (d.onGrid step).denominator < (d.onGrid step).high ↔
      point * 10 ^ step < d.high := by
    rw [← Nat.cast_lt (α := ℚ), hhigh, hpoint, mul_lt_mul_iff_left₀ hk]
  by_cases heven : d.mantissa % 2 = 0
  · simp [OnGrid.holds, Dyadic.Holds, heven, hle, hle']
  · simp [OnGrid.holds, Dyadic.Holds, heven, hlt, hlt']

/-- The point taken is one of the two neighbours of the value, and lies in the interval. -/
theorem point_mem {g : OnGrid} {closed : Bool} {point : ℕ} (h : g.point? closed = some point) :
    g.holds closed point ∧ point ≤ g.value / g.denominator + 1 := by
  simp only [OnGrid.point?] at h
  split at h
  · cases h
  · next hbelow _ => cases h; exact ⟨hbelow, Nat.le_succ _⟩
  · next _ habove => cases h; exact ⟨habove, le_rfl⟩
  · next hbelow habove =>
    split at h
    · cases h; exact ⟨hbelow, Nat.le_succ _⟩
    · split at h
      · cases h; exact ⟨habove, le_rfl⟩
      · split at h
        · cases h; exact ⟨hbelow, Nat.le_succ _⟩
        · cases h; exact ⟨habove, le_rfl⟩

/-- A point is taken when one of the two neighbours of the value lies in the interval. -/
theorem point_isSome {g : OnGrid} {closed : Bool}
    (h : g.holds closed (g.value / g.denominator) ∨ g.holds closed (g.value / g.denominator + 1)) :
    (g.point? closed).isSome := by
  simp only [OnGrid.point?]
  cases hbelow : g.holds closed (g.value / g.denominator) <;>
    cases habove : g.holds closed (g.value / g.denominator + 1) <;> simp [hbelow, habove] at h ⊢
  split_ifs <;> rfl

/-- The neighbours of a value on a grid. -/
theorem neighbours {d : Dyadic} (hd : d.Canonical) (step : ℤ) :
    (((d.onGrid step).value / (d.onGrid step).denominator : ℕ) * 10 ^ step : ℚ) ≤ d.value ∧
      d.value < (((d.onGrid step).value / (d.onGrid step).denominator : ℕ) + 1) * 10 ^ step := by
  obtain ⟨k, hk, -, hvalue, -, hden⟩ := onGrid_eq hd step
  have hpos : 0 < (d.onGrid step).denominator := by
    have : (0 : ℚ) < (d.onGrid step).denominator := by
      rw [hden]
      positivity
    exact_mod_cast this
  have hbelow := Nat.div_mul_le_self (d.onGrid step).value (d.onGrid step).denominator
  have habove := (Nat.div_lt_iff_lt_mul hpos).mp (Nat.lt_succ_self ((d.onGrid step).value / _))
  rw [← Nat.cast_le (α := ℚ), Nat.cast_mul, hvalue, hden, ← mul_assoc] at hbelow
  rw [← Nat.cast_lt (α := ℚ), Nat.cast_mul, hvalue, hden, ← mul_assoc, Nat.cast_succ] at habove
  exact ⟨le_of_mul_le_mul_right hbelow hk, lt_of_mul_lt_mul_right habove hk.le⟩

/-- A grid whose step is smaller than twice the shorter arm of the interval has a point. -/
theorem point_of_small_step {d : Dyadic} (hd : d.Canonical) {step : ℤ}
    (hstep : (10 : ℚ) ^ step < 2 * (d.value - d.low)) :
    ((d.onGrid step).point? (d.mantissa % 2 == 0)).isSome := by
  obtain ⟨hbelow, habove⟩ := neighbours hd step
  have hunit : (0 : ℚ) < 2 ^ d.exponent := by positivity
  have harms : d.value - d.low ≤ d.high - d.value := by
    have hshort : (if d.narrowBelow then 1 / 4 else 1 / 2 : ℚ) * 2 ^ d.exponent ≤
        1 / 2 * 2 ^ d.exponent := by
      apply mul_le_mul_of_nonneg_right _ hunit.le
      split <;> norm_num
    have hlow : d.value - d.low =
        (if d.narrowBelow then 1 / 4 else 1 / 2 : ℚ) * 2 ^ d.exponent := by
      rw [Dyadic.value, Dyadic.low]
      ring
    have hhigh : d.high - d.value = 1 / 2 * 2 ^ d.exponent := by
      rw [Dyadic.value, Dyadic.high]
      ring
    rw [hlow, hhigh]
    exact hshort
  have inside {v : ℚ} (hlow : d.low < v) (hhigh : v < d.high) : d.Holds v := by
    unfold Dyadic.Holds
    split
    · exact ⟨hlow.le, hhigh.le⟩
    · exact ⟨hlow, hhigh⟩
  apply point_isSome
  rw [holds_iff hd, holds_iff hd]
  push_cast
  generalize (((d.onGrid step).value / (d.onGrid step).denominator : ℕ) : ℚ) = b at hbelow habove ⊢
  -- the nearer neighbour is at most half a step away
  rcases le_total (2 * (d.value - b * 10 ^ step)) (10 ^ step) with hnear | hfar
  · left
    exact inside (by linarith) (by linarith)
  · right
    exact inside (by linarith) (by linarith)

/-! ## The search -/

/-- Seventeen digits make a step smaller than twice the shorter arm. -/
theorem small_step {d : Dyadic} (hd : d.Canonical) :
    (10 : ℚ) ^ (d.magnitude - 17) < 2 * (d.value - d.low) := by
  have hunit : (0 : ℚ) < 2 ^ d.exponent := by positivity
  have hstep : (10 : ℚ) ^ (d.magnitude - 17) * 10 ^ 16 ≤ d.value := by
    have : (10 : ℚ) ^ (d.magnitude - 17) * 10 ^ 16 = 10 ^ (d.magnitude - 1) := by
      rw [← zpow_natCast, ← zpow_add₀ (by norm_num)]
      congr 1
      push_cast
      ring
    rw [this]
    exact hd.magnitude_bounds.1
  have hfits : (d.mantissa : ℚ) < 2 ^ 53 := by exact_mod_cast hd.fits
  rw [Dyadic.value] at hstep ⊢
  rw [Dyadic.low]
  split
  · next hnarrow =>
    have hfull : (d.mantissa : ℚ) = 2 ^ 52 := by exact_mod_cast (hd.narrow.mp hnarrow).1
    rw [hfull] at hstep ⊢
    linarith
  · have hvalue : d.mantissa * 2 ^ d.exponent < 2 ^ 53 * (2 : ℚ) ^ d.exponent :=
      mul_lt_mul_of_pos_right hfits hunit
    linarith

/-- A point on a grid of some digits has hardly more digits. -/
theorem point_le {d : Dyadic} (hd : d.Canonical) {digits point : ℕ} (hdigits : digits ≤ 17)
    (h : (d.onGrid (d.magnitude - digits)).point? (d.mantissa % 2 == 0) = some point) :
    point ≤ 10 ^ 17 := by
  obtain ⟨hbelow, -⟩ := neighbours hd (d.magnitude - digits)
  have hlt : ((d.onGrid (d.magnitude - digits)).value /
      (d.onGrid (d.magnitude - digits)).denominator : ℕ) < 10 ^ digits := by
    have hstep : (0 : ℚ) < 10 ^ (d.magnitude - digits) := by positivity
    have hmagnitude : (10 : ℚ) ^ d.magnitude = 10 ^ digits * 10 ^ (d.magnitude - digits) := by
      rw [← zpow_natCast, ← zpow_add₀ (by norm_num)]
      congr 1
      ring
    have := hbelow.trans_lt hd.magnitude_bounds.2
    rw [hmagnitude, mul_lt_mul_iff_left₀ hstep] at this
    exact_mod_cast this
  calc point ≤ _ := (point_mem h).2
    _ ≤ 10 ^ digits := hlt
    _ ≤ 10 ^ 17 := Nat.pow_le_pow_right (by norm_num) hdigits

/-- The search ends at a point of the interval. -/
theorem search_holds {d : Dyadic} (hd : d.Canonical) (fuel digits : ℕ) (hsum : digits + fuel = 17) :
    d.Holds ((d.search d.magnitude (fuel + 1) digits).coefficient *
        10 ^ (d.search d.magnitude (fuel + 1) digits).exponent) ∧
      (d.search d.magnitude (fuel + 1) digits).coefficient ≤ 10 ^ 17 := by
  induction fuel generalizing digits with
  | zero =>
    obtain rfl : digits = 17 := by omega
    obtain ⟨point, hpoint⟩ := Option.isSome_iff_exists.mp (point_of_small_step hd (small_step hd))
    have hsearch : d.search d.magnitude 1 17 = ⟨point, d.magnitude - 17⟩ := by
      simp only [Dyadic.search, Nat.cast_ofNat, hpoint]
    rw [hsearch]
    exact ⟨(holds_iff hd _ _).mp (point_mem hpoint).1, point_le hd le_rfl hpoint⟩
  | succ fuel ih =>
    rw [Dyadic.search]
    split
    · next point hpoint =>
      exact ⟨(holds_iff hd _ _).mp (point_mem hpoint).1, point_le hd (by omega) hpoint⟩
    · exact ih (digits + 1) (by omega)

/-- The shortest decimal of a double rounds to it and has at most seventeen digits. -/
theorem shortest_holds {d : Dyadic} (hd : d.Canonical) :
    d.Holds (d.shortest.coefficient * 10 ^ d.shortest.exponent) ∧
      0 < d.shortest.coefficient ∧ d.shortest.coefficient ≤ 10 ^ 17 := by
  have hpos : ¬ (d.mantissa == 0) = true := by simpa using hd.pos.ne'
  have hshortest : d.shortest = d.search d.magnitude 17 1 := by
    rw [Dyadic.shortest, if_neg hpos]
  obtain ⟨hholds, hle⟩ := search_holds hd 16 1 rfl
  rw [← hshortest] at hholds hle
  refine ⟨hholds, Nat.pos_of_ne_zero fun hzero => ?_, hle⟩
  have hleast := hholds.two_pow_le hd.toShaped
  rw [hzero, Nat.cast_zero, zero_mul] at hleast
  exact absurd hleast (not_le.mpr (by positivity))

end NovaLang.Decimal
