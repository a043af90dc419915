import Mathlib.Algebra.Order.Field.Power
import Mathlib.Data.Rat.Cast.Order
import Mathlib.Tactic.FieldSimp
import Mathlib.Tactic.Linarith
import Mathlib.Tactic.NormNum
import Mathlib.Tactic.Positivity
import Mathlib.Tactic.Ring
import NovaLang.Proofs.Decimal.Bits

namespace NovaLang.Decimal

open Float.Model Float.Model.UnpackedFloat

/-! # Rounding to the nearest double

The numbers that round to a canonical double form its interval, and the model's
own rounding takes every number of the interval to that double. A number is
given to it as a mantissa with two residual bits, which say where between two
mantissas the number lies; a shift halves the number and keeps what the bits say.
-/

/-! ## Residual bits -/

/-- The extended mantissa stands for the number. -/
def Stands : ExtendedMantissa → ℚ → Prop
  | ⟨k, false, false⟩, v => v = k
  | ⟨k, false, true⟩, v => k < v ∧ v < k + 1 / 2
  | ⟨k, true, false⟩, v => v = k + 1 / 2
  | ⟨k, true, true⟩, v => k + 1 / 2 < v ∧ v < k + 1

/-- What the mantissa stands for lies between it and the next one. -/
theorem Stands.bounds {em : ExtendedMantissa} {v : ℚ} (h : Stands em v) :
    (em.mantissa : ℚ) ≤ v ∧ v < em.mantissa + 1 := by
  obtain ⟨k, round, sticky⟩ := em
  cases round <;> cases sticky <;> simp only [Stands] at h ⊢ <;> constructor <;> linarith

/-- A shift by one bit halves the number. -/
theorem Stands.shiftRightOne {em : ExtendedMantissa} {v : ℚ} (h : Stands em v) :
    Stands em.shiftRightOne (v / 2) := by
  obtain ⟨k, round, sticky⟩ := em
  have hk : (k : ℚ) = 2 * (k / 2 : ℕ) + (k % 2 : ℕ) := by
    exact_mod_cast (Nat.div_add_mod k 2).symm
  rcases Nat.mod_two_eq_zero_or_one k with hmod | hmod <;>
    rw [hmod] at hk <;> cases round <;> cases sticky <;>
    simp [Stands, ExtendedMantissa.shiftRightOne, hmod] at h hk ⊢ <;>
    first | constructor <;> linarith | linarith

/-- A shift divides the number by a power of two. -/
theorem Stands.shiftRight {em : ExtendedMantissa} {v : ℚ} (h : Stands em v) (n : ℕ) :
    Stands (em >>> n) (v / 2 ^ n) := by
  induction n with
  | zero =>
    simpa [HShiftRight.hShiftRight, Nat.repeat] using h
  | succ n ih =>
    have hone := ih.shiftRightOne
    rw [div_div, ← pow_succ] at hone
    exact hone

/-- The number lies no farther from `k` than half a unit, and closer unless `k` is even. -/
def RoundsTo (k : ℕ) (v : ℚ) : Prop :=
  if k % 2 = 0 then k - 1 / 2 ≤ v ∧ v ≤ k + 1 / 2 else k - 1 / 2 < v ∧ v < k + 1 / 2

/-- A rational is at most a half from what it rounds to. -/
theorem RoundsTo.bounds {k : ℕ} {v : ℚ} (h : RoundsTo k v) :
    (k : ℚ) - 1 / 2 ≤ v ∧ v ≤ k + 1 / 2 := by
  unfold RoundsTo at h
  split at h
  · exact h
  · exact ⟨h.1.le, h.2.le⟩

/-- The rounded mantissa is what the rational rounds to. -/
theorem Stands.roundedMantissa {em : ExtendedMantissa} {v : ℚ} (h : Stands em v) {k : ℕ}
    (hk : RoundsTo k v) : em.roundedMantissa = k := by
  obtain ⟨j, round, sticky⟩ := em
  obtain ⟨hlow, hhigh⟩ := hk.bounds
  have near {a b : ℕ} (hab : (a : ℚ) < b + 1) : a ≤ b := by
    have : a < b + 1 := by exact_mod_cast hab
    omega
  cases round <;> cases sticky <;> simp only [Stands] at h
  · have hj : j ≤ k := near (by linarith)
    have hk : k ≤ j := near (by linarith)
    exact le_antisymm hj hk
  · have hj : j ≤ k := near (by linarith)
    have hk : k ≤ j := near (by linarith)
    exact le_antisymm hj hk
  · -- the number lies half way between two mantissas, so `k` is the even one
    have hj : j ≤ k := near (by linarith)
    have hk' : k ≤ j + 1 := near (by push_cast; linarith)
    have heven : k % 2 = 0 := by
      by_contra hodd
      rw [RoundsTo, if_neg hodd, h] at hk
      have h1 : (k : ℚ) < j + 1 := by linarith
      have h2 : (j : ℚ) < k := by linarith
      have h1' : k < j + 1 := by exact_mod_cast h1
      have h2' : j < k := by exact_mod_cast h2
      omega
    show j + j % 2 = k
    omega
  · have hj : j + 1 ≤ k := near (by push_cast; linarith)
    have hk : k ≤ j + 1 := near (by push_cast; linarith)
    exact le_antisymm hj hk

/-! ## The interval of a double -/

/-- The lower end of the interval of a double. -/
def Dyadic.low (d : Dyadic) : ℚ :=
  (d.mantissa - if d.narrowBelow then 1 / 4 else 1 / 2) * 2 ^ d.exponent

/-- The upper end of the interval of a double. -/
def Dyadic.high (d : Dyadic) : ℚ := (d.mantissa + 1 / 2) * 2 ^ d.exponent

/-- The number rounds to the double. -/
def Dyadic.Holds (d : Dyadic) (v : ℚ) : Prop :=
  if d.mantissa % 2 = 0 then d.low ≤ v ∧ v ≤ d.high else d.low < v ∧ v < d.high

section Interval

variable {d : Dyadic} {v : ℚ}

/-- A double holds nothing outside of its bounds. -/
theorem Dyadic.Holds.bounds (h : d.Holds v) : d.low ≤ v ∧ v ≤ d.high := by
  unfold Dyadic.Holds at h
  split at h
  · exact h
  · exact ⟨h.1.le, h.2.le⟩

/-- Counted in units of its last place, a number of the interval rounds to the mantissa. -/
theorem Dyadic.Holds.roundsTo (h : d.Holds v) : RoundsTo d.mantissa (v / 2 ^ d.exponent) := by
  have hunit : (0 : ℚ) < 2 ^ d.exponent := by positivity
  have hlow : ((d.mantissa : ℚ) - 1 / 2) * 2 ^ d.exponent ≤ d.low := by
    unfold Dyadic.low
    apply mul_le_mul_of_nonneg_right _ hunit.le
    split <;> linarith
  unfold Dyadic.Holds at h
  unfold RoundsTo
  split at h
  · rw [if_pos ‹_›, le_div_iff₀ hunit, div_le_iff₀ hunit]
    exact ⟨hlow.trans h.1, h.2⟩
  · rw [if_neg ‹_›, lt_div_iff₀ hunit, div_lt_iff₀ hunit]
    exact ⟨hlow.trans_lt h.1, h.2⟩

/-- What a double holds is below the next power of two, ... -/
theorem Dyadic.Holds.lt_two_pow (hd : d.Shaped) (h : d.Holds v) :
    v < 2 ^ (d.exponent + 53) := by
  have hunit : (0 : ℚ) < 2 ^ d.exponent := by positivity
  have hm : (d.mantissa : ℚ) + 1 ≤ 2 ^ 53 := by exact_mod_cast hd.fits
  calc v ≤ (d.mantissa + 1 / 2) * 2 ^ d.exponent := h.bounds.2
    _ < 2 ^ 53 * 2 ^ d.exponent := by
      apply mul_lt_mul_of_pos_right _ hunit
      linarith
    _ = 2 ^ (d.exponent + 53) := by
      rw [zpow_add₀ (by norm_num), mul_comm]
      rfl

/-- ... and, if the mantissa is full, it is above half of the one before. -/
theorem Dyadic.Holds.two_pow_lt (h : d.Holds v) (hfull : 2 ^ 52 ≤ d.mantissa) :
    2 ^ (d.exponent + 51) < v := by
  have hunit : (0 : ℚ) < 2 ^ d.exponent := by positivity
  have hm : (2 : ℚ) ^ 52 ≤ d.mantissa := by exact_mod_cast hfull
  calc (2 : ℚ) ^ (d.exponent + 51) = 2 ^ 51 * 2 ^ d.exponent := by
        rw [zpow_add₀ (by norm_num), mul_comm]
        rfl
    _ < (d.mantissa - if d.narrowBelow then 1 / 4 else 1 / 2) * 2 ^ d.exponent := by
      apply mul_lt_mul_of_pos_right _ hunit
      split <;> linarith
    _ ≤ v := h.bounds.1

/-- Below the least full mantissa the interval of a double is narrow, and counted in
half units the number rounds to twice that mantissa. -/
theorem Dyadic.Holds.roundsTo_below (hd : d.Shaped) (h : d.Holds v)
    (hleast : -1074 < d.exponent) (hbelow : v < 2 ^ (d.exponent + 52)) :
    d.mantissa = 2 ^ 52 ∧ RoundsTo (2 ^ 53) (v / 2 ^ (d.exponent - 1)) := by
  have hunit : (0 : ℚ) < 2 ^ d.exponent := by positivity
  have hpow : (2 : ℚ) ^ (d.exponent + 52) = 2 ^ 52 * 2 ^ d.exponent := by
    rw [zpow_add₀ (by norm_num), mul_comm]
    rfl
  have hfull : 2 ^ 52 ≤ d.mantissa := hd.full.resolve_right (by omega)
  -- only the least full mantissa holds numbers below its own power of two
  have hm : d.mantissa = 2 ^ 52 := by
    by_contra hne
    have hm : (2 : ℚ) ^ 52 + 1 ≤ d.mantissa := by exact_mod_cast (by omega : 2 ^ 52 + 1 ≤ d.mantissa)
    have hlow : 2 ^ 52 * 2 ^ d.exponent < d.low := by
      apply mul_lt_mul_of_pos_right _ hunit
      split <;> linarith
    linarith [h.bounds.1]
  refine ⟨hm, ?_⟩
  have hhalf : (0 : ℚ) < 2 ^ (d.exponent - 1) := by positivity
  have hdouble : (2 : ℚ) ^ d.exponent = 2 * 2 ^ (d.exponent - 1) := by
    rw [← zpow_one_add₀ (by norm_num)]
    congr 1
    ring
  have hlow := h.bounds.1
  rw [Dyadic.low, if_pos (hd.narrow.mpr ⟨hm, hleast⟩), hm, hdouble] at hlow
  rw [hpow, hdouble] at hbelow
  rw [RoundsTo, if_pos (by norm_num), le_div_iff₀ hhalf, div_le_iff₀ hhalf]
  push_cast at hlow ⊢
  constructor <;> linarith

/-- No number of an interval is zero. -/
theorem Dyadic.Holds.two_pow_le (hd : d.Shaped) (h : d.Holds v) :
    (2 : ℚ) ^ (-1076 : ℤ) ≤ v := by
  have hm : (1 : ℚ) ≤ d.mantissa := by exact_mod_cast hd.pos
  calc (2 : ℚ) ^ (-1076 : ℤ) ≤ 2 ^ (-1 + d.exponent) :=
        zpow_le_zpow_right₀ (by norm_num) (by linarith [hd.least])
    _ = 1 / 2 * 2 ^ d.exponent := by
        rw [zpow_add₀ (by norm_num)]
        norm_num
    _ ≤ d.low := by
        apply mul_le_mul_of_nonneg_right _ (by positivity)
        split <;> linarith
    _ ≤ v := h.bounds.1

end Interval

/-! ## The model's rounding -/

/-- The exponent that is aimed at, in numbers. -/
theorem targetExponent_eq (m : ℕ) (e : ℤ) :
    Format.binary64.targetExponent (totalExponent m e) = max (m.log2 + e - 52) (-1074) := by
  show max ((m.log2 : ℤ) + 1 + e - 53) (-1074) = _
  congr 1
  ring

/-- A number lies between the powers of two around its leading bit. -/
theorem log2_bounds {m : ℕ} {e : ℤ} {v : ℚ} (hm : 0 < m) (hlow : (m : ℚ) ≤ v / 2 ^ e)
    (hhigh : v / 2 ^ e < m + 1) : (2 : ℚ) ^ (m.log2 + e) ≤ v ∧ v < 2 ^ (m.log2 + e + 1) := by
  have hunit : (0 : ℚ) < 2 ^ e := by positivity
  have hself : (2 : ℚ) ^ m.log2 ≤ m := by exact_mod_cast Nat.log2_self_le hm.ne'
  have hlt : (m : ℚ) + 1 ≤ 2 ^ (m.log2 + 1) := by exact_mod_cast Nat.lt_log2_self
  rw [le_div_iff₀ hunit] at hlow
  rw [div_lt_iff₀ hunit] at hhigh
  constructor
  · rw [zpow_add₀ (by norm_num), zpow_natCast]
    exact (mul_le_mul_of_nonneg_right hself hunit.le).trans hlow
  · rw [add_right_comm, zpow_add₀ (by norm_num), ← Nat.cast_succ, zpow_natCast]
    exact hhigh.trans_le (mul_le_mul_of_nonneg_right hlt hunit.le)

/-- Where the first shift ends for a number of the interval: at the exponent of the
double, or one below when the number is below the least full mantissa there. -/
theorem targetExponent_of_holds {d : Dyadic} (hd : d.Shaped) {m : ℕ} {e : ℤ} {v : ℚ}
    (hlow : (m : ℚ) ≤ v / 2 ^ e) (hhigh : v / 2 ^ e < m + 1)
    (he : e ≤ Format.binary64.targetExponent (totalExponent m e)) (h : d.Holds v) :
    Format.binary64.targetExponent (totalExponent m e) = d.exponent ∨
      Format.binary64.targetExponent (totalExponent m e) = d.exponent - 1 ∧
        -1074 < d.exponent ∧ v < 2 ^ (d.exponent + 52) := by
  have lt_of_pow {a b : ℤ} (hab : (2 : ℚ) ^ a < 2 ^ b) : a < b :=
    (zpow_lt_zpow_iff_right₀ (by norm_num)).mp hab
  have hleast := hd.least
  rw [targetExponent_eq] at he ⊢
  rcases Nat.eq_zero_or_pos m with rfl | hm
  · -- no mantissa is left, so the number is below the least exponent
    have hlog : ((0 : ℕ).log2 : ℤ) = 0 := rfl
    rw [hlog] at he ⊢
    have hsmall : v < 2 ^ e := by
      rw [div_lt_iff₀ (by positivity)] at hhigh
      simpa using hhigh
    rcases hd.full with hfull | hmin
    · have := lt_of_pow ((h.two_pow_lt hfull).trans hsmall)
      left
      omega
    · left
      omega
  · obtain ⟨hlow, hhigh⟩ := log2_bounds hm hlow hhigh
    have hupper := lt_of_pow (hlow.trans_lt (h.lt_two_pow hd))
    rcases hd.full with hfull | hmin
    · have hlower := lt_of_pow ((h.two_pow_lt hfull).trans hhigh)
      by_cases htop : d.exponent + 52 ≤ m.log2 + e
      · left
        omega
      · by_cases hmin : d.exponent = -1074
        · left
          omega
        · right
          refine ⟨by omega, by omega, hhigh.trans_le ?_⟩
          exact zpow_le_zpow_right₀ (by norm_num) (by omega)
    · left
      omega

/-- A mantissa that fits is not shifted. -/
theorem shift_fits {k : ℕ} {e : ℤ} (hk : k < 2 ^ 53) (he : -1074 ≤ e) :
    shiftToTargetExponent .binary64 k e .exact = (⟨k, false, false⟩, e) := by
  have hlog : k.log2 < 53 := log2_lt_of_lt (by norm_num) hk
  have hzero : (Format.binary64.targetExponent (totalExponent k e) - e).toNat = 0 := by
    rw [targetExponent_eq]
    omega
  simp [shiftToTargetExponent, shiftToExponent, hzero, HShiftRight.hShiftRight, Nat.repeat,
    ExtendedMantissa.ofMantissaAndAccuracy]

/-- A mantissa that rounding has carried beyond its bits is shifted by one. -/
theorem shift_carried {e : ℤ} (he : -1074 ≤ e) :
    shiftToTargetExponent .binary64 (2 ^ 53) e .exact = (⟨2 ^ 52, false, false⟩, e + 1) := by
  have hone : (Format.binary64.targetExponent (totalExponent (2 ^ 53) e) - e).toNat = 1 := by
    rw [targetExponent_eq, Nat.log2_two_pow]
    omega
  simp only [shiftToTargetExponent, shiftToExponent, hone]
  rfl

/-- What is shifted out is less than one. -/
theorem Stands.mantissa_bounds {m : ℕ} {accuracy : Accuracy} {v : ℚ}
    (h : Stands (.ofMantissaAndAccuracy m accuracy) v) : (m : ℚ) ≤ v ∧ v < m + 1 := by
  have hm : (ExtendedMantissa.ofMantissaAndAccuracy m accuracy).mantissa = m := by
    rcases accuracy with _ | (_ | _ | _) <;> rfl
  have hbounds := h.bounds
  rwa [hm] at hbounds

/-- The first shift ends at the exponent it aims at, and still stands for the number there. -/
theorem Stands.shiftToTarget {m : ℕ} {e t : ℤ} {accuracy : Accuracy} {v : ℚ}
    (hv : Stands (.ofMantissaAndAccuracy m accuracy) (v / 2 ^ e))
    (ht : Format.binary64.targetExponent (totalExponent m e) = t) (he : e ≤ t) :
    ∃ em, shiftToTargetExponent .binary64 m e accuracy = (em, t) ∧ Stands em (v / 2 ^ t) := by
  have hshifted : e + (t - e).toNat = t := by omega
  have hfirst := hv.shiftRight (t - e).toNat
  rw [div_div, ← zpow_natCast, ← zpow_add₀ (by norm_num), hshifted] at hfirst
  exact ⟨_, by rw [shiftToTargetExponent, shiftToExponent, ht, hshifted], hfirst⟩

/-- Rounding takes every number of the interval to the double. -/
theorem roundWithAccuracy_eq {d : Dyadic} (hd : d.Shaped) (s : Sign) {m : ℕ} {e : ℤ}
    {accuracy : Accuracy} {v : ℚ}
    (hv : Stands (.ofMantissaAndAccuracy m accuracy) (v / 2 ^ e))
    (he : e ≤ Format.binary64.targetExponent (totalExponent m e)) (h : d.Holds v) :
    roundWithAccuracy .binary64 s m e accuracy = .finite s d.mantissa d.exponent hd.pos := by
  have hbounds := hv.mantissa_bounds
  have htarget := targetExponent_of_holds hd hbounds.1 hbounds.2 he h
  generalize ht : Format.binary64.targetExponent (totalExponent m e) = t at he htarget
  obtain ⟨em, hstart, hfirst⟩ := hv.shiftToTarget ht he
  rw [roundWithAccuracy, hstart]
  -- the exponent that is aimed at is that of the double, or one below
  rcases htarget with rfl | ⟨rfl, hleast, hbelow⟩
  · simp only [hfirst.roundedMantissa h.roundsTo, shift_fits hd.fits hd.least,
      dif_neg hd.pos.ne']
  · obtain ⟨hfull, hround⟩ := h.roundsTo_below hd hleast hbelow
    simp only [hfirst.roundedMantissa hround, shift_carried (show -1074 ≤ d.exponent - 1 by omega)]
    rw [dif_neg (by norm_num)]
    congr 1
    · exact hfull.symm
    · ring

/-! ## What a number is rounded to -/

/-- A number is rounded to this, in whatever form it is given to the rounding. -/
structure RoundsAs (v : ℚ) (u : UnpackedFloat) : Prop where
  rounds {m : ℕ} {e : ℤ} {accuracy : Accuracy} :
    Stands (.ofMantissaAndAccuracy m accuracy) (v / 2 ^ e) →
    e ≤ Format.binary64.targetExponent (totalExponent m e) →
    roundWithAccuracy .binary64 .positive m e accuracy = u
  huge : 2 ^ (1024 : ℤ) ≤ v → Float.Model.pack u = .pack (.infinity .positive)
  tiny : v < 2 ^ (-1076 : ℤ) → u = .zero .positive

/-- The double of a form, which is infinite if the exponent is too great. -/
theorem Dyadic.Shaped.toFloat {d : Dyadic} (hd : d.Shaped) :
    (Parts.finite false d).toFloat =
      .ofModel (.pack (.finite .positive d.mantissa d.exponent hd.pos)) := by
  simp only [Parts.toFloat, Parts.unpacked, dif_pos hd.pos]
  rfl

/-- What a double holds is rounded to it. -/
theorem Dyadic.Holds.roundsAs {d : Dyadic} {v : ℚ} (hd : d.Shaped) (h : d.Holds v) :
    RoundsAs v (.finite .positive d.mantissa d.exponent hd.pos) where
  rounds hv he := roundWithAccuracy_eq hd .positive hv he h
  huge hhuge := by
    have hlt := (zpow_lt_zpow_iff_right₀ (by norm_num)).mp (hhuge.trans_lt (h.lt_two_pow hd))
    exact pack_of_huge .positive hd.pos (by omega)
  tiny htiny := absurd (h.two_pow_le hd) (not_le.mpr htiny)

/-- Up to half the least double a number is rounded to zero. -/
theorem roundsAs_zero {v : ℚ} (hpos : 0 < v) (hv : v ≤ 2 ^ (-1075 : ℤ)) :
    RoundsAs v (.zero .positive) where
  rounds {m e accuracy} hstands he := by
    have hbounds := hstands.mantissa_bounds
    -- so small a number is shifted as far as the least exponent
    have htarget : Format.binary64.targetExponent (totalExponent m e) = -1074 := by
      rw [targetExponent_eq] at he ⊢
      rcases Nat.eq_zero_or_pos m with rfl | hpos
      · have hlog : ((0 : ℕ).log2 : ℤ) = 0 := rfl
        omega
      · have hlow := (log2_bounds hpos hbounds.1 hbounds.2).1.trans hv
        have := (zpow_le_zpow_iff_right₀ (by norm_num)).mp hlow
        omega
    rw [htarget] at he
    obtain ⟨em, hstart, hfirst⟩ := hstands.shiftToTarget htarget he
    have hround : RoundsTo 0 (v / 2 ^ (-1074 : ℤ)) := by
      have hunit : (0 : ℚ) < 2 ^ (-1074 : ℤ) := zpow_pos two_pos _
      have hhalf : (2 : ℚ) ^ (-1074 : ℤ) = 2 ^ (-1075 : ℤ) * 2 := zpow_add_one₀ two_ne_zero (-1075)
      rw [RoundsTo, if_pos rfl, le_div_iff₀ hunit, div_le_iff₀ hunit]
      generalize (2 : ℚ) ^ (-1074 : ℤ) = unit at hunit hhalf
      constructor <;> push_cast <;> linarith
    have hagain := shift_fits (k := 0) (e := -1074) (by norm_num) le_rfl
    rw [roundWithAccuracy, hstart]
    simp only [hfirst.roundedMantissa hround, hagain, dif_pos]
  huge hhuge := by
    have := (zpow_le_zpow_iff_right₀ (by norm_num)).mp (hhuge.trans hv)
    omega
  tiny _ := rfl

end NovaLang.Decimal
