import Mathlib
import NovaLang.Decimal.Shortest

namespace NovaLang.Decimal

open Float.Model Float.Model.UnpackedFloat

/-! # Doubles and their parts

A double is determined by its parts, and its parts are the ones the logic's own
model of doubles unpacks it to. A positive finite double has one canonical form
`m * 2 ^ q`: the mantissa fills its 53 bits unless the exponent is the least one.
-/

/-- The sign of a double. -/
def signOf (negative : Bool) : Sign := if negative then .negative else .positive

/-- The unpacked form of a double's parts. -/
def Parts.unpacked : Parts → UnpackedFloat
  | .finite negative d =>
    if h : 0 < d.mantissa then .finite (signOf negative) d.mantissa d.exponent h
    else .zero (signOf negative)
  | .infinite negative => .infinity (signOf negative)
  | .undefined => .notANumber

/-- The double with these parts. -/
def Parts.toFloat (p : Parts) : Float := .ofModel (.pack p.unpacked)

/-- The form that rounding gives to a positive number: the mantissa fills its bits unless the
exponent is the least one. -/
structure Dyadic.Shaped (d : Dyadic) : Prop where
  pos : 0 < d.mantissa
  fits : d.mantissa < 2 ^ 53
  least : -1074 ≤ d.exponent
  full : 2 ^ 52 ≤ d.mantissa ∨ d.exponent = -1074
  narrow : d.narrowBelow = true ↔ d.mantissa = 2 ^ 52 ∧ -1074 < d.exponent

/-- The form in which a positive finite double is stored: the exponent is not too great either. -/
structure Dyadic.Canonical (d : Dyadic) : Prop extends d.Shaped where
  most : d.exponent ≤ 971

/-! ## Words and their components -/

/-- The parameters of doubles: the bias of the exponent ... -/
theorem bias_binary64 : ((Format.binary64.exponentBias : Nat) : Int) = 1023 := rfl

/-- ... and the bits of the mantissa, the leading one included. -/
theorem mantissaBits_binary64 : Format.binary64.mantissaBits = 53 := rfl

/-- A leading one adds a power of two. -/
theorem toNat_one_append {w : Nat} (v : BitVec w) : (1#1 ++ v).toNat = 2 ^ w + v.toNat := by
  rw [BitVec.toNat_append, ← Nat.shiftLeft_add_eq_or_of_lt v.isLt]
  simp [Nat.shiftLeft_eq]

/-- A full mantissa has all of its bits. -/
theorem log2_of_full {m : Nat} (hlow : 2 ^ 52 ≤ m) (hhigh : m < 2 ^ 53) : m.log2 = 52 :=
  (Nat.log2_eq_iff (by omega)).mpr ⟨hlow, hhigh⟩

/-- A smaller one has fewer. -/
theorem log2_lt_of_lt {m k : Nat} (hk : 0 < k) (h : m < 2 ^ k) : m.log2 < k := by
  rcases Nat.eq_zero_or_pos m with rfl | hm
  · simpa using hk
  · exact (Nat.log2_lt (by omega)).mpr h

/-! ## Packing and unpacking are inverse -/

/-- A mantissa of 53 bits loses its first one, and the exponent is stored with its bias. -/
theorem pack_of_full (s : Sign) {m : Nat} {q : Int} (hm : 0 < m) (hlow : 2 ^ 52 ≤ m)
    (hhigh : m < 2 ^ 53) (hleast : -1074 ≤ q) (hmost : q ≤ 971) :
    UnpackedFloat.pack .binary64 (.finite s m q hm) =
      packComponents .binary64 s (BitVec.ofNat 11 (q + 1075).toNat) (BitVec.ofNat 52 m) := by
  have hbiased : (q + (Format.binary64.exponentBias : Nat) +
      (Format.binary64.mantissaBitsWithoutImplicit : Nat)).toNat = (q + 1075).toNat := by
    rw [bias_binary64]
    congr 1
    show q + 1023 + 52 = q + 1075
    ring
  have hroom : ¬ 2 ^ 11 ≤ (q + 1075).toNat + 1 := by omega
  simp only [UnpackedFloat.pack, hbiased, mantissaBits_binary64, log2_of_full hlow hhigh,
    if_neg hroom, if_true]

/-- A shorter mantissa stands with the exponent zero. -/
theorem pack_of_short (s : Sign) {m : Nat} (hm : 0 < m) (hhigh : m < 2 ^ 52) :
    UnpackedFloat.pack .binary64 (.finite s m (-1074) hm) =
      packComponents .binary64 s 0#11 (BitVec.ofNat 52 m) := by
  have hlog : ¬ m.log2 + 1 = 53 := by
    have := log2_lt_of_lt (by decide) hhigh
    omega
  have hbiased : (-1074 + (Format.binary64.exponentBias : Nat) +
      (Format.binary64.mantissaBitsWithoutImplicit : Nat) : Int).toNat = 1 := by decide
  have hroom : ¬ 2 ^ Format.binary64.exponentBits ≤ 1 + 1 := by decide
  simp only [UnpackedFloat.pack, hbiased, mantissaBits_binary64, if_neg hlog, if_neg hroom]

/-- Beyond the greatest exponent there are only the infinities. -/
theorem pack_of_huge (s : Sign) {m : Nat} {q : Int} (hm : 0 < m) (hhuge : 972 ≤ q) :
    Float.Model.pack (.finite s m q hm) = .pack (.infinity s) := by
  have hroom : 2 ^ Format.binary64.exponentBits ≤
      (q + (Format.binary64.exponentBias : Nat) +
        (Format.binary64.mantissaBitsWithoutImplicit : Nat)).toNat + 1 := by
    rw [bias_binary64]
    change 2 ^ 11 ≤ (q + 1023 + 52).toNat + 1
    omega
  have hpack : UnpackedFloat.pack .binary64 (.finite s m q hm) =
      UnpackedFloat.pack .binary64 (.infinity s) := if_pos hroom
  simp only [Float.Model.pack, hpack]

/-- What a word unpacks to, by its three components. -/
theorem unpack_packComponents (s : Sign) (e : BitVec 11) (m : BitVec 52) :
    UnpackedFloat.unpack .binary64 (packComponents .binary64 s e m) =
      if e = -1#11 then if m = 0#52 then .infinity s else .notANumber
      else if e = 0#11 then
        if h : m = 0#52 then .zero s
        else .finite s m.toNat ((e.toNat : Int) - 1075 + 1) (by
          simpa [BitVec.toNat_pos, BitVec.pos_iff_ne_zero])
      else .finite s (1#1 ++ m).toNat ((e.toNat : Int) - 1075) (by
        rw [toNat_one_append]
        omega) := by
  simp only [UnpackedFloat.unpack, unpackExponent_packComponents, unpackMantissa_packComponents,
    unpackSign_packComponents, Sign.ofBitVec_toBitVec]
  rfl

/-- A canonical double survives packing. -/
theorem unpack_pack_canonical (s : Sign) {d : Dyadic} (hd : d.Canonical) :
    (Float.Model.pack (.finite s d.mantissa d.exponent hd.pos)).unpack =
      .finite s d.mantissa d.exponent hd.pos := by
  obtain ⟨m, q, narrow⟩ := d
  obtain ⟨⟨hpos, hfits, hleast, hfull, -⟩, hmost⟩ := hd
  simp only at hpos hfits hleast hmost hfull
  show UnpackedFloat.unpack .binary64 (UnpackedFloat.pack .binary64 (.finite s m q hpos)) = _
  -- a normal number has a leading one that is not stored, a subnormal one has none
  by_cases h : 2 ^ 52 ≤ m
  · rw [pack_of_full s hpos h hfits hleast hmost, unpack_packComponents]
    have he : (BitVec.ofNat 11 (q + 1075).toNat).toNat = (q + 1075).toNat := by
      rw [BitVec.toNat_ofNat]
      omega
    have hne1 : BitVec.ofNat 11 (q + 1075).toNat ≠ -1#11 := by
      intro heq
      have := congrArg BitVec.toNat heq
      rw [he, show (-1#11).toNat = 2047 from rfl] at this
      omega
    have hne0 : BitVec.ofNat 11 (q + 1075).toNat ≠ 0#11 := by
      intro heq
      have := congrArg BitVec.toNat heq
      rw [he, show (0#11).toNat = 0 from rfl] at this
      omega
    rw [if_neg hne1, if_neg hne0]
    congr 1
    · show (1#1 ++ BitVec.ofNat 52 m).toNat = m
      rw [toNat_one_append, BitVec.toNat_ofNat]
      omega
    · show ((BitVec.ofNat 11 (q + 1075).toNat).toNat : Int) - 1075 = q
      omega
  · obtain rfl : q = -1074 := hfull.resolve_left h
    rw [pack_of_short s hpos (by omega), unpack_packComponents]
    have hm : (BitVec.ofNat 52 m).toNat = m := by
      rw [BitVec.toNat_ofNat]
      omega
    have hne : BitVec.ofNat 52 m ≠ 0#52 := by
      intro heq
      have := congrArg BitVec.toNat heq
      rw [hm, show (0#52).toNat = 0 from rfl] at this
      omega
    rw [if_neg (by decide), if_pos rfl, dif_neg hne]
    congr 1

/-- Taking the bits apart loses nothing. -/
theorem pack_unpack (f : Float.Model) : Float.Model.pack f.unpack = f := by
  obtain ⟨bits, hvalid⟩ := f
  simp only [Float.Model.pack, Float.Model.unpack, pack_unpack_of_valid hvalid]

/-! ## The parts of a double -/

/-- The fraction is in the lower 52 bits, ... -/
theorem toNat_unpackMantissa (b : BitVec Format.binary64.numBits) :
    (unpackMantissa b).toNat = b.toNat % 2 ^ 52 := by
  simp [unpackMantissa, BitVec.extractLsb]

/-- ... the exponent in the next 11 ... -/
theorem toNat_unpackExponent (b : BitVec Format.binary64.numBits) :
    (unpackExponent b).toNat = b.toNat / 2 ^ 52 % 2 ^ 11 := by
  simp [unpackExponent, BitVec.extractLsb, Nat.shiftRight_eq_div_pow]

/-- ... and the sign in the last one. -/
theorem toNat_unpackSign (b : BitVec Format.binary64.numBits) :
    (unpackSign b).toNat = b.toNat / 2 ^ 63 := by
  have hb : b.toNat < 2 ^ 64 := b.isLt
  simp [unpackSign, BitVec.extractLsb, Nat.shiftRight_eq_div_pow]
  omega

/-- The components of a word, as its digits. -/
theorem exists_components (b : BitVec Format.binary64.numBits) :
    ∃ (s : Sign) (e : BitVec 11) (m : BitVec 52), packComponents .binary64 s e m = b ∧
      s = signOf (b.toNat / 2 ^ 63 == 1) ∧ e.toNat = b.toNat / 2 ^ 52 % 2 ^ 11 ∧
      m.toNat = b.toNat % 2 ^ 52 := by
  refine ⟨_, _, _, packComponents_unpackSign_unpackExponent_unpackMantissa b, ?_,
    toNat_unpackExponent b, toNat_unpackMantissa b⟩
  rw [← toNat_unpackSign]
  rcases BitVec.eq_zero_or_eq_one (unpackSign b) with h | h <;> rw [h] <;> rfl

/-- Bits are all zero, ... -/
theorem zero_toNat_iff {w : Nat} {v : BitVec w} : v = 0#w ↔ v.toNat = 0 :=
  ⟨fun h => by simp [h], fun h => BitVec.eq_of_toNat_eq (by simpa using h)⟩

/-- ... or all one, if their number says so. -/
theorem ones_toNat_iff {e : BitVec 11} : e = -1#11 ↔ e.toNat = 2047 :=
  ⟨fun h => by rw [h]; rfl, fun h => BitVec.eq_of_toNat_eq h⟩

/-- The model unpacks a double to its parts. -/
theorem unpack_toModel (x : Float) : x.toModel.unpack = (parts x).unpacked := by
  obtain ⟨⟨bits, hvalid⟩⟩ := x
  obtain ⟨s, e, m, hb, hs, he, hm⟩ := exists_components bits.toBitVec
  have hbits : (Float.ofModel ⟨bits, hvalid⟩).toBits.toNat = bits.toBitVec.toNat := rfl
  show UnpackedFloat.unpack .binary64 bits.toBitVec = _
  rw [← hb, unpack_packComponents, hs]
  simp only [parts, hbits, Nat.pow_eq, ← he, ← hm, beq_iff_eq, ones_toNat_iff, zero_toNat_iff]
  generalize (bits.toBitVec.toNat / 2 ^ 63 == 1) = negative
  -- infinities and what is undefined, then zeros and subnormal numbers, then the others
  by_cases hones : e.toNat = 2047
  · by_cases hzero : m.toNat = 0 <;> simp [hones, hzero, Parts.unpacked]
  · by_cases hzeros : e.toNat = 0
    · by_cases hzero : m.toNat = 0
      · simp [hzeros, hzero, Parts.unpacked]
      · simp [hzeros, hzero, Parts.unpacked, Nat.pos_of_ne_zero hzero]
    · have hone : (1#1 ++ m).toNat = 2 ^ 52 + m.toNat := toNat_one_append m
      simp [hones, hzeros, Parts.unpacked, hone]

/-- A double is the one with its parts. -/
theorem toFloat_parts (x : Float) : (parts x).toFloat = x := by
  rw [Parts.toFloat, ← unpack_toModel, pack_unpack]

/-- A finite double is zero or in canonical form. -/
theorem canonical_of_parts {x : Float} {negative : Bool} {d : Dyadic}
    (h : parts x = .finite negative d) : d.mantissa = 0 ∨ d.Canonical := by
  have hexp : x.toBits.toNat / 2 ^ 52 % 2 ^ 11 < 2 ^ 11 := Nat.mod_lt _ (by decide)
  have hfraction : x.toBits.toNat % 2 ^ 52 < 2 ^ 52 := Nat.mod_lt _ (by decide)
  simp only [parts, Nat.pow_eq] at h
  generalize x.toBits.toNat / 2 ^ 52 % 2 ^ 11 = e at h hexp
  generalize x.toBits.toNat % 2 ^ 52 = m at h hfraction
  split at h
  · split at h <;> cases h
  · next hones =>
    rw [beq_iff_eq] at hones
    split at h
    · next hzeros =>
      cases h
      rcases Nat.eq_zero_or_pos m with hm | hm
      · exact .inl hm
      · right
        refine ⟨?_, by simp⟩
        constructor <;> simp <;> omega
    · next hzeros =>
      rw [beq_iff_eq] at hzeros
      cases h
      right
      refine ⟨?_, by simp; omega⟩
      constructor <;> simp <;> omega

/-- Negation changes the sign of a double. -/
theorem neg_toFloat_canonical {d : Dyadic} (hd : d.Canonical) :
    -(Parts.finite false d).toFloat = (Parts.finite true d).toFloat := by
  show Float.ofModel (.pack (Float.Model.pack (Parts.finite false d).unpacked).unpack.neg) = _
  have hpos := hd.pos
  simp only [Parts.toFloat, Parts.unpacked, hpos, dif_pos, unpack_pack_canonical _ hd]
  rfl

end NovaLang.Decimal
