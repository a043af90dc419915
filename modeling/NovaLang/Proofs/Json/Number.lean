import NovaLang.Json.Reader
import NovaLang.Json.Writer
import NovaLang.Proofs.Decimal.Digits
import NovaLang.Proofs.Decimal.Nearest
import NovaLang.Proofs.Decimal.Shortest

namespace NovaLang.Json

open Decimal

/-! # Numbers in JSON text

A whole number is read back from its digits, unless they are too many, and a
double from its shortest decimal, whichever way that is laid out.
-/

/-- No number goes on in this text. -/
def Ends (rest : List Char) : Prop :=
  ∀ c ∈ rest.head?, c.isDigit = false ∧ c ≠ '.' ∧ c ≠ 'e' ∧ c ≠ 'E'

/-! ## The parts of a number -/

/-- Digits are taken off up to the first other character. -/
theorem spanDigits_append {ds rest : List Char} (hds : AllDigits ds)
    (hrest : ∀ c ∈ rest.head?, c.isDigit = false) : spanDigits (ds ++ rest) = (ds, rest) := by
  unfold spanDigits
  rw [List.takeWhile_append_of_pos hds, List.dropWhile_append_of_pos hds]
  cases rest with
  | nil => simp
  | cons c rest =>
    have hc : ¬ c.isDigit = true := by simpa using hrest c rfl
    rw [List.takeWhile_cons_of_neg hc, List.dropWhile_cons_of_neg hc, List.append_nil]

/-- The digits of a whole part: one zero, or digits that do not begin with one. -/
def Whole (ds : List Char) : Prop :=
  ds = ['0'] ∨ ∃ c cs, ds = c :: cs ∧ c ≠ '0' ∧ AllDigits ds

/-- The digits of a number are those of a whole part. -/
theorem whole_digits (n : ℕ) : Whole (digits n) := by
  rcases Nat.eq_zero_or_pos n with rfl | hn
  · exact .inl rfl
  · obtain ⟨c, cs, hcs, hc⟩ := exists_digits_cons hn
    exact .inr ⟨c, cs, hcs, hc, allDigits_digits n⟩

/-- A whole part is taken off, ... -/
theorem wholePart_append {ds rest : List Char} (hds : Whole ds)
    (hrest : ∀ c ∈ rest.head?, c.isDigit = false) : wholePart? (ds ++ rest) = some (ds, rest) := by
  rcases hds with rfl | ⟨c, cs, rfl, hc, hdigits⟩
  · rfl
  · have hspan := spanDigits_append hdigits hrest
    rw [List.cons_append] at hspan ⊢
    unfold wholePart?
    split
    · next h => exact absurd (List.cons.inj h).1 hc
    · simp [hspan]

/-- ... a fraction is ... -/
theorem fraction_append {ds rest : List Char} (hne : ds ≠ []) (hds : AllDigits ds)
    (hrest : ∀ c ∈ rest.head?, c.isDigit = false) :
    fraction? ('.' :: (ds ++ rest)) = some (ds, rest) := by
  simp [fraction?, spanDigits_append hds hrest, hne]

/-- ... unless there is no point, ... -/
theorem fraction_none {rest : List Char} (hrest : ∀ c ∈ rest.head?, c ≠ '.') :
    fraction? rest = none := by
  unfold fraction?
  split
  · next rest => exact absurd rfl (hrest '.' rfl)
  · rfl

/-- ... and so is an exponent, unless there is no letter for it. -/
theorem exponent_none {rest : List Char} (hrest : ∀ c ∈ rest.head?, c ≠ 'e' ∧ c ≠ 'E') :
    exponent? rest = none := by
  cases rest with
  | nil => rfl
  | cons c rest =>
    obtain ⟨he, hE⟩ := hrest c rfl
    simp [exponent?, he, hE]

/-- With the letter and a sign it is read as written. -/
theorem exponent_append {ds rest : List Char} (e : ℤ) (hne : ds ≠ []) (hds : AllDigits ds)
    (hvalue : valueOf ds = e.natAbs) (hrest : ∀ c ∈ rest.head?, c.isDigit = false) :
    exponent? ('e' :: (if e < 0 then '-' else '+') :: (ds ++ rest)) = some (e, rest) := by
  have hsign : splitSign ((if e < 0 then '-' else '+') :: (ds ++ rest)) =
      (decide (e < 0), ds ++ rest) := by
    by_cases h : e < 0 <;> simp [h, splitSign]
  have hdigits : ofDigits (ds.map digitOf) = e.natAbs := hvalue
  have hsigned : (if decide (e < 0) then -((e.natAbs : ℕ) : ℤ) else (e.natAbs : ℕ)) = e := by
    simp only [decide_eq_true_eq]
    split <;> omega
  simp only [exponent?, hsign, spanDigits_append hds hrest, hdigits, List.isEmpty_iff, hne,
    beq_self_eq_true, Bool.true_or, if_true, if_false]
  rw [hsigned]

/-! ## Whole numbers -/

/-- A whole number is read back, unless it has too many digits. -/
theorem readNumber_digits (negative : Bool) (n : ℕ) {rest : List Char} (hrest : Ends rest) :
    readNumber negative (digits n ++ rest) =
      if maxDigits < (digits n).length then .error (.tooManyDigits (some (digits n).length))
      else .ok (.int (if negative then -(n : ℤ) else n), rest) := by
  have hwhole := wholePart_append (whole_digits n) fun c hc => (hrest c hc).1
  have hfraction := fraction_none fun c hc => (hrest c hc).2.1
  have hexponent := exponent_none fun c hc => (hrest c hc).2.2
  have hvalue : ofDigits ((digits n).map digitOf) = n := valueOf_digits n
  simp only [readNumber, hwhole, hfraction, hexponent, hvalue]

/-! ## Doubles -/

/-- A double with a sign. -/
def withSign (negative : Bool) (x : Float) : Float := if negative then -x else x

/-- A number with a fraction and no exponent. -/
theorem readNumber_plain (negative : Bool) {whole fraction rest : List Char} (hwhole : Whole whole)
    (hne : fraction ≠ []) (hfraction : AllDigits fraction) (hrest : Ends rest) :
    readNumber negative (whole ++ '.' :: (fraction ++ rest)) =
      .ok (.float (withSign negative (nearest (valueOf (whole ++ fraction)) (-fraction.length))),
        rest) := by
  have hpart : wholePart? (whole ++ '.' :: (fraction ++ rest)) =
      some (whole, '.' :: (fraction ++ rest)) := wholePart_append hwhole (by simp)
  have hfrac := fraction_append hne hfraction fun c hc => (hrest c hc).1
  have hexponent := exponent_none fun c hc => (hrest c hc).2.2
  simp only [readNumber, hpart, hfrac, hexponent, Option.getD_none, zero_sub]
  rfl

/-- A number with one digit before the point and an exponent. -/
theorem readNumber_scientific (negative : Bool) {c : Char} {fraction expo rest : List Char} (e : ℤ)
    (hc : c ≠ '0') (hdigits : AllDigits (c :: fraction)) (hne : expo ≠ []) (hexpo : AllDigits expo)
    (hvalue : valueOf expo = e.natAbs) (hrest : Ends rest) :
    readNumber negative (c :: ((if fraction.isEmpty then [] else '.' :: fraction) ++
        'e' :: (if e < 0 then '-' else '+') :: (expo ++ rest))) =
      .ok (.float (withSign negative (nearest (valueOf (c :: fraction)) (e - fraction.length))),
        rest) := by
  have hexponent := exponent_append e hne hexpo hvalue fun c hc => (hrest c hc).1
  have hwhole : Whole [c] := .inr ⟨c, [], rfl, hc, fun d hd =>
    hdigits d (List.mem_cons.mpr (.inl (List.mem_singleton.mp hd)))⟩
  generalize htail : 'e' :: (if e < 0 then '-' else '+') :: (expo ++ rest) = tail at hexponent ⊢
  -- with a single digit there is no point
  cases fraction with
  | nil =>
    have hpart : wholePart? (c :: tail) = some ([c], tail) :=
      wholePart_append hwhole (by simp [← htail])
    have hfrac : fraction? tail = none := fraction_none (by simp [← htail])
    simp only [List.isEmpty_nil, if_true, List.nil_append, readNumber, hpart, hfrac, hexponent,
      List.length_nil, Nat.cast_zero, sub_zero]
    rfl
  | cons d ds =>
    have hdigits' : AllDigits (d :: ds) := fun x hx => hdigits x (List.mem_cons_of_mem _ hx)
    have hpart : wholePart? (c :: '.' :: (d :: ds ++ tail)) =
        some ([c], '.' :: (d :: ds ++ tail)) := wholePart_append hwhole (by simp)
    have hfrac : fraction? ('.' :: (d :: ds ++ tail)) = some (d :: ds, tail) :=
      fraction_append (List.cons_ne_nil d ds) hdigits' (by simp [← htail])
    simp only [List.isEmpty_cons, Bool.false_eq_true, if_false, List.cons_append] at hpart hfrac ⊢
    simp only [readNumber, hpart, hfrac, hexponent, Option.getD_some]
    rfl

/-- The text is read as a decimal with this value. -/
def ReadsTo (text : List Char) (v : ℚ) : Prop :=
  ∀ (negative : Bool) (rest : List Char), Ends rest → ∃ (c : ℕ) (e : ℤ),
    readNumber negative (text ++ rest) = .ok (.float (withSign negative (nearest c e)), rest) ∧
      0 < c ∧ (c * 10 ^ e : ℚ) = v

section Layout

variable {d : Char} {ds : List Char}

/-- Digits without an exponent part read as their value. -/
theorem readsTo_plain (hd : d ≠ '0') (hdigits : AllDigits (d :: ds))
    (hpos : 0 < valueOf (d :: ds)) (whole : ℤ) :
    ReadsTo (Decimal.plain floatLayout (d :: ds) whole)
      (valueOf (d :: ds) * 10 ^ (whole - (d :: ds).length)) := by
  intro negative rest hrest
  have hsuffix : floatLayout.wholeSuffix.toList = ['.', '0'] := rfl
  simp only [Decimal.plain, hsuffix]
  split
  · -- all digits stand behind the point
    next hsmall =>
    have hfraction := (allDigits_zeros (-whole).toNat).append hdigits
    have hread := readNumber_plain negative (.inl rfl) (by simp) hfraction hrest
    have hvalue : valueOf (['0'] ++ (List.replicate (-whole).toNat '0' ++ d :: ds)) =
        valueOf (d :: ds) := by
      rw [← List.replicate_one, valueOf_zeros_append, valueOf_zeros_append]
    rw [hvalue] at hread
    refine ⟨_, _, (congrArg (readNumber negative) (by simp)).trans hread, hpos, ?_⟩
    congr 2
    simp only [List.length_append, List.length_replicate]
    omega
  · next hbig =>
    split
    · -- zeros fill the places up to the point
      next hall =>
      have hzeros : AllDigits (d :: ds ++ List.replicate (whole.toNat - (d :: ds).length) '0') :=
        hdigits.append (allDigits_zeros _)
      have hpart : Whole (d :: ds ++ List.replicate (whole.toNat - (d :: ds).length) '0') :=
        .inr ⟨d, _, rfl, hd, hzeros⟩
      have hread := readNumber_plain negative hpart (List.cons_ne_nil '0' []) (allDigits_zeros 1) hrest
      have hvalue : valueOf (d :: ds ++ List.replicate (whole.toNat - (d :: ds).length) '0' ++ ['0']) =
          valueOf (d :: ds) * 10 ^ (whole.toNat - (d :: ds).length + 1) := by
        rw [← List.replicate_one, List.append_assoc, List.replicate_append_replicate, valueOf_append,
          valueOf_zeros, List.length_replicate, Nat.add_zero]
      rw [hvalue] at hread
      refine ⟨_, _, (congrArg (readNumber negative) (by simp)).trans hread, by positivity, ?_⟩
      push_cast
      rw [mul_assoc, ← zpow_natCast, ← zpow_add₀ (by norm_num)]
      congr 2
      simp only [List.length_singleton]
      omega
    · -- the point stands among the digits
      next hmid =>
      have hsplit : (d :: ds).take whole.toNat ++ (d :: ds).drop whole.toNat = d :: ds :=
        List.take_append_drop ..
      obtain ⟨n, hn⟩ : ∃ n, whole.toNat = n + 1 := ⟨whole.toNat - 1, by omega⟩
      have htake : AllDigits ((d :: ds).take whole.toNat) := fun c hc =>
        hdigits c (List.mem_of_mem_take hc)
      have hdrop : AllDigits ((d :: ds).drop whole.toNat) := fun c hc =>
        hdigits c (List.mem_of_mem_drop hc)
      have hne : (d :: ds).drop whole.toNat ≠ [] := by
        rw [Ne, List.drop_eq_nil_iff]
        omega
      have hread := readNumber_plain negative
        (.inr ⟨d, ds.take n, by rw [hn, List.take_succ_cons], hd, htake⟩) hne hdrop hrest
      rw [hsplit] at hread
      refine ⟨_, _, (congrArg (readNumber negative) (by simp)).trans hread, hpos, ?_⟩
      congr 2
      rw [List.length_drop]
      omega

/-- Padded with zeros, digits are still digits. -/
theorem allDigits_padZeros {cs : List Char} (h : AllDigits cs) (width : ℕ) :
    AllDigits (padZeros width cs) := (allDigits_zeros _).append h

/-- Digits with an exponent part read as their value. -/
theorem readsTo_scientific (hd : d ≠ '0') (hdigits : AllDigits (d :: ds))
    (hpos : 0 < valueOf (d :: ds)) (e : ℤ) :
    ReadsTo (scientific floatLayout (d :: ds) e)
      (valueOf (d :: ds) * 10 ^ (e + 1 - (d :: ds).length)) := by
  intro negative rest hrest
  have hne : padZeros floatLayout.exponentDigits (digits e.natAbs) ≠ [] := by
    simp [padZeros, digits_ne_nil]
  -- the zeros that pad the exponent do not change it
  have hvalue : valueOf (padZeros floatLayout.exponentDigits (digits e.natAbs)) = e.natAbs := by
    rw [padZeros, valueOf_zeros_append, valueOf_digits]
  have hread := readNumber_scientific negative e hd hdigits hne
    (allDigits_padZeros (allDigits_digits _) _) hvalue hrest
  refine ⟨_, _, (congrArg (readNumber negative) ?_).trans hread, hpos, ?_⟩
  · simp [scientific]
  · congr 2
    rw [List.length_cons]
    push_cast
    ring

end Layout

/-- A decimal is read back from its text. -/
theorem readsTo_write {s : Scaled} (hpos : 0 < s.coefficient) :
    ReadsTo (s.write floatLayout) (s.coefficient * 10 ^ s.exponent) := by
  obtain ⟨d, ds, k, hdrop, hd, hdigits, hall, hvalue⟩ := exists_significant hpos
  have hpos' : 0 < valueOf (d :: ds) := Nat.pos_of_mul_pos_right (hvalue ▸ hpos)
  have hlength : (digits s.coefficient).length = (d :: ds).length + k := by
    rw [hall, List.length_append, List.length_replicate]
  -- the value, with the point behind the first digit
  have hscaled : (s.coefficient * 10 ^ s.exponent : ℚ) =
      valueOf (d :: ds) *
        10 ^ (s.exponent + (digits s.coefficient).length - 1 + 1 - (d :: ds).length) := by
    rw [hlength, ← hvalue]
    push_cast
    rw [mul_assoc, ← zpow_natCast, ← zpow_add₀ (by norm_num)]
    congr 2
    ring
  have hnotzero : ¬ (s.coefficient == 0) = true := by simpa using hpos.ne'
  rw [hscaled, Scaled.write, if_neg hnotzero]
  simp only [hdrop]
  split
  · exact readsTo_plain hd hdigits hpos' _
  · exact readsTo_scientific hd hdigits hpos' _

/-- A double is read back from its text, whatever its value. -/
theorem readNumber_write {d : Decimal.Dyadic} (hd : d.Canonical) (negative : Bool) {rest : List Char}
    (hrest : Ends rest) :
    readNumber negative (d.shortest.write floatLayout ++ rest) =
      .ok (.float (Parts.finite negative d).toFloat, rest) := by
  obtain ⟨hholds, hpos, -⟩ := shortest_holds hd
  obtain ⟨c, e, hread, hc, hvalue⟩ := readsTo_write hpos negative rest hrest
  rw [hread, nearest_of_holds hd.toShaped hc (hvalue ▸ hholds)]
  cases negative
  · rfl
  · rw [withSign, if_pos rfl, neg_toFloat_canonical hd]

end NovaLang.Json
