import NovaLang.Proofs.Decimal.Spacing
import NovaLang.Proofs.Json.RoundTrip

namespace NovaLang.Decimal

/-! # Display texts tell doubles apart

The display text of a finite double is the digits of a whole number, or its exact text, in
which there is always a point or an exponent. So the text tells which of the two it is, and either
one tells the double.
-/

open Json (StartsWithDigit startsWithDigit_digits startsWithDigit_write floatLayout)

/-- A double is finite if its parts are. -/
theorem isFinite_iff {x : Float} :
    x.isFinite = true ↔ ∃ negative d, parts x = .finite negative d := by
  have hunpacked : x.isFinite = (parts x).unpacked.isFinite :=
    congrArg Float.Model.UnpackedFloat.isFinite (unpack_toModel x)
  rw [hunpacked]
  cases parts x with
  | finite negative d =>
    simp only [Parts.unpacked]
    split <;> simp [Float.Model.UnpackedFloat.isFinite]
  | infinite negative => simp [Parts.unpacked, Float.Model.UnpackedFloat.isFinite]
  | undefined => simp [Parts.unpacked, Float.Model.UnpackedFloat.isFinite]

/-! ## Values -/

section Values

variable {d : Dyadic}

/-- A whole dyadic number has that value. -/
theorem value_of_whole {n : ℕ} (h : d.whole? = some n) : d.value = n := by
  have hdown : (0 : ℚ) < powerDown 2 d.exponent := by
    exact_mod_cast powerDown_pos (by norm_num) d.exponent
  simp only [Dyadic.whole?, beq_iff_eq, Option.ite_none_right_eq_some, Option.some.injEq] at h
  obtain ⟨hmod, hn⟩ := h
  have hscaled : d.mantissa * powerUp 2 d.exponent = n * powerDown 2 d.exponent := by
    rw [← hn, Nat.div_mul_cancel (Nat.dvd_of_mod_eq_zero hmod)]
  have hvalue : d.value * powerDown 2 d.exponent = n * powerDown 2 d.exponent := by
    rw [← Nat.cast_mul, ← hscaled, Dyadic.value, Nat.cast_mul, powerUp_eq (by norm_num), mul_assoc]
    rfl
  exact mul_right_cancel₀ hdown.ne' hvalue

end Values

/-! ## Texts -/

/-- The characters that stand in texts of doubles besides digits. -/
def numberMarks : List Char := ['.', 'e', '+', '-']

/-- All characters are digits or number marks. -/
def Numeric (cs : List Char) : Prop := ∀ c ∈ cs, c.isDigit = true ∨ c ∈ numberMarks

/-- Two texts of such characters are one. -/
theorem Numeric.append {as bs : List Char} (ha : Numeric as) (hb : Numeric bs) :
    Numeric (as ++ bs) := List.forall_mem_append.mpr ⟨ha, hb⟩

/-- Digits are among them, ... -/
theorem AllDigits.numeric {cs : List Char} (h : AllDigits cs) : Numeric cs :=
  fun c hc => .inl (h c hc)

/-- ... and so are the marks. -/
theorem numeric_mark {c : Char} (h : c ∈ numberMarks) : Numeric [c] :=
  List.forall_mem_singleton.mpr (.inr h)

/-- A part of such a text is one. -/
theorem Numeric.of_subset {as bs : List Char} (h : Numeric bs) (hsub : as ⊆ bs) : Numeric as :=
  fun c hc => h c (hsub hc)

/-- The digits that are left are digits. -/
theorem allDigits_dropTrailingZeros (n : ℕ) : AllDigits (dropTrailingZeros (digits n)) := by
  obtain ⟨k, hk⟩ := dropTrailingZeros_append (digits n)
  intro c hc
  exact allDigits_digits n c (hk ▸ List.mem_append_left _ hc)

section Layout

variable {ds : List Char}

/-- A number without exponent is written in these characters, ... -/
theorem numeric_plain (hds : AllDigits ds) (whole : ℤ) : Numeric (plain exactLayout ds whole) := by
  have hzeros (n : ℕ) : Numeric (List.replicate n '0') := (allDigits_zeros n).numeric
  unfold plain
  split
  · have hpoint : Numeric ['0', '.'] := (hzeros 1).append (numeric_mark (by simp [numberMarks]))
    exact (hpoint.append (hzeros _)).append hds.numeric
  · split
    · have hsuffix : Numeric exactLayout.wholeSuffix.toList := by
        simp [Numeric, numberMarks, exactLayout]
      exact (hds.numeric.append (hzeros _)).append hsuffix
    · have hpoint : Numeric ['.'] := numeric_mark (by simp [numberMarks])
      exact ((hds.numeric.of_subset (List.take_subset ..)).append hpoint).append
        (hds.numeric.of_subset (List.drop_subset ..))

/-- ... one with an exponent is, ... -/
theorem numeric_scientific (hds : AllDigits ds) (exponent : ℤ) :
    Numeric (scientific exactLayout ds exponent) := by
  have hfraction : Numeric (ds.drop 1) := hds.numeric.of_subset (List.drop_subset ..)
  have hexponent : Numeric (padZeros exactLayout.exponentDigits (digits exponent.natAbs)) :=
    ((allDigits_zeros _).append (allDigits_digits _)).numeric
  have hsign : Numeric ['e', if exponent < 0 then '-' else '+'] := by
    split <;> simp [Numeric, numberMarks]
  refine (Numeric.append (Numeric.append ?_ ?_) hsign).append hexponent
  · exact hds.numeric.of_subset (List.take_subset ..)
  · split
    · exact List.forall_mem_nil _
    · exact (numeric_mark (by simp [numberMarks])).append hfraction

/-- ... and so is every number. -/
theorem numeric_write (s : Scaled) : Numeric (s.write exactLayout) := by
  have hds := allDigits_dropTrailingZeros s.coefficient
  unfold Scaled.write
  split
  · simp [Numeric, numberMarks, exactLayout]
  · dsimp only
    split
    · exact numeric_plain hds _
    · exact numeric_scientific hds _

/-- There is a point or an exponent in the exact text. -/
theorem exists_mark_write (s : Scaled) : ∃ c ∈ s.write exactLayout, c.isDigit = false := by
  have hplain (ds : List Char) (whole : ℤ) : '.' ∈ plain exactLayout ds whole := by
    unfold plain
    split
    · simp
    · split <;> simp [exactLayout]
  have hscientific (ds : List Char) (e : ℤ) : 'e' ∈ scientific exactLayout ds e := by
    simp [scientific]
  -- there is a point or an exponent in any case
  unfold Scaled.write
  split
  · exact ⟨'.', by simp [exactLayout], rfl⟩
  · dsimp only
    split
    · exact ⟨'.', hplain _ _, rfl⟩
    · exact ⟨'e', hscientific _ _, rfl⟩

end Layout

section Display

variable {x y : Float} {negative : Bool} {d : Dyadic}

/-- The exact display, character by character. -/
theorem toList_exact (hx : parts x = .finite negative d) :
    (exact x).toList = signed negative (d.shortest.write exactLayout) := by
  rw [exact, write, hx, String.toList_ofList]

/-- The exact text of a finite double is read back. -/
theorem exact_injective (hx : x.isFinite = true) (hy : y.isFinite = true) (h : exact x = exact y) :
    x = y := by
  have hwrite {x : Float} (hx : x.isFinite = true) : write floatLayout x = exact x := by
    obtain ⟨negative, d, hparts⟩ := isFinite_iff.mp hx
    rw [exact, write, write, hparts]
    rfl
  -- the reader gives the number back, so two numbers with one display are the same
  have hread (x : Float) :
      Json.readAtom ((write floatLayout x).toList ++ []) = .ok (.float x, []) :=
    Json.readAtom_float x nofun
  have hsame := hread x
  rw [hwrite hx, h, ← hwrite hy, hread y] at hsame
  cases hsame
  rfl

/-- The display text of a finite double is the digits of its value, or its exact text. -/
theorem display_cases (hx : parts x = .finite negative d) :
    (∃ n, d.value = (n : ℕ) ∧ (display x).toList = signed negative (digits n)) ∨
      display x = exact x := by
  unfold display
  rw [hx]
  dsimp only
  split
  · split
    · exact .inl ⟨_, value_of_whole ‹_›, String.toList_ofList⟩
    · exact .inr rfl
  · exact .inr rfl

/-- Behind its sign, it starts with a digit. -/
theorem startsWithDigit_shortest (hx : parts x = .finite negative d) :
    StartsWithDigit (d.shortest.write exactLayout) := by
  rcases canonical_of_parts hx with hzero | hd
  · simp only [Dyadic.shortest, hzero, beq_self_eq_true, if_true]
    exact ⟨'0', _, rfl, rfl⟩
  · exact startsWithDigit_write hd

/-- So a sign in front can be told from the digits. -/
theorem signed_injective {m n : Bool} {as bs : List Char} (ha : StartsWithDigit as)
    (hb : StartsWithDigit bs) (h : signed m as = signed n bs) : m = n ∧ as = bs := by
  obtain ⟨a, as, rfl, ha⟩ := ha
  obtain ⟨b, bs, rfl, hb⟩ := hb
  have hminus : ∀ c : Char, c.isDigit = true → '-' ≠ c := fun c hc hminus => by
    rw [← hminus] at hc
    cases hc
  cases m <;> cases n
  · exact ⟨rfl, h⟩
  · exact absurd (List.cons.inj h).1.symm (hminus a ha)
  · exact absurd (List.cons.inj h).1 (hminus b hb)
  · exact ⟨rfl, (List.cons.inj h).2⟩

/-- Digits are not the exact text of anything. -/
theorem digits_ne_exact (n : ℕ) {m : Bool} (hy : parts y = .finite negative d) :
    signed m (digits n) ≠ (exact y).toList := by
  rw [toList_exact hy]
  intro h
  obtain ⟨-, hsame⟩ := signed_injective (startsWithDigit_digits n) (startsWithDigit_shortest hy) h
  obtain ⟨c, hc, hmark⟩ := exists_mark_write d.shortest
  rw [allDigits_digits n c (hsame ▸ hc)] at hmark
  cases hmark

/-- **Different finite doubles have different display texts.** -/
theorem display_injective (hx : x.isFinite = true) (hy : y.isFinite = true)
    (h : display x = display y) : x = y := by
  obtain ⟨negative, d, hpx⟩ := isFinite_iff.mp hx
  obtain ⟨negative', d', hpy⟩ := isFinite_iff.mp hy
  -- whole numbers are displayed by their digits alone, all others with a mark
  rcases display_cases hpx with ⟨n, hvalue, hdigits⟩ | hexact <;>
    rcases display_cases hpy with ⟨n', hvalue', hdigits'⟩ | hexact'
  · rw [h, hdigits'] at hdigits
    obtain ⟨rfl, hsame⟩ :=
      signed_injective (startsWithDigit_digits n') (startsWithDigit_digits n) hdigits
    have hn : n' = n := by rw [← valueOf_digits n', hsame, valueOf_digits]
    exact float_eq_of_value hpx hpy (hvalue.trans (hn ▸ hvalue'.symm))
  · rw [h, hexact'] at hdigits
    exact absurd hdigits.symm (digits_ne_exact n hpy)
  · rw [← h, hexact] at hdigits'
    exact absurd hdigits'.symm (digits_ne_exact n' hpx)
  · exact exact_injective hx hy (hexact.symm.trans (h.trans hexact'))

/-- A display text is made of digits and number marks, and begins with a digit or a minus. -/
theorem display_numeric (hx : x.isFinite = true) :
    Numeric (display x).toList ∧
      ∃ negative cs, (display x).toList = signed negative cs ∧ StartsWithDigit cs := by
  obtain ⟨negative, d, hparts⟩ := isFinite_iff.mp hx
  have hsigned {cs : List Char} (hcs : Numeric cs) : Numeric (signed negative cs) := by
    cases negative
    · exact hcs
    · exact (numeric_mark (by simp [numberMarks])).append hcs
  rcases display_cases hparts with ⟨n, -, hdigits⟩ | hexact
  · rw [hdigits]
    exact ⟨hsigned (allDigits_digits n).numeric, negative, _, rfl, startsWithDigit_digits n⟩
  · rw [hexact, toList_exact hparts]
    exact ⟨hsigned (numeric_write _), negative, _, rfl, startsWithDigit_shortest hparts⟩

end Display

end NovaLang.Decimal
