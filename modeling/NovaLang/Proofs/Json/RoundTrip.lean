import Mathlib.Tactic.IntervalCases
import NovaLang.Proofs.Json.Number

namespace NovaLang.Json

open Decimal

/-! # JSON text reads back

Data written as text, on one line or indented, is read back as it was, as long as
whole numbers have no more digits than are read and no object has one key twice.
The induction follows the data: a value is read in front of any text at which no
number goes on.
-/

/-! ## Atoms -/

/-- A text begins with a digit. -/
def StartsWithDigit (cs : List Char) : Prop := ∃ c rest, cs = c :: rest ∧ c.isDigit = true

/-- A number is read only where a digit stands. -/
theorem readNumber_head {negative : Bool} {cs : List Char} {found : Json × List Char}
    (h : readNumber negative cs = .ok found) : StartsWithDigit cs := by
  cases cs with
  | nil => cases h
  | cons c rest =>
    refine ⟨c, rest, rfl, ?_⟩
    by_contra hc
    -- without a digit there is no whole part
    have hpart : wholePart? (c :: rest) = none := by
      unfold wholePart?
      split
      · next heq =>
        rw [(List.cons.inj heq).1] at hc
        exact absurd rfl hc
      · simp [spanDigits, List.takeWhile_cons_of_neg hc]
    rw [readNumber, hpart] at h
    cases h

/-- A digit is none of the other characters. -/
theorem ne_of_isDigit {c x : Char} (hc : c.isDigit = true) (hx : x.isDigit = false) : x ≠ c :=
  fun h => by
    rw [h, hc] at hx
    cases hx

/-- No word begins with a digit, nor with a minus and a digit. -/
theorem readAtom_signed (negative : Bool) {cs : List Char} (h : StartsWithDigit cs)
    (rest : List Char) : readAtom (signed negative cs ++ rest) = readNumber negative (cs ++ rest) := by
  obtain ⟨c, tail, rfl, hc⟩ := h
  unfold readAtom
  split
  · -- no word starts with a digit, and `-Infinity` not with a minus and a digit
    next hfound => cases negative <;> simp [words, afterWord?, signed, ne_of_isDigit hc] at hfound
  · cases negative
    · have hminus : '-' ≠ c := ne_of_isDigit hc rfl
      simp only [signed, Bool.false_eq_true, if_false, List.cons_append]
      split
      · next heq => exact absurd (List.cons.inj heq).1.symm hminus
      · rfl
    · rfl

theorem startsWithDigit_digits (n : ℕ) : StartsWithDigit (digits n) := by
  obtain ⟨c, rest, h⟩ := List.exists_cons_of_ne_nil (digits_ne_nil n)
  exact ⟨c, rest, h, allDigits_digits n c (h ▸ List.mem_cons_self ..)⟩

/-- A whole number is written as its digits, with its sign in front. -/
theorem toList_toString (n : ℤ) :
    (toString n).toList = signed (decide (n < 0)) (digits n.natAbs) := by
  rw [Int.toString_eq_repr]
  cases n with
  | ofNat m =>
    have hpos : ¬ Int.ofNat m < 0 := by simp
    simp only [Int.repr, Nat.toList_repr, signed, hpos, decide_false, Bool.false_eq_true, if_false]
    rfl
  | negSucc m =>
    have hneg : Int.negSucc m < 0 := Int.negSucc_lt_zero m
    simp only [Int.repr, String.toList_append, Nat.toList_repr, signed, hneg, decide_true, if_true]
    rfl

/-- A whole number in front of a text. -/
theorem readAtom_int (n : ℤ) {rest : List Char} (hrest : Ends rest) :
    readAtom ((toString n).toList ++ rest) =
      if maxDigits < (digits n.natAbs).length then .error (.tooManyDigits (some (digits n.natAbs).length))
      else .ok (.int n, rest) := by
  have hvalue : (if decide (n < 0) = true then -(n.natAbs : ℤ) else n.natAbs) = n := by
    simp only [decide_eq_true_eq]
    split <;> omega
  rw [toList_toString, readAtom_signed _ (startsWithDigit_digits _), readNumber_digits _ _ hrest,
    hvalue]

theorem startsWithDigit_write {d : Decimal.Dyadic} (hd : d.Canonical) :
    StartsWithDigit (d.shortest.write floatLayout) := by
  have hread := readNumber_write hd false (show Ends [] by simp [Ends])
  rw [List.append_nil] at hread
  exact readNumber_head hread

/-- A zero in front of a text. -/
theorem readAtom_zero (negative : Bool) {rest : List Char} (hrest : Ends rest) {d : Decimal.Dyadic}
    (hd : d.mantissa = 0) :
    readAtom (signed negative (d.shortest.write floatLayout) ++ rest) =
      .ok (.float (Parts.finite negative d).toFloat, rest) := by
  have hwrite : d.shortest.write floatLayout = '0' :: '.' :: ['0'] := by
    simp only [Decimal.Dyadic.shortest, hd, beq_self_eq_true, if_true]
    rfl
  have hread := readNumber_plain negative (.inl rfl) (List.cons_ne_nil '0' []) (allDigits_zeros 1) hrest
  -- both zeros are read back with their sign
  have hzero : withSign negative (nearest (valueOf (['0'] ++ ['0'])) (-(['0'].length : ℕ))) =
      (Parts.finite negative d).toFloat := by
    have hunpacked : (Parts.finite negative d).unpacked = .zero (signOf negative) := by
      simp [Parts.unpacked, hd]
    rw [Parts.toFloat, hunpacked]
    cases negative <;> decide
  rw [hwrite, readAtom_signed _ ⟨'0', _, rfl, rfl⟩]
  rw [hzero] at hread
  exact hread

/-- A double in front of a text. -/
theorem readAtom_float (x : Float) {rest : List Char} (hrest : Ends rest) :
    readAtom ((Decimal.write floatLayout x).toList ++ rest) = .ok (.float x, rest) := by
  have hx := toFloat_parts x
  unfold Decimal.write
  cases hparts : parts x with
  | finite negative d =>
    rw [hparts] at hx
    rw [String.toList_ofList, ← hx]
    rcases canonical_of_parts hparts with hzero | hd
    · exact readAtom_zero negative hrest hzero
    · rw [readAtom_signed _ (startsWithDigit_write hd), readNumber_write hd negative hrest]
  | infinite negative =>
    rw [hparts] at hx
    rw [String.toList_ofList, ← hx]
    cases negative <;> rfl
  | undefined =>
    rw [hparts] at hx
    rw [← hx]
    rfl

/-! ## Strings -/

/-- Four hexadecimal digits are read back as their number. -/
theorem hexQuad_hex {n : ℕ} (hn : n < 32) (rest : List Char) :
    hexQuad? (Text.hex 4 n ++ rest) = some (n, rest) := by
  interval_cases n <;> rfl

/-- The escape of a control character is read back. -/
theorem unicodeEscape_hex {c : Char} (hc : c.toNat < 32) (rest : List Char) :
    unicodeEscape? (Text.hex 4 c.toNat ++ rest) = some (c, rest) := by
  have hhigh : ¬ (0xd800 ≤ c.toNat && c.toNat < 0xdc00) = true := by
    simp
    omega
  have hlow : ¬ (0xdc00 ≤ c.toNat && c.toNat < 0xe000) = true := by
    simp
    omega
  simp only [unicodeEscape?, hexQuad_hex hc, Option.bind_eq_bind, Option.bind_some]
  rw [if_neg hhigh, if_neg hlow, Char.ofNat_toNat]

/-- A character that needs no escape. -/
theorem stringChar_self {c : Char} (hc : c ≠ '\\') (hcontrol : ¬ c.toNat < 32) (rest : List Char) :
    stringChar? (c :: rest) = some (c, rest) := by
  unfold stringChar?
  split
  · next heq => cases heq
  · next heq => exact absurd (List.cons.inj heq).1 hc
  · next heq => exact absurd (List.cons.inj heq).1 hc
  · next heq =>
    obtain ⟨rfl, rfl⟩ := List.cons.inj heq
    simp [hc, hcontrol]

/-- The three ways to write a character: by a letter, by its code, and as itself. -/
theorem escapeChar_cases (c : Char) :
    (∃ letter, escapeChar c = ['\\', letter] ∧ letter ≠ 'u' ∧ letterEscape? letter = some c) ∨
      (escapeChar c = '\\' :: 'u' :: Text.hex 4 c.toNat ∧ c.toNat < 32) ∨
      (escapeChar c = [c] ∧ c ≠ '"' ∧ c ≠ '\\' ∧ ¬ c.toNat < 32) := by
  unfold escapeChar
  split_ifs with hmark hslash hn hr ht hb hf hcontrol
  · exact .inl ⟨'"', rfl, by decide, by rw [eq_of_beq hmark]; rfl⟩
  · exact .inl ⟨'\\', rfl, by decide, by rw [eq_of_beq hslash]; rfl⟩
  · exact .inl ⟨'n', rfl, by decide, by rw [eq_of_beq hn]; rfl⟩
  · exact .inl ⟨'r', rfl, by decide, by rw [eq_of_beq hr]; rfl⟩
  · exact .inl ⟨'t', rfl, by decide, by rw [eq_of_beq ht]; rfl⟩
  · exact .inl ⟨'b', rfl, by decide, by rw [eq_of_beq hb]; rfl⟩
  · exact .inl ⟨'f', rfl, by decide, by rw [eq_of_beq hf]; rfl⟩
  · exact .inr (.inl ⟨rfl, hcontrol⟩)
  · exact .inr (.inr ⟨rfl, by simpa using hmark, by simpa using hslash, hcontrol⟩)

/-- A character is read back, escaped or not. -/
theorem stringChar_escapeChar (c : Char) (rest : List Char) :
    stringChar? (escapeChar c ++ rest) = some (c, rest) := by
  rcases escapeChar_cases c with ⟨letter, h, hu, hletter⟩ | ⟨h, hcontrol⟩ | ⟨h, -, hslash, hcontrol⟩
  · -- a letter behind a backslash, a control character by its number, and any other one itself
    rw [h]
    show stringChar? ('\\' :: letter :: rest) = _
    unfold stringChar?
    split
    · next heq => cases heq
    · next heq => exact absurd (List.cons.inj (List.cons.inj heq).2).1 hu
    · next heq =>
      obtain ⟨rfl, rfl⟩ := List.cons.inj (List.cons.inj heq).2
      rw [hletter]
      rfl
    · next hne heq => exact absurd heq.symm (by rintro ⟨⟩; exact hne _ _ rfl rfl)
  · rw [h]
    exact unicodeEscape_hex hcontrol rest
  · rw [h]
    exact stringChar_self hslash hcontrol rest

/-- An escaped character does not look like the end of the string. -/
theorem escapeChar_head (c : Char) : ∃ d cs, escapeChar c = d :: cs ∧ d ≠ '"' := by
  rcases escapeChar_cases c with ⟨letter, h, -⟩ | ⟨h, -⟩ | ⟨h, hmark, -⟩
  · exact ⟨_, _, h, by decide⟩
  · exact ⟨_, _, h, by decide⟩
  · exact ⟨_, _, h, hmark⟩

/-- The characters of a string are read up to its mark. -/
theorem stringBody_escape (cs rest : List Char) (fuel : ℕ) (hfuel : cs.length < fuel) :
    stringBody? fuel (cs.flatMap escapeChar ++ '"' :: rest) = some (cs, rest) := by
  induction cs generalizing fuel with
  | nil =>
    obtain ⟨fuel, rfl⟩ := Nat.exists_eq_succ_of_ne_zero hfuel.ne_bot
    rfl
  | cons c cs ih =>
    obtain ⟨fuel, rfl⟩ := Nat.exists_eq_succ_of_ne_zero hfuel.ne_bot
    obtain ⟨d, ds, hescape, hd⟩ := escapeChar_head c
    have hchar := stringChar_escapeChar c (cs.flatMap escapeChar ++ '"' :: rest)
    have hrest := ih fuel (by simpa using hfuel)
    rw [List.flatMap_cons, List.append_assoc, stringBody?, hchar]
    · simp only [Option.bind_eq_bind, Option.bind_some, hrest]
    · intro _ heq
      rw [hescape] at heq
      exact hd (List.cons.inj heq).1

/-- Escaping makes no string shorter. -/
theorem length_le_flatMap_escapeChar (cs : List Char) :
    cs.length ≤ (cs.flatMap escapeChar).length := by
  induction cs with
  | nil => exact le_rfl
  | cons c cs ih =>
    obtain ⟨d, ds, hescape, -⟩ := escapeChar_head c
    rw [List.flatMap_cons, hescape]
    simp only [List.length_cons, List.length_append]
    omega

theorem readString_quote (s : String) (rest : List Char) :
    readString (s.toList.flatMap escapeChar ++ '"' :: rest) = .ok (s, rest) := by
  have hlength := length_le_flatMap_escapeChar s.toList
  rw [readString, stringBody_escape]
  · simp only [String.ofList_toList]
  · simp only [List.length_append, List.length_cons]
    omega

/-! ## Legible data -/

mutual

/-- The data can be read back from its text: no whole number has more digits than
are read, and no object has one key twice. -/
def Legible : Json → Prop
  | .int n => n.natAbs < 10 ^ maxDigits
  | .arr items => LegibleItems items
  | .obj fields => (Keyed.names fields).Nodup ∧ LegibleFields fields
  | _ => True

/-- Each element can be read back. -/
def LegibleItems : List Json → Prop
  | [] => True
  | a :: as => Legible a ∧ LegibleItems as

/-- The data of each field can be read back. -/
def LegibleFields : List (String × Json) → Prop
  | [] => True
  | (_, a) :: as => Legible a ∧ LegibleFields as

end

/-! ## What text begins with -/

/-- The first characters of a value that is one word or one number. -/
def AtomHead (c : Char) : Prop := c.isDigit = true ∨ c ∈ ['-', 'I', 'N', 'n', 't', 'f']

/-- No bracket, brace, quote or blank is the head of an atom. -/
theorem AtomHead.ne {c x : Char} (hc : AtomHead c) (hx : x.isDigit = false)
    (hx' : x ∉ ['-', 'I', 'N', 'n', 't', 'f']) : c ≠ x := by
  rintro rfl
  rcases hc with hc | hc
  · exact absurd hc (by rw [hx]; decide)
  · exact hx' hc

/-- In particular, an atom does not start with a blank. -/
theorem AtomHead.isSpace_eq {c : Char} (hc : AtomHead c) : isSpace c = false := by
  simp [isSpace, hc.ne]

/-- Digits with a sign start like an atom. -/
theorem signed_head (negative : Bool) {cs : List Char} (h : StartsWithDigit cs) :
    ∃ c tail, signed negative cs = c :: tail ∧ AtomHead c := by
  obtain ⟨c, tail, rfl, hc⟩ := h
  cases negative
  · exact ⟨c, tail, rfl, .inl hc⟩
  · exact ⟨'-', c :: tail, rfl, .inr (by decide)⟩

/-- So does a whole number, ... -/
theorem int_head (n : ℤ) : ∃ c tail, (toString n).toList = c :: tail ∧ AtomHead c := by
  rw [toList_toString]
  exact signed_head _ (startsWithDigit_digits _)

/-- ... and so does a double, be it finite or not. -/
theorem float_head (x : Float) :
    ∃ c tail, (Decimal.write floatLayout x).toList = c :: tail ∧ AtomHead c := by
  unfold Decimal.write
  split
  · next negative d hparts =>
    rw [String.toList_ofList]
    apply signed_head
    rcases canonical_of_parts hparts with hzero | hd
    · simp only [Decimal.Dyadic.shortest, hzero, beq_self_eq_true, if_true]
      exact ⟨'0', _, rfl, rfl⟩
    · exact startsWithDigit_write hd
  · next negative _ =>
    rw [String.toList_ofList]
    cases negative
    · exact ⟨'I', _, rfl, .inr (by decide)⟩
    · exact ⟨'-', _, rfl, .inr (by decide)⟩
  · exact ⟨'N', _, rfl, .inr (by decide)⟩

/-- A value begins with no blank, and with no closing bracket. -/
theorem chars_head (style : Style) (depth : ℕ) (j : Json) (rest : List Char) :
    ∃ c tail, chars style depth j rest = c :: tail ∧ isSpace c = false ∧ c ≠ ']' := by
  have atom {cs : List Char} (h : ∃ c tail, cs = c :: tail ∧ AtomHead c) :
      ∃ c tail, cs ++ rest = c :: tail ∧ isSpace c = false ∧ c ≠ ']' := by
    obtain ⟨c, tail, rfl, hc⟩ := h
    exact ⟨c, tail ++ rest, rfl, hc.isSpace_eq, hc.ne rfl (by decide)⟩
  cases j with
  | null => exact ⟨'n', _, rfl, rfl, by decide⟩
  | bool b => cases b <;> exact ⟨_, _, rfl, rfl, by decide⟩
  | int n => exact atom (int_head n)
  | float x => exact atom (float_head x)
  | str s => exact ⟨'"', _, rfl, rfl, by decide⟩
  | arr items => cases items <;> exact ⟨'[', _, rfl, rfl, by decide⟩
  | obj fields =>
    cases fields with
    | nil => exact ⟨'\x7b', _, rfl, rfl, by decide⟩
    | cons f fs => exact ⟨'\x7b', _, rfl, rfl, by decide⟩

/-! ## Blanks between values -/

/-- Blanks are skipped up to the first other character. -/
theorem skipSpace_append {blanks cs : List Char} (hblanks : ∀ c ∈ blanks, isSpace c = true)
    (hcs : ∀ c ∈ cs.head?, isSpace c = false) : skipSpace (blanks ++ cs) = cs := by
  rw [skipSpace, List.dropWhile_append_of_pos hblanks]
  cases cs with
  | nil => rfl
  | cons c cs => rw [List.dropWhile_cons_of_neg (by simpa using hcs c rfl)]

/-- Between the lines of a layout there are blanks only. -/
theorem isSpace_newline (style : Style) (depth : ℕ) :
    ∀ c ∈ style.newline depth, isSpace c = true := by
  intro c hc
  cases style with
  | compact => cases hc
  | indented =>
    rcases List.mem_cons.mp hc with rfl | hc
    · rfl
    · rw [List.eq_of_mem_replicate hc]
      rfl

/-- A comma is followed by blanks. -/
theorem exists_comma (style : Style) (depth : ℕ) :
    ∃ blanks, style.comma depth = ',' :: blanks ∧ ∀ c ∈ blanks, isSpace c = true := by
  cases style with
  | compact => exact ⟨[' '], rfl, List.forall_mem_singleton.mpr rfl⟩
  | indented => exact ⟨_, rfl, isSpace_newline .indented depth⟩

/-- The break between two lines is skipped. -/
theorem skipSpace_newline (style : Style) (depth : ℕ) {c : Char} (hc : isSpace c = false)
    (cs : List Char) : skipSpace (style.newline depth ++ c :: cs) = c :: cs :=
  skipSpace_append (isSpace_newline style depth) (by simpa using hc)

/-- Blanks in front of a value are skipped, and nothing of the value is. -/
theorem skipSpace_chars {blanks : List Char} (hblanks : ∀ c ∈ blanks, isSpace c = true)
    (style : Style) (depth : ℕ) (j : Json) (rest : List Char) :
    skipSpace (blanks ++ chars style depth j rest) = chars style depth j rest := by
  obtain ⟨c, tail, h, hc, -⟩ := chars_head style depth j rest
  rw [h]
  exact skipSpace_append hblanks (by simpa using hc)

/-- No number goes on at a closing bracket. -/
theorem ends_newline (style : Style) (depth : ℕ) {c : Char}
    (hc : c.isDigit = false ∧ c ≠ '.' ∧ c ≠ 'e' ∧ c ≠ 'E') (rest : List Char) :
    Ends (style.newline depth ++ c :: rest) := by
  cases style with
  | compact => simpa [Style.newline, Ends] using hc
  | indented => simp [Style.newline, Ends]

/-- A comma ends a number. -/
theorem ends_comma (style : Style) (depth : ℕ) (rest : List Char) :
    Ends (style.comma depth ++ rest) := by
  obtain ⟨blanks, h, -⟩ := exists_comma style depth
  simp [h, Ends]

/-! ## Values -/

/-- What follows a string is the end of the text. -/
theorem suffix_quote (s : String) (rest : List Char) : rest <:+ quote s rest :=
  (List.suffix_cons '"' rest).trans ((List.suffix_append _ _).trans (List.suffix_cons '"' _))

mutual

/-- The text of a value stands in front of the given one. -/
theorem suffix_chars (style : Style) :
    ∀ (j : Json) (depth : ℕ) (rest : List Char), rest <:+ chars style depth j rest
  | .null, _, rest => List.suffix_append _ rest
  | .bool _, _, rest => List.suffix_append _ rest
  | .int _, _, rest => List.suffix_append _ rest
  | .float _, _, rest => List.suffix_append _ rest
  | .str s, _, rest => suffix_quote s rest
  | .arr [], _, rest => List.suffix_append ['[', ']'] rest
  | .arr (a :: as), depth, rest => by
    have hclose := List.suffix_append (style.newline depth ++ [']']) rest
    have hitems := suffix_itemChars style as (depth + 1) (style.newline depth ++ ']' :: rest)
    have hvalue := suffix_chars style a (depth + 1)
      (itemChars style (depth + 1) as (style.newline depth ++ ']' :: rest))
    rw [List.append_assoc] at hclose
    exact hclose.trans (hitems.trans (hvalue.trans
      ((List.suffix_append _ _).trans (List.suffix_cons '[' _))))
  | .obj [], _, rest => List.suffix_append ['\x7b', '\x7d'] rest
  | .obj ((k, a) :: as), depth, rest => by
    have hclose := List.suffix_append (style.newline depth ++ ['\x7d']) rest
    have hfields := suffix_fieldChars style as (depth + 1) (style.newline depth ++ '\x7d' :: rest)
    have hvalue := suffix_chars style a (depth + 1)
      (fieldChars style (depth + 1) as (style.newline depth ++ '\x7d' :: rest))
    rw [List.append_assoc] at hclose
    exact hclose.trans (hfields.trans (hvalue.trans ((List.suffix_append [':', ' '] _).trans
      ((suffix_quote k _).trans ((List.suffix_append _ _).trans (List.suffix_cons '\x7b' _))))))

/-- The same for the items of an array ... -/
theorem suffix_itemChars (style : Style) :
    ∀ (items : List Json) (depth : ℕ) (rest : List Char), rest <:+ itemChars style depth items rest
  | [], _, _ => List.suffix_rfl
  | a :: as, depth, rest =>
    (suffix_itemChars style as depth rest).trans ((suffix_chars style a depth _).trans
      (List.suffix_append _ _))

/-- ... and the fields of an object. -/
theorem suffix_fieldChars (style : Style) :
    ∀ (fields : List (String × Json)) (depth : ℕ) (rest : List Char),
      rest <:+ fieldChars style depth fields rest
  | [], _, _ => List.suffix_rfl
  | (k, a) :: as, depth, rest =>
    (suffix_fieldChars style as depth rest).trans ((suffix_chars style a depth _).trans
      ((List.suffix_append [':', ' '] _).trans ((suffix_quote k _).trans (List.suffix_append _ _))))

end

/-- The text of a value is not empty. -/
theorem length_lt_chars (style : Style) (j : Json) (depth : ℕ) (rest : List Char) :
    rest.length < (chars style depth j rest).length := by
  have cons {c : Char} {cs : List Char} (h : rest <:+ cs) : rest.length < (c :: cs).length :=
    Nat.lt_succ_of_le h.length_le
  cases j with
  | null => exact cons (List.suffix_append ['u', 'l', 'l'] rest)
  | bool b =>
    cases b
    · exact cons (List.suffix_append ['a', 'l', 's', 'e'] rest)
    · exact cons (List.suffix_append ['r', 'u', 'e'] rest)
  | int n =>
    obtain ⟨c, tail, h, -⟩ := int_head n
    simp only [chars, h]
    exact cons (List.suffix_append tail rest)
  | float x =>
    obtain ⟨c, tail, h, -⟩ := float_head x
    simp only [chars, h]
    exact cons (List.suffix_append tail rest)
  | str s => exact cons ((List.suffix_cons '"' rest).trans (List.suffix_append _ _))
  -- a value ends with what follows it, and it has a first character of its own
  | arr items =>
    cases items with
    | nil => exact cons (List.suffix_cons ']' rest)
    | cons a as =>
      have h := (suffix_itemChars style as (depth + 1) _).trans
        (suffix_chars style a (depth + 1) (itemChars style (depth + 1) as
          (style.newline depth ++ ']' :: rest)))
      exact cons ((((List.suffix_cons ']' rest).trans (List.suffix_append _ _)).trans h).trans
        (List.suffix_append _ _))
  | obj fields =>
    rcases fields with _ | ⟨⟨k, a⟩, as⟩
    · exact cons (List.suffix_cons '\x7d' rest)
    · have h := (suffix_fieldChars style as (depth + 1) _).trans
        (suffix_chars style a (depth + 1) (fieldChars style (depth + 1) as
          (style.newline depth ++ '\x7d' :: rest)))
      exact cons ((((List.suffix_cons '\x7d' rest).trans (List.suffix_append _ _)).trans h).trans
        ((List.suffix_append [':', ' '] _).trans ((suffix_quote k _).trans (List.suffix_append _ _))))

/-- Where an atom starts, an atom is read. -/
theorem readValue_atom {c : Char} {cs : List Char} (hc : AtomHead c) (fuel : ℕ) :
    readValue (fuel + 1) (c :: cs) = readAtom (c :: cs) := by
  have h1 : c ≠ '"' := hc.ne rfl (by decide)
  have h2 : c ≠ '[' := hc.ne rfl (by decide)
  have h3 : c ≠ '\x7b' := hc.ne rfl (by decide)
  unfold readValue
  split
  · next heq => exact absurd (List.cons.inj heq).1 h1
  · next heq => exact absurd (List.cons.inj heq).1 h2
  · next heq => exact absurd (List.cons.inj heq).1 h3
  · rfl

/-- A list is read by its elements. -/
theorem readValue_arr {fuel : ℕ} {style : Style} {depth : ℕ} {a : Json} {rest after : List Char}
    {items : List Json}
    (h : readItems fuel (chars style depth a rest) = .ok (items, after)) :
    readValue (fuel + 1) ('[' :: (style.newline depth ++ chars style depth a rest)) =
      .ok (.arr items, after) := by
  obtain ⟨c, tail, hhead, -, hc⟩ := chars_head style depth a rest
  have hskip := skipSpace_chars (isSpace_newline style depth) style depth a rest
  rw [hhead] at h hskip ⊢
  simp only [readValue, hskip]
  split
  · next heq => exact absurd (List.cons.inj heq).1 hc
  · rw [h]
    rfl

/-- An object is read by its fields. -/
theorem readValue_obj {fuel : ℕ} {style : Style} {depth : ℕ} {k : String} {rest after : List Char}
    {fields : List (String × Json)} (h : readFields fuel [] (quote k rest) = .ok (fields, after)) :
    readValue (fuel + 1) ('\x7b' :: (style.newline depth ++ quote k rest)) =
      .ok (.obj fields, after) := by
  have hskip : skipSpace (style.newline depth ++ quote k rest) = quote k rest :=
    skipSpace_newline style depth rfl _
  rw [quote] at h hskip ⊢
  simp only [readValue, hskip]
  split
  · next heq => exact absurd (List.cons.inj heq).1 (by decide)
  · rw [h]
    rfl

/-- A new key is added at the end. -/
theorem keyed_set_new {α : Type} {fields : List (String × α)} {k : String}
    (hk : k ∉ Keyed.names fields) (a : α) : Keyed.set k a fields = fields ++ [(k, a)] := by
  induction fields with
  | nil => rfl
  | cons f fields ih =>
    obtain ⟨l, b⟩ := f
    simp only [Keyed.names, List.map_cons, List.mem_cons, not_or] at hk
    have hne : ¬ (l == k) = true := by simpa using Ne.symm hk.1
    simp only [Keyed.set, if_neg hne, List.cons_append, ih hk.2]

/-- Of keys without repetition, each is new to those before it. -/
theorem new_of_nodup {α : Type} {before after : List (String × α)} {k : String} {a : α}
    (h : (Keyed.names (before ++ (k, a) :: after)).Nodup) : k ∉ Keyed.names before := by
  simp only [Keyed.names, List.map_append, List.map_cons] at h
  intro hk
  exact (List.nodup_append.mp h).2.2 k hk k (List.mem_cons_self ..) rfl

section Steps

variable {style : Style} {outer depth fuel : ℕ} {cs rest after : List Char} {a : Json}

/-- The last element of a list. -/
theorem readItems_last (h : readValue fuel cs = .ok (a, style.newline outer ++ ']' :: rest)) :
    readItems (fuel + 1) cs = .ok ([a], rest) := by
  have hskip := skipSpace_newline style outer (c := ']') rfl rest
  simp only [readItems, h, bind, Except.bind, hskip]

/-- An element of a list before another one. -/
theorem readItems_next {b : Json} {items : List Json}
    (h : readValue fuel cs = .ok (a, style.comma depth ++ chars style depth b after))
    (hitems : readItems fuel (chars style depth b after) = .ok (items, rest)) :
    readItems (fuel + 1) cs = .ok (a :: items, rest) := by
  obtain ⟨blanks, hcomma, hblanks⟩ := exists_comma style depth
  have hskip : skipSpace (',' :: (blanks ++ chars style depth b after)) =
      ',' :: (blanks ++ chars style depth b after) := rfl
  rw [hcomma, List.cons_append] at h
  simp only [readItems, h, bind, Except.bind, hskip, skipSpace_chars hblanks, hitems]

/-- The last field of an object. -/
theorem readFields_last {before : List (String × Json)} {k : String}
    (hk : k ∉ Keyed.names before)
    (h : readValue fuel (chars style depth a after) = .ok (a, style.newline outer ++ '\x7d' :: rest)) :
    readFields (fuel + 1) before (quote k (':' :: ' ' :: chars style depth a after)) =
      .ok (before ++ [(k, a)], rest) := by
  have hskip := skipSpace_newline style outer (c := '\x7d') rfl rest
  have hcolon : skipSpace (':' :: ' ' :: chars style depth a after) =
      ':' :: ' ' :: chars style depth a after := rfl
  have hblank : skipSpace (' ' :: chars style depth a after) = chars style depth a after :=
    skipSpace_chars (List.forall_mem_singleton.mpr rfl) style depth a after
  simp only [quote, readFields, readString_quote, bind, Except.bind, hcolon, hblank, h, hskip,
    keyed_set_new hk]

/-- A field of an object before another one. -/
theorem readFields_next {before fields : List (String × Json)} {k l : String} {more : List Char}
    (hk : k ∉ Keyed.names before)
    (h : readValue fuel (chars style depth a after) = .ok (a, style.comma depth ++ quote l more))
    (hfields : readFields fuel (before ++ [(k, a)]) (quote l more) = .ok (fields, rest)) :
    readFields (fuel + 1) before (quote k (':' :: ' ' :: chars style depth a after)) =
      .ok (fields, rest) := by
  obtain ⟨blanks, hcomma, hblanks⟩ := exists_comma style depth
  -- the blanks are those that the layout puts behind commas and colons
  have hskip : skipSpace (',' :: (blanks ++ quote l more)) = ',' :: (blanks ++ quote l more) := rfl
  have hquote : skipSpace (blanks ++ quote l more) = quote l more :=
    skipSpace_append hblanks (by simp [quote, isSpace])
  have hcolon : skipSpace (':' :: ' ' :: chars style depth a after) =
      ':' :: ' ' :: chars style depth a after := rfl
  have hblank : skipSpace (' ' :: chars style depth a after) = chars style depth a after :=
    skipSpace_chars (List.forall_mem_singleton.mpr rfl) style depth a after
  rw [hcomma, List.cons_append] at h
  rw [quote]
  simp only [readFields, readString_quote, bind, Except.bind, hcolon, hblank, h, hskip, hquote,
    keyed_set_new hk, hfields]

end Steps

mutual

/-- A legible value is read back in front of any text at which no number goes on. -/
theorem readValue_chars (style : Style) :
    ∀ (j : Json) (_ : Legible j) (depth fuel : ℕ) (rest : List Char), Ends rest →
      (chars style depth j rest).length ≤ fuel + 1 + rest.length →
      readValue (fuel + 1) (chars style depth j rest) = .ok (j, rest)
  | .null, _, _, _, _, _, _ => rfl
  | .bool b, _, _, _, _, _, _ => by cases b <;> rfl
  | .int n, hn, _, fuel, rest, hrest, _ => by
    -- the value is no longer than what the reader accepts
    obtain ⟨c, tail, hhead, hc⟩ := int_head n
    have hread := readAtom_int n hrest
    rw [if_neg (not_lt.mpr ((length_digits_le (by decide)).mpr hn)), hhead] at hread
    simp only [chars, hhead]
    exact (readValue_atom hc fuel).trans hread
  | .float x, _, _, fuel, rest, hrest, _ => by
    obtain ⟨c, tail, hhead, hc⟩ := float_head x
    have hread := readAtom_float x hrest
    rw [hhead] at hread
    simp only [chars, hhead]
    exact (readValue_atom hc fuel).trans hread
  | .str s, _, _, _, rest, _, _ => by
    simp only [chars, quote, readValue, readString_quote]
    rfl
  | .arr [], _, _, _, _, _, _ => rfl
  | .arr (a :: as), hj, depth, fuel, rest, _, hfuel => by
    refine readValue_arr (readItems_chars style (a :: as) hj a as rfl depth (depth + 1) fuel rest ?_)
    simp only [chars, List.length_cons, List.length_append] at hfuel
    omega
  | .obj [], _, _, _, _, _, _ => rfl
  | .obj ((k, a) :: as), hj, depth, fuel, rest, _, hfuel => by
    obtain ⟨hkeys, hfields⟩ := hj
    refine readValue_obj (readFields_chars style ((k, a) :: as) hfields k a as rfl [] hkeys depth
      (depth + 1) fuel rest ?_)
    simp only [chars, List.length_cons, List.length_append] at hfuel
    omega

/-- The elements of a list are read back up to its bracket. -/
theorem readItems_chars (style : Style) :
    ∀ (items : List Json) (_ : LegibleItems items) (a : Json) (as : List Json) (_ : items = a :: as)
      (outer depth fuel : ℕ) (rest : List Char),
      (chars style depth a (itemChars style depth as (style.newline outer ++ ']' :: rest))).length ≤
        fuel + rest.length →
      readItems fuel (chars style depth a
        (itemChars style depth as (style.newline outer ++ ']' :: rest))) = .ok (items, rest)
  | [a], ha, _, _, rfl, outer, depth, fuel, rest, hfuel => by
    have hlength := length_lt_chars style a depth (style.newline outer ++ ']' :: rest)
    simp only [itemChars, List.length_append, List.length_cons] at hfuel hlength
    obtain ⟨fuel, rfl⟩ : ∃ f, fuel = f + 2 := ⟨fuel - 2, by omega⟩
    refine readItems_last (readValue_chars style a ha.1 depth fuel (style.newline outer ++ ']' :: rest)
      (ends_newline style outer (by decide) rest) ?_)
    simp only [List.length_append, List.length_cons]
    omega
  | a :: b :: bs, ha, _, _, rfl, outer, depth, fuel, rest, hfuel => by
    have hlength := length_lt_chars style a depth
      (itemChars style depth (b :: bs) (style.newline outer ++ ']' :: rest))
    -- the fuel pays for each character, so it pays for what is left
    have hafter := length_lt_chars style b depth
      (itemChars style depth bs (style.newline outer ++ ']' :: rest))
    have hclose := (suffix_itemChars style bs depth (style.newline outer ++ ']' :: rest)).length_le
    obtain ⟨blanks, hcomma, -⟩ := exists_comma style depth
    simp only [itemChars, hcomma, List.length_append, List.length_cons] at hfuel hlength hafter hclose
    obtain ⟨fuel, rfl⟩ : ∃ f, fuel = f + 2 := ⟨fuel - 2, by omega⟩
    have hvalue := readValue_chars style a ha.1 depth fuel _
      (ends_comma style depth (chars style depth b
        (itemChars style depth bs (style.newline outer ++ ']' :: rest))))
      (by simp only [hcomma, List.length_append, List.length_cons]; omega)
    exact readItems_next hvalue
      (readItems_chars style (b :: bs) ha.2 b bs rfl outer depth (fuel + 1) rest (by omega))

/-- The fields of an object are read back up to its brace, after those already read. -/
theorem readFields_chars (style : Style) :
    ∀ (fields : List (String × Json)) (_ : LegibleFields fields) (k : String) (a : Json)
      (as : List (String × Json)) (_ : fields = (k, a) :: as) (before : List (String × Json))
      (_ : (Keyed.names (before ++ fields)).Nodup) (outer depth fuel : ℕ) (rest : List Char),
      (quote k (':' :: ' ' :: chars style depth a
        (fieldChars style depth as (style.newline outer ++ '\x7d' :: rest)))).length ≤
        fuel + rest.length →
      readFields fuel before (quote k (':' :: ' ' :: chars style depth a
        (fieldChars style depth as (style.newline outer ++ '\x7d' :: rest)))) =
          .ok (before ++ fields, rest)
  | [(k, a)], ha, _, _, _, rfl, before, hkeys, outer, depth, fuel, rest, hfuel => by
    have hquote := (suffix_quote k (':' :: ' ' :: chars style depth a
      (style.newline outer ++ '\x7d' :: rest))).length_le
    have hlength := length_lt_chars style a depth (style.newline outer ++ '\x7d' :: rest)
    simp only [fieldChars, List.length_append, List.length_cons] at hfuel hquote hlength
    obtain ⟨fuel, rfl⟩ : ∃ f, fuel = f + 2 := ⟨fuel - 2, by omega⟩
    refine readFields_last (new_of_nodup hkeys) (readValue_chars style a ha.1 depth fuel
      (style.newline outer ++ '\x7d' :: rest) (ends_newline style outer (by decide) rest) ?_)
    simp only [List.length_append, List.length_cons]
    omega
  | (k, a) :: (l, b) :: bs, ha, _, _, _, rfl, before, hkeys, outer, depth, fuel, rest, hfuel => by
    have hquote := (suffix_quote k (':' :: ' ' :: chars style depth a
      (fieldChars style depth ((l, b) :: bs) (style.newline outer ++ '\x7d' :: rest)))).length_le
    have hlength := length_lt_chars style a depth
      (fieldChars style depth ((l, b) :: bs) (style.newline outer ++ '\x7d' :: rest))
    have hafter := (suffix_quote l (':' :: ' ' :: chars style depth b
      (fieldChars style depth bs (style.newline outer ++ '\x7d' :: rest)))).length_le
    have hnext := length_lt_chars style b depth
      (fieldChars style depth bs (style.newline outer ++ '\x7d' :: rest))
    have hclose := (suffix_fieldChars style bs depth (style.newline outer ++ '\x7d' :: rest)).length_le
    obtain ⟨blanks, hcomma, -⟩ := exists_comma style depth
    simp only [fieldChars, hcomma, List.length_append, List.length_cons]
      at hfuel hquote hlength hafter hnext hclose
    obtain ⟨fuel, rfl⟩ : ∃ f, fuel = f + 2 := ⟨fuel - 2, by omega⟩
    have hvalue := readValue_chars style a ha.1 depth fuel _
      (ends_comma style depth (quote l (':' :: ' ' :: chars style depth b
        (fieldChars style depth bs (style.newline outer ++ '\x7d' :: rest)))))
      (by simp only [hcomma, List.length_append, List.length_cons]; omega)
    have hfields := readFields_chars style ((l, b) :: bs) ha.2 l b bs rfl (before ++ [(k, a)])
      (by rwa [List.append_assoc]) outer depth (fuel + 1) rest (by omega)
    rw [List.append_assoc] at hfields
    exact readFields_next (new_of_nodup hkeys) hvalue hfields

end

/-- **Reading undoes writing** for legible data, on one line or indented. -/
theorem read_write (style : Style) {j : Json} (hj : Legible j) : read (write style j) = .ok j := by
  have hskip : skipSpace (chars style 0 j []) = chars style 0 j [] :=
    skipSpace_chars (show ∀ c ∈ [], isSpace c = true by simp) style 0 j []
  have hvalue := readValue_chars style j hj 0 (chars style 0 j []).length [] (by simp [Ends])
    (by simp)
  simp only [read, write, String.toList_ofList, hskip, hvalue, bind, Except.bind]
  rfl

end NovaLang.Json
