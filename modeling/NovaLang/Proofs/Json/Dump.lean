import NovaLang.Proofs.Json.RoundTrip

namespace NovaLang.Json

open Decimal

/-! # What can be written

Data can be written exactly if no whole number in it has too many digits. Then the pieces written
one after another are its text, and that text can be read again.
-/

mutual

/-- No whole number has more digits than it may have in a text. -/
def Short : Json → Prop
  | .int n => n.natAbs < 10 ^ maxDigits
  | .arr items => ShortItems items
  | .obj fields => ShortFields fields
  | _ => True

/-- No whole number of the elements has too many digits. -/
def ShortItems : List Json → Prop
  | [] => True
  | a :: as => Short a ∧ ShortItems as

/-- No whole number of the fields has too many digits. -/
def ShortFields : List (String × Json) → Prop
  | [] => True
  | (_, a) :: as => Short a ∧ ShortFields as

end

mutual

/-- What can be read back from its text has one. -/
theorem Legible.short : ∀ {j : Json}, Legible j → Short j
  | .null, _ | .bool _, _ | .float _, _ | .str _, _ => trivial
  | .int _, h => h
  | .arr _, h => LegibleItems.short h
  | .obj _, h => LegibleFields.short h.2

/-- The same for items ... -/
theorem LegibleItems.short : ∀ {items : List Json}, LegibleItems items → ShortItems items
  | [], _ => trivial
  | _ :: _, ⟨ha, has⟩ => ⟨ha.short, LegibleItems.short has⟩

/-- ... and fields. -/
theorem LegibleFields.short :
    ∀ {fields : List (String × Json)}, LegibleFields fields → ShortFields fields
  | [], _ => trivial
  | _ :: _, ⟨ha, has⟩ => ⟨ha.short, LegibleFields.short has⟩

end

/-! ## Pieces -/

namespace Written

/-- The writing went well, and in front of the rest stands what is told. -/
def Leaves (w : Written) (rest text : List Char) : Prop :=
  w.outcome = .ok () ∧ w.text ++ rest = text

/-- A piece of text leaves what is in front of it. -/
theorem leaves_piece {piece rest text : List Char} (h : piece ++ rest = text) :
    (Written.piece piece).Leaves rest text := ⟨rfl, h⟩

/-- A piece is followed by what comes after it. -/
theorem Leaves.next {w more : Written} {rest middle text : List Char} (h : w.Leaves middle text)
    (hmore : more.Leaves rest middle) : (w.next more).Leaves rest text := by
  obtain ⟨hok, rfl⟩ := h
  obtain ⟨hmoreOk, rfl⟩ := hmore
  rw [Written.next, hok]
  exact ⟨hmoreOk, List.append_assoc ..⟩

@[simp] theorem outcome_next_piece (text : List Char) (more : Written) :
    ((piece text).next more).outcome = more.outcome := rfl

/-- After a refusal nothing is written any more. -/
theorem next_of_refused {w : Written} {e : Error} (h : w.outcome = .error e) (more : Written) :
    (w.next more).outcome = .error e := by
  rw [Written.next, h]
  exact h

/-- What is written in full does not change how the rest ends. -/
theorem Leaves.outcome_next {w more : Written} {rest text : List Char} (h : w.Leaves rest text) :
    (w.next more).outcome = more.outcome := by
  rw [Written.next, h.1]

end Written

open Written

mutual

/-- What has a text is written as that text. -/
theorem leaves_writing (style : Style) : ∀ (j : Json) (depth : ℕ) (front rest : List Char),
    Short j → (writing style depth front j).Leaves rest (front ++ chars style depth j rest)
  | .null, _, front, rest, _ | .bool _, _, front, rest, _ | .float _, _, front, rest, _
  | .str _, _, front, rest, _ | .arr [], _, front, rest, _ | .obj [], _, front, rest, _ => by
    simp only [writing]
    exact leaves_piece (by simp [chars, quote])
  | .int n, depth, front, rest, h => by
    have hdigits : ¬ maxDigits < (digits n.natAbs).length :=
      not_lt.mpr ((length_digits_le (by decide)).mpr h)
    rw [writing, if_neg hdigits]
    exact leaves_piece (by rw [chars, List.append_assoc])
  | .arr (a :: as), depth, front, rest, ⟨ha, has⟩ => by
    -- from the closing bracket to the front: each part leaves what is behind it
    have hclose := leaves_piece (List.append_assoc (style.newline depth) [']'] rest)
    have hitems := (leaves_writingItems style as (depth + 1) _ has).next hclose
    have hfirst := (leaves_writing style a (depth + 1) ('[' :: style.newline (depth + 1)) _ ha).next
      hitems
    rw [writing, chars]
    exact (leaves_piece rfl).next hfirst
  | .obj ((k, a) :: as), depth, front, rest, ⟨ha, has⟩ => by
    have hclose := leaves_piece (List.append_assoc (style.newline depth) ['\x7d'] rest)
    have hfields := (leaves_writingFields style as (depth + 1) _ has).next hclose
    have hvalue := (leaves_writing style a (depth + 1) [] _ ha).next hfields
    rw [writing, chars]
    exact (leaves_piece (by simp [quote])).next hvalue

/-- The same for the items of an array ... -/
theorem leaves_writingItems (style : Style) : ∀ (items : List Json) (depth : ℕ) (rest : List Char),
    ShortItems items → (writingItems style depth items).Leaves rest (itemChars style depth items rest)
  | [], _, _, _ => leaves_piece rfl
  | a :: as, depth, rest, ⟨ha, has⟩ =>
    (leaves_writing style a depth (style.comma depth) _ ha).next
      (leaves_writingItems style as depth rest has)

/-- ... and the fields of an object. -/
theorem leaves_writingFields (style : Style) : ∀ (fields : List (String × Json)) (depth : ℕ)
    (rest : List Char), ShortFields fields →
    (writingFields style depth fields).Leaves rest (fieldChars style depth fields rest)
  | [], _, _, _ => leaves_piece rfl
  | (k, a) :: as, depth, rest, ⟨ha, has⟩ => by
    have hvalue := (leaves_writing style a depth [] _ ha).next
      (leaves_writingFields style as depth rest has)
    rw [writingFields, fieldChars]
    exact (leaves_piece (by simp [quote])).next hvalue

end

mutual

/-- What has no text is refused. -/
theorem refused_writing (style : Style) : ∀ (j : Json) (depth : ℕ) (front : List Char),
    ¬ Short j → (writing style depth front j).outcome = .error (.tooManyDigits none)
  | .null, _, _, h | .bool _, _, _, h | .float _, _, _, h | .str _, _, _, h | .arr [], _, _, h
  | .obj [], _, _, h => absurd trivial h
  | .int n, depth, front, h => by
    have hdigits : maxDigits < (digits n.natAbs).length :=
      not_le.mp fun hle => h ((length_digits_le (by decide)).mp hle)
    rw [writing, if_pos hdigits]
    rfl
  | .arr (a :: as), depth, front, h => by
    rw [writing, outcome_next_piece]
    -- the first long number is in the first part or in the others
    by_cases ha : Short a
    · rw [(leaves_writing style a (depth + 1) _ [] ha).outcome_next]
      exact next_of_refused (refused_writingItems style as (depth + 1) fun has => h ⟨ha, has⟩) _
    · exact next_of_refused (refused_writing style a (depth + 1) _ ha) _
  | .obj ((k, a) :: as), depth, front, h => by
    rw [writing, outcome_next_piece]
    by_cases ha : Short a
    · rw [(leaves_writing style a (depth + 1) _ [] ha).outcome_next]
      exact next_of_refused (refused_writingFields style as (depth + 1) fun has => h ⟨ha, has⟩) _
    · exact next_of_refused (refused_writing style a (depth + 1) _ ha) _

/-- The same for the items of an array ... -/
theorem refused_writingItems (style : Style) : ∀ (items : List Json) (depth : ℕ),
    ¬ ShortItems items → (writingItems style depth items).outcome = .error (.tooManyDigits none)
  | [], _, h => absurd trivial h
  | a :: as, depth, h => by
    rw [writingItems]
    by_cases ha : Short a
    · rw [(leaves_writing style a depth _ [] ha).outcome_next]
      exact refused_writingItems style as depth fun has => h ⟨ha, has⟩
    · exact next_of_refused (refused_writing style a depth _ ha) _

/-- ... and the fields of an object. -/
theorem refused_writingFields (style : Style) : ∀ (fields : List (String × Json)) (depth : ℕ),
    ¬ ShortFields fields → (writingFields style depth fields).outcome = .error (.tooManyDigits none)
  | [], _, h => absurd trivial h
  | (k, a) :: as, depth, h => by
    rw [writingFields, outcome_next_piece]
    by_cases ha : Short a
    · rw [(leaves_writing style a depth _ [] ha).outcome_next]
      exact refused_writingFields style as depth fun has => h ⟨ha, has⟩
    · exact next_of_refused (refused_writing style a depth _ ha) _

end

/-! ## Whole texts -/

variable {j : Json}

/-- Short data is written as its text. -/
theorem writing_of_short (style : Style) (h : Short j) :
    (writing style 0 [] j).outcome = .ok () ∧
      String.ofList (writing style 0 [] j).text = write style j := by
  obtain ⟨hok, htext⟩ := leaves_writing style j 0 [] [] h
  rw [List.append_nil] at htext
  exact ⟨hok, by rw [htext, List.nil_append, write]⟩

/-- Without long numbers, the text is that of the writer. -/
theorem dump_of_short (style : Style) (h : Short j) : dump style j = .ok (write style j) := by
  obtain ⟨hok, htext⟩ := writing_of_short style h
  simp only [dump, hok, htext, Except.map]

end NovaLang.Json
