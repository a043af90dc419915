import NovaLang.Proofs.LexicalGrammar

namespace NovaLang

/-! # Outlines

A printed text shows words, quoted texts and parentheses. Each of them ends where it is seen to end,
whatever characters there are between quotation marks, so the text has one outline.
-/

/-- What a printed text shows of a tree. -/
inductive Outline where
  | word (text : String)
  | quoted (text : String)
  /-- A head and some parts in parentheses. -/
  | group (head : String) (parts : List Outline)

namespace Outline

mutual

/-- The text of an outline. -/
def write : Outline → List Char
  | .word text => text.toList
  | .quoted text => '"' :: (text.toList ++ ['"'])
  | .group head parts => '(' :: (head.toList ++ (writeAll ' ' parts ++ [')']))

/-- The texts of some outlines, a separator in front of each. -/
def writeAll (separator : Char) : List Outline → List Char
  | [] => []
  | o :: os => separator :: (write o ++ writeAll separator os)

end

/-- The characters that do not stand in a word. -/
def delimiters : List Char := [' ', '\n', '(', ')', '"']

/-- The text is seen as one word. -/
structure IsWord (text : String) : Prop where
  nonempty : text ≠ ""
  plain : ∀ c ∈ text.toList, c ∉ delimiters

/-- Words are words, and quoted texts have no quotation marks in them. -/
inductive Proper : Outline → Prop where
  | word {text : String} : IsWord text → Proper (.word text)
  | quoted {text : String} : '"' ∉ text.toList → Proper (.quoted text)
  | group {head : String} {parts : List Outline} :
      IsWord head → (∀ o ∈ parts, Proper o) → Proper (.group head parts)

/-- What stands in front of this text has come to its end. -/
def Ends (rest : List Char) : Prop := ∀ c ∈ rest.head?, c ∈ [' ', '\n', ')']

theorem ends_nil : Ends [] := by simp [Ends]

theorem ends_cons {c : Char} (hc : c ∈ [' ', '\n', ')']) (cs : List Char) : Ends (c :: cs) :=
  fun _ hd => (Option.some.inj hd) ▸ hc

/-! ## Outlines of one text -/

section Unique

variable {rest rest' : List Char}

theorem word_unique {v w : String} (hv : IsWord v) (hw : IsWord w) (hrest : Ends rest)
    (hrest' : Ends rest') (h : v.toList ++ rest = w.toList ++ rest') : v = w ∧ rest = rest' := by
  have hspan {v : String} {rest : List Char} (hv : IsWord v) (hrest : Ends rest) :
      (v.toList ++ rest).takeWhile (fun c => decide (c ∉ delimiters)) = v.toList ∧
        (v.toList ++ rest).dropWhile (fun c => decide (c ∉ delimiters)) = rest := by
    refine Lexical.span_append (by simpa using hv.plain) rest fun c hc => ?_
    have hc := hrest c hc
    simp only [List.mem_cons, List.not_mem_nil, or_false] at hc
    rcases hc with rfl | rfl | rfl <;> rfl
  rcases hspan hv hrest with ⟨htake, hdrop⟩
  rcases hspan hw hrest' with ⟨htake', hdrop'⟩
  exact ⟨String.toList_inj.mp (by rw [← htake, h, htake']), by rw [← hdrop, h, hdrop']⟩

theorem quoted_unique {v w : String} (hv : '"' ∉ v.toList) (hw : '"' ∉ w.toList)
    (h : v.toList ++ '"' :: rest = w.toList ++ '"' :: rest') : v = w ∧ rest = rest' := by
  have hquote (rest : List Char) : ∀ c ∈ ('"' :: rest).head?, c = '"' :=
    fun _ hc => (Option.some.inj hc).symm
  rcases Lexical.span_of_notMem hv _ (hquote rest) with ⟨htake, hdrop⟩
  rcases Lexical.span_of_notMem hw _ (hquote rest') with ⟨htake', hdrop'⟩
  refine ⟨String.toList_inj.mp (by rw [← htake, h, htake']), ?_⟩
  rw [h] at hdrop
  exact (List.cons.inj (hdrop.symm.trans hdrop')).2

/-- A word does not begin as another outline does. -/
theorem IsWord.append_ne {v : String} (hv : IsWord v) {c : Char} (hc : c ∈ delimiters)
    (cs : List Char) : v.toList ++ rest ≠ c :: cs := by
  rcases htext : v.toList with _ | ⟨d, ds⟩
  · exact absurd (String.toList_eq_nil_iff.mp htext) hv.nonempty
  · intro h
    exact hv.plain d (htext ▸ List.mem_cons_self) ((List.cons.inj h).1 ▸ hc)

/-- In front of every text that ends it, no other outline begins with the text of this one. -/
def Unique (a : Outline) : Prop :=
  ∀ {b : Outline} {rest rest' : List Char}, b.Proper → Ends rest → Ends rest' →
    a.write ++ rest = b.write ++ rest' → a = b ∧ rest = rest'

/-- Outlines with separators in front of them end where no separator follows. -/
theorem writeAll_unique {separator : Char} (hseparator : separator ∈ [' ', '\n'])
    {as bs : List Outline} (has : ∀ a ∈ as, a.Unique) (hbs : ∀ b ∈ bs, b.Proper)
    (hrest : Ends rest) (hrest' : Ends rest') (hnot : separator ∉ rest.head?)
    (hnot' : separator ∉ rest'.head?)
    (h : writeAll separator as ++ rest = writeAll separator bs ++ rest') :
    as = bs ∧ rest = rest' := by
  have hends {os : List Outline} {rest : List Char} (hrest : Ends rest) :
      Ends (writeAll separator os ++ rest) := by
    cases os with
    | nil => exact hrest
    | cons o os => exact ends_cons (List.mem_append_left [')'] hseparator) _
  induction as generalizing bs with
  | nil =>
      cases bs with
      | nil => exact ⟨rfl, h⟩
      | cons b bs => exact absurd (congrArg List.head? h) fun heq => hnot (heq ▸ rfl)
  | cons a as ih =>
      cases bs with
      | nil => exact absurd (congrArg List.head? h) fun heq => hnot' (heq ▸ rfl)
      | cons b bs =>
          obtain ⟨ha, has'⟩ := List.forall_mem_cons.mp has
          obtain ⟨hb, hbs'⟩ := List.forall_mem_cons.mp hbs
          -- the others stand behind the first outline, and it is compared in front of them
          have htail : a.write ++ (writeAll separator as ++ rest) =
              b.write ++ (writeAll separator bs ++ rest') := by
            simpa [writeAll] using h
          rcases ha hb (hends hrest) (hends hrest') htail with ⟨rfl, hrests⟩
          rcases ih has' hbs' hrests with ⟨rfl, rfl⟩
          exact ⟨rfl, rfl⟩

/-- Where it ends, a text has one outline. -/
theorem Proper.unique {a : Outline} (ha : a.Proper) : a.Unique := by
  -- the first character tells the form of the other outline; its parts are arbitrary, so it is not
  -- in the induction
  induction ha with
  | word hv =>
      intro b rest rest' hb hrest hrest' h
      cases hb with
      | word hw =>
          rcases word_unique hv hw hrest hrest' h with ⟨rfl, rfl⟩
          exact ⟨rfl, rfl⟩
      | quoted | group => exact absurd h (hv.append_ne (by decide) _)
  | quoted hv =>
      intro b rest rest' hb hrest hrest' h
      cases hb with
      | word hw => exact absurd h.symm (hw.append_ne (by decide) _)
      | quoted hw =>
          rcases quoted_unique hv hw (by simpa [write] using h) with ⟨rfl, rfl⟩
          exact ⟨rfl, rfl⟩
      | group => exact absurd (List.cons.inj h).1 (by decide)
  | @group head parts hv _ ih =>
      intro b rest rest' hb hrest hrest' h
      cases hb with
      | word hw => exact absurd h.symm (hw.append_ne (by decide) _)
      | quoted => exact absurd (List.cons.inj h).1 (by decide)
      | @group head' parts' hw hparts' =>
          -- behind its head, a group goes on with a part or with its closing parenthesis
          have hends (os : List Outline) (rest : List Char) :
              Ends (writeAll ' ' os ++ ')' :: rest) := by
            cases os with
            | nil => exact ends_cons (by decide) _
            | cons o os => exact ends_cons (by decide) _
          have hbody : head.toList ++ (writeAll ' ' parts ++ ')' :: rest) =
              head'.toList ++ (writeAll ' ' parts' ++ ')' :: rest') := by
            simpa [write] using h
          rcases word_unique hv hw (hends _ _) (hends _ _) hbody with ⟨rfl, hparts⟩
          rcases writeAll_unique (by decide) ih hparts' (ends_cons (by decide) _)
            (ends_cons (by decide) _) (by simp) (by simp) hparts with ⟨rfl, hclosing⟩
          exact ⟨rfl, (List.cons.inj hclosing).2⟩

end Unique

/-! ## Lines -/

/-- The text of an outline, as a string. -/
def text (o : Outline) : String := String.ofList o.write

/-- The texts of some outlines, each on a line of its own. -/
def lines (os : List Outline) : String := "\n".intercalate (os.map text)

theorem toList_lines_cons (o : Outline) (os : List Outline) :
    (lines (o :: os)).toList = o.write ++ writeAll '\n' os := by
  rw [lines, String.toList_intercalate, List.map_map]
  induction os generalizing o with
  | nil => simp [text, writeAll]
  | cons p os ih =>
      rw [List.map_cons, List.intercalate_cons_of_ne_nil (by simp), ih p]
      simp [text, writeAll]

theorem Proper.write_ne_nil {o : Outline} (h : o.Proper) : o.write ≠ [] := by
  cases h with
  | word hv => exact fun hnil => hv.nonempty (String.toList_eq_nil_iff.mp hnil)
  | quoted | group => exact List.cons_ne_nil _ _

theorem lines_cons_ne {o : Outline} (ho : o.Proper) (os : List Outline) :
    lines (o :: os) ≠ lines [] := by
  intro h
  have hwrite := congrArg String.toList h
  rw [toList_lines_cons] at hwrite
  exact ho.write_ne_nil (List.append_eq_nil_iff.mp hwrite).1

/-- A text of several lines is that of one list of outlines, whatever line breaks there
are in quoted texts. -/
theorem lines_unique {as bs : List Outline} (has : ∀ a ∈ as, a.Proper) (hbs : ∀ b ∈ bs, b.Proper)
    (h : lines as = lines bs) : as = bs := by
  cases as with
  | nil =>
      cases bs with
      | nil => rfl
      | cons b bs => exact absurd h.symm (lines_cons_ne (hbs b List.mem_cons_self) bs)
  | cons a as =>
      cases bs with
      | nil => exact absurd h (lines_cons_ne (has a List.mem_cons_self) as)
      | cons b bs =>
          have hwrite : writeAll '\n' (a :: as) ++ [] = writeAll '\n' (b :: bs) ++ [] := by
            have hlines := congrArg String.toList h
            rw [toList_lines_cons, toList_lines_cons] at hlines
            simp [writeAll, hlines]
          exact (writeAll_unique (by decide) (fun a ha => (has a ha).unique) hbs ends_nil ends_nil
            (by simp) (by simp) hwrite).1

end Outline

end NovaLang
