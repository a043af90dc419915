import NovaLang.Proofs.Grammar.Denotes
import NovaLang.Proofs.Grammar.Lexing

namespace NovaLang.Grammar

open Token

/-! # Lines of lexemes

Every lexeme that a text is cut into lies on the lines of that text, and only quoted texts
run over several of them.
-/

/-! ## Line breaks -/

theorem lineBreaks_eq_zero {cs : List Char} : Text.lineBreaks cs = 0 ↔ ∀ c ∈ cs, c ≠ '\n' := by
  rw [Text.lineBreaks, List.count_eq_zero]
  constructor
  · rintro h c hc rfl
    exact h hc
  · intro h hmem
    exact h _ hmem rfl

theorem ne_of_isAlphanumeric {c : Char} (h : isAlphanumeric c = true) : c ≠ '\n' := by
  rintro rfl
  exact absurd h (by decide)

theorem ne_of_isDigit {c : Char} (h : isDigit c = true) : c ≠ '\n' := by
  rintro rfl
  exact absurd h (by decide)

/-- A run of characters none of which is a line break stays on one line. -/
theorem lineBreaks_takeWhile {p : Char → Bool} (hp : ∀ c, p c = true → c ≠ '\n') (cs : List Char) :
    Text.lineBreaks (cs.takeWhile p) = 0 :=
  lineBreaks_eq_zero.mpr fun c hc => hp c (List.mem_takeWhile_imp hc)

theorem lineBreaks_cons {c : Char} (hc : c ≠ '\n') (cs : List Char) :
    Text.lineBreaks (c :: cs) = Text.lineBreaks cs := by
  simp [Text.lineBreaks, hc]

/-- A number stays on its line, its point included. -/
theorem lineBreaks_numberTail (cs : List Char) : Text.lineBreaks (numberTail cs).1 = 0 := by
  have hdigits := lineBreaks_takeWhile (fun _ => ne_of_isDigit)
  unfold numberTail
  split
  · split
    · rw [Text.lineBreaks_append, hdigits, lineBreaks_cons (by decide), hdigits]
    · exact hdigits cs
  · exact hdigits cs

/-- So does a mark. -/
theorem Marked.plain {c : Char} {cs text rest : List Char} {k : Kind} (hc : c ≠ '\n')
    (h : Marked c cs k text rest) : Text.lineBreaks text = 0 := by
  cases h <;> simp [Text.lineBreaks, hc]

/-- Of the pieces that are tokens only quoted texts run over several lines. -/
theorem lineBreaks_of_kind {c : Char} {cs : List Char} {k : Kind} (hc : c ≠ '\n')
    (hk : Piece.kind? (nextPiece c cs).1 = some k) (hstring : k ≠ .string) :
    Text.lineBreaks (nextPiece c cs).1.text = 0 := by
  cases halpha : isAlpha c with
  | true =>
      rw [nextPiece_alpha halpha, lineBreaks_cons hc]
      exact lineBreaks_takeWhile (fun _ => ne_of_isAlphanumeric) cs
  | false =>
      cases hdigit : isDigit c with
      | true =>
          rw [nextPiece_digit hdigit, lineBreaks_cons hc]
          exact lineBreaks_numberTail cs
      | false =>
          -- only a string may run over several lines
          have hquote : c ≠ '"' := by
            rintro rfl
            have hshape : (nextPiece '"' cs).1.shape = (quotedTail cs).1 := rfl
            rw [Piece.kind?, hshape] at hk
            obtain h | h := shape_quotedTail cs <;> rw [h] at hk <;> cases hk
            exact hstring rfl
          exact (marked_of_shape (mark_of_kind halpha hdigit hquote hk)).plain hc

/-- A fixed text is taken from the front, and there is no line break in it. -/
theorem fixedAt_front {texts : List (String × Kind)} {kinds : List Kind} {cs text : List Char}
    {k : Kind} (htexts : ∀ e ∈ texts, Text.lineBreaks e.1.toList = 0)
    (h : fixedAt? texts kinds cs = some (k, text)) :
    text <+: cs ∧ (k ≠ .string → Text.lineBreaks text = 0) := by
  obtain ⟨w, hmem, -, rfl, hstart⟩ := fixedAt_eq_some h
  exact ⟨hstart, fun _ => htexts _ hmem⟩

/-- An accepted lexeme stands at the front, and only quoted texts run over several lines. -/
theorem lexemeAt_front {kinds : List Kind} {c : Char} {cs text : List Char} {k : Kind}
    (hc : c ≠ '\n') (h : lexemeAt? kinds (c :: cs) = some (k, text)) :
    text <+: c :: cs ∧ (k ≠ .string → Text.lineBreaks text = 0) := by
  rw [lexemeAt?] at h
  split at h
  · -- a word, if the parser asks for words, and else one of the fixed texts
    split at h
    · have hword := lineBreaks_takeWhile (fun _ => ne_of_isAlphanumeric) (c :: cs)
      rw [wordAt?] at h
      split at h
      · cases h
      · dsimp only at h
        split at h <;> cases h <;> exact ⟨List.takeWhile_prefix _, fun _ => hword⟩
    · exact fixedAt_front (by decide) h
  split at h
  · split at h
    · cases h
      -- a number
      refine ⟨⟨(numberTail cs).2, congrArg (c :: ·) (numberTail_append cs)⟩, fun _ => ?_⟩
      rw [lineBreaks_cons hc]
      exact lineBreaks_numberTail cs
    · cases h
  split at h
  · split at h
    · rename_i tail rest hquoted
      split at h
      · cases h
        -- a string, about whose lines nothing is said
        have happend := quotedTail_append cs
        rw [hquoted] at happend
        exact ⟨⟨rest, congrArg (c :: ·) happend⟩, fun hstring => absurd rfl hstring⟩
      · cases h
    · cases h
  · exact fixedAt_front (by decide) h

/-! ## Lines -/

/-- Skipping counts the line breaks that it passes. -/
theorem skip_lines (comment : Bool) (line : Int) (cs : List Char) :
    line ≤ (skip comment line cs).1 ∧
      (skip comment line cs).1 + Text.lineBreaks (skip comment line cs).2 =
        line + Text.lineBreaks cs := by
  induction cs generalizing comment line with
  | nil => cases comment <;> simp [skip]
  | cons c cs ih =>
      -- a line break ends a comment and is skipped outside of one: both times a line is counted
      have hnewline : ∀ line, line ≤ (skip false (line + 1) cs).1 ∧
          (skip false (line + 1) cs).1 + Text.lineBreaks (skip false (line + 1) cs).2 =
            line + Text.lineBreaks ('\n' :: cs) := by
        intro line
        have hbreak : Text.lineBreaks ('\n' :: cs) = Text.lineBreaks cs + 1 := by
          simp [Text.lineBreaks]
        have hrest := ih false (line + 1)
        omega
      cases comment with
      | true =>
          by_cases hc : c = '\n'
          · subst hc
            exact hnewline line
          · rw [skip, if_neg hc, lineBreaks_cons hc]
            exact ih true line
      | false =>
          by_cases hc : c = '\n'
          · subst hc
            exact hnewline line
          · rw [lineBreaks_cons hc, skip, if_neg hc]
            split
            · exact ih false line
            split
            · exact ih true line
            · rw [lineBreaks_cons hc]
              exact ⟨Int.le_refl _, rfl⟩

/-- What is skipped to is not a line break. -/
theorem ne_newline_of_skip {line start : Int} {c : Char} {cs cs' : List Char}
    (h : skip false line cs = (start, c :: cs')) : c ≠ '\n' := by
  rintro rfl
  have hblank : Piece.separates (nextPiece '\n' cs').1 = true := rfl
  rw [separates_of_skip h] at hblank
  cases hblank

/-- The lexeme lies between two lines, and only quoted texts run over several. -/
structure Lexeme.Within (first last : Int) (l : Lexeme) : Prop where
  plain : l.Plain
  above : first ≤ l.line
  below : l.line + Text.lineBreaks l.text ≤ last

/-- A lexeme stays within lines that start earlier. -/
theorem Lexeme.Within.mono {first first' last : Int} {l : Lexeme} (h : l.Within first last)
    (hle : first' ≤ first) : l.Within first' last :=
  ⟨h.plain, Int.le_trans hle h.above, h.below⟩

/-- The lexemes of a text are on the lines of that text. -/
theorem Spells.within {line : Int} {cs : List Char} {ls : List Lexeme} (h : Spells line cs ls) :
    ∀ l ∈ ls, l.Within line (line + Text.lineBreaks cs) := by
  induction h with
  | nil => nofun
  | @cons line start c cs cs' rest p k ls hskip hp hk _ ih =>
      obtain ⟨habove, hlines⟩ := skip_lines false line cs
      have happend := congrArg Text.lineBreaks (nextPiece_append c cs')
      rw [hskip] at habove hlines
      rw [hp, Text.lineBreaks_append] at happend
      dsimp only at habove hlines happend
      -- the last line is the same for the text and for the rest of it
      have hend : start + (Text.lineBreaks p.text : Int) + Text.lineBreaks rest =
          line + Text.lineBreaks cs := by omega
      refine List.forall_mem_cons.mpr ⟨⟨fun hstring => ?_, habove, ?_⟩, fun l hl => ?_⟩
      · have hplain := lineBreaks_of_kind (ne_newline_of_skip hskip) (by rwa [hp]) hstring
        rwa [hp] at hplain
      · dsimp only
        omega
      · rw [← hend]
        exact (ih l hl).mono (by omega)

/-- So are those of a cut, whatever kinds the parser asks for on the way. -/
theorem Cut.within {previous? : Option Kind} {line : Int} {cs : List Char} {ls : List Lexeme}
    (h : Cut previous? line cs ls) : ∀ l ∈ ls, l.Within line (line + Text.lineBreaks cs) := by
  induction h with
  | nil => nofun
  | @cons previous? kinds line cs rest l ls _ hnext _ ih =>
      obtain ⟨c, cs', hskip, hfront, hrest⟩ := nextLexeme_eq_lexeme hnext
      obtain ⟨habove, hlines⟩ := skip_lines false line cs
      obtain ⟨⟨rest', happend⟩, hplain⟩ := lexemeAt_front (ne_newline_of_skip hskip) hfront
      have hrest' : rest' = rest := by rw [← hrest, ← happend, List.drop_left]
      have hbreaks := congrArg Text.lineBreaks happend
      rw [hrest', Text.lineBreaks_append] at hbreaks
      rw [hskip] at habove hlines
      dsimp only at habove hlines
      -- the lines of a lexeme and those behind it add up to the lines of the text
      have hend : l.line + (Text.lineBreaks l.text : Int) + Text.lineBreaks rest =
          line + Text.lineBreaks cs := by omega
      refine List.forall_mem_cons.mpr ⟨⟨hplain, habove, by omega⟩, fun m hm => ?_⟩
      rw [← hend]
      exact (ih m hm).mono (by omega)

end NovaLang.Grammar
