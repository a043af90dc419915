import NovaLang.Proofs.Grammar.Lines
import NovaLang.Proofs.LexicalGrammar
import NovaLang.Text.Blank

namespace NovaLang

open Grammar Lexical Token

/-! # Blanks around texts

Only some of the characters that are trimmed off a line are blanks of the language. Each of the
others is an error where a text is scanned. The blanks of the language are passed over in
silence, by a scanner and by an automaton alike, and nothing is read in another way behind them.
-/

namespace Text

/-! ## Trimmed texts -/

variable {p : Char → Bool} {cs : List Char}

theorem getLast_trimWhere (p : Char → Bool) (cs : List Char) :
    ∀ c ∈ (trimWhere p cs).getLast?, p c = false := by
  intro c hc
  rw [trimWhere, List.getLast?_reverse] at hc
  have hhead := List.head?_dropWhile_not p (cs.dropWhile p).reverse
  rw [hc] at hhead
  simpa using hhead

theorem trimWhere_subset (p : Char → Bool) (cs : List Char) : trimWhere p cs ⊆ cs := by
  intro c hc
  rw [trimWhere, List.mem_reverse] at hc
  have hfront := (List.dropWhile_suffix p).subset hc
  rw [List.mem_reverse] at hfront
  exact (List.dropWhile_suffix p).subset hfront

/-- Where nothing of the class stands at the end, only the front is cut off. -/
theorem trimWhere_of_getLast (h : ∀ c ∈ cs.getLast?, p c = false) :
    trimWhere p cs = cs.dropWhile p := by
  rw [trimWhere]
  rcases List.eq_nil_or_concat (cs.dropWhile p) with hnil | ⟨us, c, hconcat⟩
  · rw [hnil]
    rfl
  · have hlast : c ∈ cs.getLast? := by
      rw [← List.takeWhile_append_dropWhile (p := p) (l := cs), hconcat, List.getLast?_append]
      simp
    have hc : ¬ p c = true := by rw [h c hlast]; exact Bool.false_ne_true
    rw [hconcat, List.concat_eq_append, List.reverse_concat, List.dropWhile_cons_of_neg hc,
      List.reverse_cons, List.reverse_reverse]

/-- No letter and no digit is blank. -/
theorem isBlank_of_isAlphanumeric {c : Char} (hc : Token.isAlphanumeric c = true) :
    isBlank c = false := by
  simp only [Token.isAlphanumeric, Token.isAlpha, Token.isDigit, Bool.or_eq_true, Bool.and_eq_true,
    decide_eq_true_eq, beq_iff_eq, Char.le_def, UInt32.le_iff_toNat_le] at hc
  have hrange : 48 ≤ c.toNat ∧ c.toNat < 128 := by
    rcases hc with ((⟨h, h'⟩ | ⟨h, h'⟩) | rfl) | ⟨h, h'⟩
    · exact ⟨Nat.le_trans (by decide) h, Nat.lt_of_le_of_lt h' (by decide)⟩
    · exact ⟨Nat.le_trans (by decide) h, Nat.lt_of_le_of_lt h' (by decide)⟩
    · decide
    · exact ⟨Nat.le_trans (by decide) h, Nat.lt_of_le_of_lt h' (by decide)⟩
  -- no range of blanks meets the codes from 48 to 127
  have hranges : ∀ r ∈ blankRanges, r.2 < 48 ∨ 128 ≤ r.1 := by decide
  rw [isBlank, Bool.eq_false_iff, Ne, inRanges_iff]
  rintro ⟨r, hr, hlow, hhigh⟩
  rcases hranges r hr with h | h <;> omega

end Text

/-! ## Blanks in front of a text -/

namespace Lexical

variable {b : Char} {bs cs : List Char}

/-- The errors that blanks on one line are scanned as: those that are not blanks of the language. -/
def strays (bs : List Char) : List Diagnostic :=
  (bs.filter (· ∉ blanks)).map fun _ => ⟨.line 1, .unexpectedCharacter⟩

theorem isBlank_of_mem_blanks : ∀ b ∈ blanks, Text.isBlank b = true := by
  simp [blanks, Text.isBlank, Text.inRanges, Text.blankRanges]

theorem strays_eq_nil : strays bs = [] ↔ ∀ b ∈ bs, b ∈ blanks := by
  simp [strays, List.filter_eq_nil_iff]

/-- A blank is a piece of its own, and an error unless it is one of the language. -/
theorem nextPiece_isBlank (hb : Text.isBlank b = true) (cs : List Char) :
    nextPiece b cs = (⟨if b ∈ blanks then .blank else .stray, [b]⟩, cs) := by
  by_cases hmem : b ∈ blanks
  · simp only [blanks, List.mem_cons, List.not_mem_nil, or_false] at hmem
    rcases hmem with rfl | rfl | rfl | rfl <;> rfl
  · have hleads : ∀ c ∈ leads, c ∈ blanks ∨ Text.isBlank c = false := by
      simp [leads, blanks, Text.isBlank, Text.inRanges, Text.blankRanges]
    have hlead : b ∉ leads := by
      intro hlead
      rcases hleads b hlead with h | h
      · exact hmem h
      · rw [hb] at h
        cases h
    have halnum : isAlphanumeric b = false := by
      rw [Bool.eq_false_iff]
      intro h
      rw [Text.isBlank_of_isAlphanumeric h] at hb
      cases hb
    simp only [isAlphanumeric, Bool.or_eq_false_iff] at halnum
    rw [nextPiece_of_notMem_leads hlead, if_neg (by simp [halnum.2]), if_neg (by simp [halnum.1]),
      if_neg hmem]

theorem scanned_blanks {ts : List Token} {ds : List Diagnostic}
    (hbs : ∀ b ∈ bs, Text.isBlank b = true ∧ b ≠ '\n') (h : Scanned 1 cs ts ds) :
    Scanned 1 (bs ++ cs) ts (strays bs ++ ds) := by
  induction bs with
  | nil => exact h
  | cons b bs ih =>
      rcases List.forall_mem_cons.mp hbs with ⟨⟨hb, hline⟩, hmore⟩
      have hbreaks : Text.lineBreaks [b] = 0 := by simp [Text.lineBreaks, hline]
      have hall := Scanned.cons_plain (nextPiece_isBlank hb (bs ++ cs)) hbreaks (ih hmore)
      by_cases hmem : b ∈ blanks
      · rw [if_pos hmem] at hall
        have hstrays : strays (b :: bs) = strays bs := by simp [strays, hmem]
        rw [hstrays]
        exact hall
      · rw [if_neg hmem] at hall
        have hstrays : strays (b :: bs) = ⟨.line 1, .unexpectedCharacter⟩ :: strays bs := by
          simp [strays, hmem]
        rw [hstrays]
        exact hall

end Lexical

namespace Grammar

/-! ## Blanks in front of what an automaton reads -/

/-- A lexeme has a character at least. -/
theorem nextLexeme_length {kinds : List Kind} {line : Int} {cs rest : List Char} {l : Lexeme}
    (h : nextLexeme kinds line cs = .lexeme l rest) : rest.length < cs.length := by
  obtain ⟨c, cs', hskip, hfront, hrest⟩ := nextLexeme_eq_lexeme h
  have htext : l.text ≠ [] := by
    cases reading_of_lexemeAt (separates_of_skip hskip) hfront with
    | piece _ htext => exact htext ▸ nextPiece_ne_nil c cs'
    | misnamed _ hname =>
        intro hnil
        rw [hnil] at hname
        exact hname rfl
    | cutOff hkeyword =>
        intro hnil
        rw [hnil] at hkeyword
        cases hkeyword
    | shortened _ htext => exact htext ▸ List.cons_ne_nil _ _
  have hlength := length_skip false line cs
  have hpos := List.length_pos_iff.mpr htext
  rw [hskip, List.length_cons] at hlength
  rw [← hrest, List.length_drop, List.length_cons]
  omega

/-- A count of lexemes that is large enough makes no difference. -/
theorem Automaton.read_count (a : Automaton) (last : Int) {count count' : Nat} {s : Stack}
    {line : Int} {cs : List Char} (hcount : cs.length < count) (hcount' : cs.length < count') :
    a.read last count s line cs = a.read last count' s line cs := by
  induction count generalizing count' s line cs with
  | zero => cases hcount
  | succ count ih =>
      obtain ⟨count', rfl⟩ : ∃ n, count' = n + 1 := ⟨count' - 1, by omega⟩
      rw [read, read]
      cases hnext : nextLexeme (a.accepted (Stack.state s)) line cs with
      | error line m => rfl
      | endOfInput => rfl
      | lexeme l rest =>
          have hlength := nextLexeme_length hnext
          dsimp only
          cases a.offer l.kind s.bound s with
          | shift s q => exact ih (by omega) (by omega)
          | done | refused => rfl

theorem skip_blanks {bs : List Char} (hbs : ∀ b ∈ bs, b ∈ blanks ∧ b ≠ '\n') (line : Int)
    (cs : List Char) : skip false line (bs ++ cs) = skip false line cs := by
  induction bs with
  | nil => rfl
  | cons b bs ih =>
      rcases List.forall_mem_cons.mp hbs with ⟨⟨hb, hline⟩, hmore⟩
      rw [List.cons_append, skip, if_neg hline, if_pos, ih hmore]
      simp only [blanks, List.mem_cons, List.not_mem_nil, or_false] at hb
      rcases hb with rfl | rfl | rfl | rfl
      · rfl
      · rfl
      · rfl
      · exact absurd rfl hline

/-- Blanks of the language make no difference in front of anything. -/
theorem Automaton.read_blanks (a : Automaton) (last : Int) {bs : List Char}
    (hbs : ∀ b ∈ bs, b ∈ blanks ∧ b ≠ '\n') {count : Nat} {s : Stack} {line : Int}
    {cs : List Char} (hcount : (bs ++ cs).length < count) :
    a.read last count s line (bs ++ cs) = a.read last (cs.length + 1) s line cs := by
  rw [List.length_append] at hcount
  rw [← a.read_count last (show cs.length < count by omega) (Nat.lt_succ_self _)]
  obtain ⟨count, rfl⟩ : ∃ n, count = n + 1 := ⟨count - 1, by omega⟩
  have hnext : nextLexeme (a.accepted (Stack.state s)) line (bs ++ cs) =
      nextLexeme (a.accepted (Stack.state s)) line cs := by
    rw [nextLexeme, skip_blanks hbs, nextLexeme]
  rw [read, read, hnext]

end Grammar

end NovaLang
