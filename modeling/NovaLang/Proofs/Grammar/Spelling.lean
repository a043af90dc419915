import Mathlib
import NovaLang.Grammar.Read
import NovaLang.Proofs.Scanning

namespace NovaLang.Grammar

open Token

/-! # Lexemes that a scanner finds

A scanner's tokens as lexemes: each is the piece that stands where blanks and comments
have been skipped. A token carries the line at its end, a lexeme the one at its
beginning.
-/

/-! ## Pieces by their first character -/

/-- The characters that marks, blanks, comments and quoted texts begin with. -/
def leads : List Char :=
  ['(', ')', '\x7b', '\x7d', ',', '.', '-', '+', ';', '*', '!', '=', '<', '>', '/', ' ', '\r',
    '\t', '\n', '"']

/-- A character that leads no mark, comment, blank or string starts a number, a word, or
nothing. -/
theorem nextPiece_of_notMem_leads {c : Char} (hc : c ∉ leads) (cs : List Char) :
    nextPiece c cs =
      if isDigit c then (⟨.number, c :: (numberTail cs).1⟩, (numberTail cs).2)
      else if isAlpha c then (⟨.word, c :: (wordTail cs).1⟩, (wordTail cs).2)
      else (⟨.stray, [c]⟩, cs) := by
  simp only [leads, List.mem_cons, List.not_mem_nil, not_or] at hc
  simp [nextPiece, soleMark?, pairedMark?, hc]

/-- No digit is a letter. -/
theorem not_isAlpha_of_isDigit {c : Char} (hc : isDigit c = true) : isAlpha c = false := by
  simp only [isDigit, Bool.and_eq_true, decide_eq_true_eq] at hc
  have hlower : ¬ 'a' ≤ c := fun h => absurd (Char.le_trans h hc.2) (by decide)
  have hupper : ¬ 'A' ≤ c := fun h => absurd (Char.le_trans h hc.2) (by decide)
  have hunderscore : c ≠ '_' := by
    rintro rfl
    exact absurd hc.2 (by decide)
  simp [isAlpha, hlower, hupper, hunderscore]

/-- No letter or digit leads anything else. -/
theorem notMem_leads_of_isAlphanumeric {c : Char} (hc : isAlphanumeric c = true) : c ∉ leads := by
  have hleads : leads.all (!isAlphanumeric ·) = true := by decide
  intro hmem
  have hnot := List.all_eq_true.mp hleads c hmem
  simp [hc] at hnot

/-- A letter starts a word. -/
theorem nextPiece_alpha {c : Char} (hc : isAlpha c = true) (cs : List Char) :
    nextPiece c cs = (⟨.word, c :: (wordTail cs).1⟩, (wordTail cs).2) := by
  have hdigit : isDigit c = false := by
    cases h : isDigit c with
    | false => rfl
    | true => exact absurd hc (by rw [not_isAlpha_of_isDigit h]; decide)
  rw [nextPiece_of_notMem_leads (notMem_leads_of_isAlphanumeric (by simp [isAlphanumeric, hc])), hc,
    hdigit]
  rfl

/-- A digit starts a number. -/
theorem nextPiece_digit {c : Char} (hc : isDigit c = true) (cs : List Char) :
    nextPiece c cs = (⟨.number, c :: (numberTail cs).1⟩, (numberTail cs).2) := by
  rw [nextPiece_of_notMem_leads (notMem_leads_of_isAlphanumeric (by simp [isAlphanumeric, hc])), hc]
  rfl

/-! ## Skipping -/

/-- The piece separates others and is no token. -/
def Piece.separates (p : Piece) : Bool :=
  match p.shape with
  | .blank | .comment => true
  | _ => false

/-- Skipping inside of a comment goes on behind it. -/
theorem skip_comment (line : Int) (cs : List Char) :
    skip true line cs = skip false line (commentTail cs).2 := by
  induction cs generalizing line with
  | nil => rfl
  | cons c cs ih =>
      by_cases hc : c = '\n'
      · subst hc
        rfl
      · have hbreak : (commentTail (c :: cs)).2 = (commentTail cs).2 := by
          simp [commentTail, hc]
        rw [hbreak, ← ih, skip, if_neg hc]

theorem lineBreaks_commentTail (cs : List Char) : Text.lineBreaks (commentTail cs).1 = 0 := by
  rw [Text.lineBreaks, List.count_eq_zero]
  intro hmem
  have := List.mem_takeWhile_imp hmem
  simp at this

/-- Nothing else is skipped. -/
theorem skip_of_ne {line : Int} {c : Char} {cs : List Char} (hline : c ≠ '\n') (hspace : c ≠ ' ')
    (htab : c ≠ '\t') (hreturn : c ≠ '\r') (hslash : ¬(c = '/' ∧ cs.head? = some '/')) :
    skip false line (c :: cs) = (line, c :: cs) := by
  simp [skip, hline, hspace, htab, hreturn, hslash]

/-- A separating piece is skipped, and nothing else is. -/
theorem skip_nextPiece (line : Int) (c : Char) (cs : List Char) :
    skip false line (c :: cs) =
      if Piece.separates (nextPiece c cs).1 then
        skip false (line + Text.lineBreaks (nextPiece c cs).1.text) (nextPiece c cs).2
      else (line, c :: cs) := by
  -- by what the character can begin: only a blank and a comment are passed
  unfold nextPiece
  split
  · rename_i k hk
    have hne : ∀ d, soleMark? d = none → c ≠ d := by
      rintro d hd rfl
      rw [hk] at hd
      cases hd
    exact skip_of_ne (hne _ rfl) (hne _ rfl) (hne _ rfl) (hne _ rfl) fun h => hne _ rfl h.1
  split
  · rename_i _ _ _ hk
    have hne : ∀ d, pairedMark? d = none → c ≠ d := by
      rintro d hd rfl
      rw [hk] at hd
      cases hd
    rw [skip_of_ne (hne _ rfl) (hne _ rfl) (hne _ rfl) (hne _ rfl) fun h => hne _ rfl h.1]
    split <;> rfl
  split
  · rename_i hc
    subst hc
    split
    · rename_i rest
      have hbreaks : Text.lineBreaks ('/' :: '/' :: (commentTail rest).1) = 0 :=
        lineBreaks_commentTail rest
      have hskip : skip false line ('/' :: '/' :: rest) = skip true line rest := rfl
      rw [hskip, skip_comment]
      simp [Piece.separates, hbreaks]
    · rename_i hnot
      refine skip_of_ne (by decide) (by decide) (by decide) (by decide) fun h => ?_
      obtain ⟨rest, rfl⟩ := List.head?_eq_some_iff.mp h.2
      exact hnot rest rfl
  split
  · rename_i hc
    simp only [Bool.or_eq_true, decide_eq_true_eq, or_assoc] at hc
    obtain rfl | rfl | rfl | rfl := hc <;> simp [skip, Piece.separates, Text.lineBreaks]
  rename_i hslash hblank
  simp only [Bool.or_eq_true, decide_eq_true_eq, not_or] at hblank
  obtain ⟨⟨⟨hspace, hreturn⟩, htab⟩, hline⟩ := hblank
  rw [skip_of_ne hline hspace htab hreturn fun h => hslash h.1]
  split
  · obtain h | h := shape_quotedTail cs <;> simp [Piece.separates, h]
  split
  · rfl
  split <;> rfl

/-- A piece that separates is skipped, with the lines that it takes up. -/
theorem skip_separates {c : Char} {cs rest : List Char} {p : Piece}
    (hp : nextPiece c cs = (p, rest)) (h : Piece.separates p = true) (line : Int) :
    skip false line (c :: cs) = skip false (line + Text.lineBreaks p.text) rest := by
  rw [skip_nextPiece, hp, if_pos h]

/-- Any other piece is where skipping stops. -/
theorem skip_not_separates {c : Char} {cs rest : List Char} {p : Piece}
    (hp : nextPiece c cs = (p, rest)) (h : Piece.separates p = false) (line : Int) :
    skip false line (c :: cs) = (line, c :: cs) := by
  rw [skip_nextPiece, hp, if_neg (by simp [h])]

/-- What is left after skipping does not depend on the line. -/
theorem skip_line (comment : Bool) (line line' : Int) (cs : List Char) :
    (skip comment line cs).2 = (skip comment line' cs).2 := by
  induction cs generalizing comment line line' with
  | nil => cases comment <;> rfl
  | cons c cs ih =>
      cases comment <;>
      · simp only [skip]
        repeat' split
        all_goals first | exact ih _ _ _ | rfl

/-- Skipping leaves no more than there was. -/
theorem length_skip (comment : Bool) (line : Int) (cs : List Char) :
    (skip comment line cs).2.length ≤ cs.length := by
  induction cs generalizing comment line with
  | nil => cases comment <;> exact Nat.le_refl _
  | cons c cs ih =>
      cases comment <;>
      · simp only [skip]
        repeat' split
        all_goals first | exact Nat.le_succ_of_le (ih _ _) | exact Nat.le_refl _

/-- Where skipping stops, nothing separating stands. -/
theorem separates_of_skip {line start : Int} {c : Char} {cs cs' : List Char}
    (h : skip false line cs = (start, c :: cs')) : Piece.separates (nextPiece c cs').1 = false := by
  generalize hn : cs.length = n
  induction n using Nat.strongRecOn generalizing line cs with
  | ind n ih =>
      cases cs with
      | nil => cases h
      | cons d ds =>
          cases hseparates : Piece.separates (nextPiece d ds).1 with
          | true =>
              -- the piece is skipped, and skipping goes on in what is left, which is shorter
              rw [skip_separates rfl hseparates] at h
              have hlength := length_nextPiece d ds
              rw [List.length_cons] at hn
              exact ih (nextPiece d ds).2.length (by omega) h rfl
          | false =>
              rw [skip_not_separates rfl hseparates] at h
              cases h
              exact hseparates

/-! ## Tokens as lexemes -/

/-- The kind of token a piece is, if it is one. -/
def Piece.kind? (p : Piece) : Option Kind :=
  match p.shape with
  | .mark kind => some kind
  | .word => some (Kind.ofWord (String.ofList p.text))
  | .number => some .number
  | .quoted => some .string
  | .unclosed | .comment | .blank | .stray => none

/-- The literal of a scanner's token for a lexeme. -/
def Lexeme.literal (l : Lexeme) : Value :=
  match l.kind with
  | .number | .string => l.value
  | _ => .nil

/-- The token of a scanner for a lexeme. -/
def Lexeme.scanned (l : Lexeme) : Token :=
  .scanned l.kind l.string l.literal (l.line + Text.lineBreaks l.text)

/-- The text that begins on a line is cut by a scanner into these lexemes, and nothing is
wrong with it. -/
inductive Spells : Int → List Char → List Lexeme → Prop where
  | nil {line : Int} {cs : List Char} : (skip false line cs).2 = [] → Spells line cs []
  | cons {line start : Int} {c : Char} {cs cs' rest : List Char} {p : Piece} {k : Kind}
      {ls : List Lexeme} :
      skip false line cs = (start, c :: cs') → nextPiece c cs' = (p, rest) → Piece.kind? p = some k →
      Spells (start + Text.lineBreaks p.text) rest ls →
      Spells line cs (⟨k, p.text, start⟩ :: ls)

/-- What a text spells depends only on what is left when its front has been skipped. -/
theorem Spells.of_skip {line line' : Int} {cs cs' : List Char} {ls : List Lexeme}
    (h : Spells line' cs' ls) (hskip : skip false line cs = skip false line' cs') :
    Spells line cs ls := by
  cases h with
  | nil hend => exact .nil (hskip ▸ hend)
  | cons hstart hp hk hrest => exact .cons (hskip.trans hstart) hp hk hrest

/-- The kinds that marks can have. -/
def markKinds : List Kind := .dot :: marks.map (·.2)

theorem soleMark_mem {c : Char} {k : Kind} (h : soleMark? c = some k) : k ∈ markKinds := by
  unfold soleMark? at h
  repeat' split at h
  all_goals cases h
  all_goals decide

theorem pairedMark_mem {c : Char} {k l : Kind} (h : pairedMark? c = some (k, l)) :
    k ∈ markKinds ∧ l ∈ markKinds := by
  unfold pairedMark? at h
  repeat' split at h
  all_goals cases h
  all_goals decide

/-- How a mark stands at the front of a text. -/
inductive Marked (c : Char) (cs : List Char) : Kind → List Char → List Char → Prop where
  | sole {k : Kind} : soleMark? c = some k → Marked c cs k [c] cs
  | extended {k l : Kind} {rest : List Char} :
      pairedMark? c = some (k, l) → cs = '=' :: rest → Marked c cs k [c, '='] rest
  | alone {k l : Kind} : pairedMark? c = some (l, k) → ¬['='] <+: cs → Marked c cs k [c] cs
  | slash : c = '/' → Marked c cs .slash [c] cs

/-- A piece that is scanned as a mark is one of the marks. -/
theorem marked_of_shape {c : Char} {cs : List Char} {k : Kind}
    (h : (nextPiece c cs).1.shape = .mark k) :
    Marked c cs k (nextPiece c cs).1.text (nextPiece c cs).2 := by
  revert h
  unfold nextPiece
  -- the branches of the scanner in turn: all but the first three yield another shape
  split
  · rename_i hk
    rintro ⟨⟩
    exact .sole hk
  split
  · rename_i hk
    split
    · rintro ⟨⟩
      exact .extended hk rfl
    · rename_i hequal
      rintro ⟨⟩
      exact .alone hk fun ⟨ds, hds⟩ => hequal ds hds.symm
  split
  · rename_i hc
    split
    · rintro ⟨⟩
    · rintro ⟨⟩
      exact .slash hc
  split
  · rintro ⟨⟩
  split
  · obtain h | h := shape_quotedTail cs <;> simp [h]
  split
  · rintro ⟨⟩
  split <;> rintro ⟨⟩

theorem Marked.mem {c : Char} {cs text rest : List Char} {k : Kind}
    (h : Marked c cs k text rest) : k ∈ markKinds := by
  cases h with
  | sole hk => exact soleMark_mem hk
  | extended hk => exact (pairedMark_mem hk).1
  | alone hk => exact (pairedMark_mem hk).2
  | slash => decide

/-- A word is an identifier or one of the keywords. -/
theorem ofWord_mem (w : String) :
    Kind.ofWord w = .identifier ∨ Kind.ofWord w ∈ Kind.keywords.map (·.2) := by
  rw [Kind.ofWord, Kind.keyword?]
  cases h : Kind.keywords.find? fun k => k.1 == w with
  | none => exact .inl rfl
  | some e => exact .inr (List.mem_map_of_mem (List.mem_of_find?_eq_some h))

/-- No piece is the end of the input. -/
theorem kind_ne_eof {c : Char} {cs : List Char} {k : Kind}
    (hk : Piece.kind? (nextPiece c cs).1 = some k) : k ≠ .eof := by
  have hmark := @marked_of_shape c cs
  generalize (nextPiece c cs).1 = p at hk hmark
  obtain ⟨shape, text⟩ := p
  -- neither marks nor keywords are of the kind that ends the tokens
  cases shape with
  | mark kind =>
      cases hk
      rintro rfl
      exact absurd (hmark rfl).mem (by decide)
  | word =>
      cases hk
      obtain h | h := ofWord_mem (String.ofList text) <;> rintro heof
      · exact absurd (h.symm.trans heof) (by decide)
      · exact absurd (heof ▸ h) (by decide)
  | number | quoted =>
      cases hk
      decide
  | unclosed | comment | blank | stray => cases hk

/-- A piece with a token has the kind of the token. -/
theorem kind_of_token {p : Piece} {line : Int} {t : Token} (h : p.token? line = some t) :
    Piece.kind? p = some t.kind := by
  obtain ⟨shape, text⟩ := p
  cases shape with
  | mark | word | number | quoted =>
      cases h
      rfl
  | unclosed | comment | blank | stray => cases h

/-- A scanner finds no end token in a text; it adds one behind the last token. -/
theorem kind_ne_eof_of_scanned {line : Int} {cs : List Char} {ts : List Token}
    {ds : List Diagnostic} (h : Scanned line cs ts ds) : ∀ t ∈ ts, t.kind ≠ .eof := by
  induction h with
  | nil => nofun
  | @cons line c cs rest p ts ds hp _ ih =>
      intro t ht
      obtain ht | ht := List.mem_append.mp ht
      · have hkind := kind_of_token (Option.mem_toList.mp ht)
        exact @kind_ne_eof c cs _ (by rwa [hp])
      · exact ih t ht

/-- Only numbers and strings have a literal. -/
theorem literal_of_notMem {k : Kind} (hnumber : k ≠ .number) (hstring : k ≠ .string)
    (text : List Char) (line : Int) : Lexeme.literal ⟨k, text, line⟩ = .nil := by
  unfold Lexeme.literal
  split <;> first | contradiction | rfl

/-- The token of a piece is that of the lexeme with its kind and text, at the line where it
starts. -/
theorem token_of_kind {c : Char} {cs rest : List Char} {p : Piece} {k : Kind}
    (hp : nextPiece c cs = (p, rest)) (hk : Piece.kind? p = some k) (start : Int) :
    p.token? (start + Text.lineBreaks p.text) = some (Lexeme.scanned ⟨k, p.text, start⟩) := by
  have hmark := @marked_of_shape c cs
  rw [hp] at hmark
  have hmarks : ∀ k ∈ markKinds, k ≠ .number ∧ k ≠ .string := by decide
  have hkeywords : ∀ k ∈ Kind.keywords.map (·.2), k ≠ .number ∧ k ≠ .string := by decide
  obtain ⟨shape, text⟩ := p
  cases shape with
  | mark kind =>
      cases hk
      obtain ⟨hnumber, hstring⟩ := hmarks k (hmark rfl).mem
      simp [Piece.token?, Lexeme.scanned, literal_of_notMem hnumber hstring, Lexeme.string]
  | word =>
      cases hk
      have hne : Kind.ofWord (String.ofList text) ≠ .number ∧
          Kind.ofWord (String.ofList text) ≠ .string := by
        obtain h | h := ofWord_mem (String.ofList text)
        · rw [h]
          decide
        · exact hkeywords _ h
      simp [Piece.token?, Lexeme.scanned, literal_of_notMem hne.1 hne.2, Lexeme.string]
  | number | quoted =>
      cases hk
      rfl
  | unclosed | comment | blank | stray => cases hk

/-- No more lexemes are spelled than there are characters. -/
theorem Spells.length_le {line : Int} {cs : List Char} {ls : List Lexeme}
    (h : Spells line cs ls) : ls.length ≤ cs.length := by
  induction h with
  | nil => exact Nat.zero_le _
  | @cons line start c cs cs' rest p k ls hskip hp hk _ ih =>
      have hlength : rest.length ≤ cs'.length := by simpa [hp] using length_nextPiece c cs'
      have hstart := length_skip false line cs
      rw [hskip] at hstart
      simp only [List.length_cons] at hstart ⊢
      omega

/-- Where nothing is wrong with a text, a scanner finds the lexemes it spells. -/
theorem Spells.of_scanned {line : Int} {cs : List Char} {ts : List Token} {ds : List Diagnostic}
    (h : Scanned line cs ts ds) (hds : ds = []) :
    ∃ ls, Spells line cs ls ∧ ts = ls.map Lexeme.scanned := by
  induction h with
  | nil => exact ⟨[], .nil rfl, rfl⟩
  | @cons line c cs rest p ts ds hp _ ih =>
      obtain ⟨hdiagnostic, hds⟩ := List.append_eq_nil_iff.mp hds
      obtain ⟨ls, hspells, rfl⟩ := ih hds
      cases hseparates : Piece.separates p with
      | true =>
          have htoken : p.token? (line + Text.lineBreaks p.text) = none := by
            obtain ⟨shape, text⟩ := p
            cases shape <;> first | rfl | cases hseparates
          rw [htoken]
          exact ⟨ls, hspells.of_skip (skip_separates hp hseparates line), rfl⟩
      | false =>
          -- a piece that neither separates nor is an error is a token
          obtain ⟨k, hk⟩ : ∃ k, Piece.kind? p = some k := by
            obtain ⟨shape, text⟩ := p
            cases shape with
            | unclosed | stray => cases hdiagnostic
            | comment | blank => cases hseparates
            | mark | word | number | quoted => exact ⟨_, rfl⟩
          rw [token_of_kind hp hk]
          exact ⟨_, .cons (skip_not_separates hp hseparates line) hp hk hspells, rfl⟩

/-- Pieces that separate leave no tokens and no reports. -/
theorem scanned_of_skip {line line' : Int} {cs cs' : List Char} {ts : List Token}
    (hskip : skip false line cs = (line', cs')) (h : Scanned line' cs' ts []) :
    Scanned line cs ts [] := by
  generalize hn : cs.length = n
  -- on the number of characters, as one piece may hold several of them
  induction n using Nat.strongRecOn generalizing line cs with
  | ind n ih =>
      cases cs with
      | nil =>
          cases hskip
          exact h
      | cons c cs =>
          obtain ⟨p, rest, hp⟩ : ∃ p rest, nextPiece c cs = (p, rest) := ⟨_, _, rfl⟩
          cases hseparates : Piece.separates p with
          | true =>
              have hlength : rest.length ≤ cs.length := by
                simpa [hp] using length_nextPiece c cs
              rw [skip_separates hp hseparates] at hskip
              have hrest := ih rest.length (by simp only [List.length_cons] at hn; omega) hskip rfl
              have hcons := Scanned.cons hp hrest
              obtain ⟨shape, text⟩ := p
              cases shape <;> first | exact hcons | cases hseparates
          | false =>
              rw [skip_not_separates hp hseparates] at hskip
              cases hskip
              exact h

/-- What a text spells is what a scanner finds, and nothing is wrong. -/
theorem Spells.scanned {line : Int} {cs : List Char} {ls : List Lexeme} (h : Spells line cs ls) :
    Scanned line cs (ls.map Lexeme.scanned) [] := by
  induction h with
  | @nil line cs hend =>
      have hskip : skip false line cs = ((skip false line cs).1, []) := by rw [← hend]
      exact scanned_of_skip hskip .nil
  | cons hskip hp hk _ ih =>
      -- the scanner reads the piece that the grammar matches, and all that is skipped is silent
      have hcons := Scanned.cons hp ih
      rw [token_of_kind hp hk] at hcons
      refine scanned_of_skip hskip ?_
      rename_i p _ _ _
      obtain ⟨shape, text⟩ := p
      cases shape <;> first | exact hcons | cases hk

end NovaLang.Grammar
