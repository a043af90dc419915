import NovaLang.Proofs.Grammar.Checked
import NovaLang.Proofs.Grammar.Spelling

namespace NovaLang.Grammar

open Token

/-! # Lexemes and pieces

Where the kind of a piece is accepted, the piece is the next lexeme. The other way round,
a text that is cut into lexemes of accepted kinds spells them, except where a keyword
is taken for a name or cut off the front of a longer word.
-/

/-! ## Fixed texts -/

/-- The keywords of the grammar are those of the scanner. -/
theorem ofWord_of_mem_keywords : ∀ e ∈ keywords, Kind.ofWord e.1 = e.2 := by
  decide

/-- Conversely for those that are terminals of the grammar. -/
theorem lookup_of_mem_keywords :
    ∀ e ∈ Kind.keywords, e.2 ∈ terminals → e ∈ keywords ∧ keywords.lookup e.1 = some e.2 := by
  decide

/-- The words that no name may be are no terminals of the grammar. -/
theorem ofWord_reserved :
    ∀ w ∈ reservedWords, Kind.ofWord w ∉ terminals := by
  decide

/-- No keyword begins with another one. -/
theorem keyword_unique :
    ∀ e ∈ keywords, ∀ d ∈ keywords, e.1.toList <+: d.1.toList → e = d := by
  decide

/-- A word whose kind is a terminal, and that is no name, is a keyword of the grammar. -/
theorem mem_keywords_of_ofWord {w : String} (h : Kind.ofWord w ∈ terminals)
    (hname : Kind.ofWord w ≠ .identifier) :
    (w, Kind.ofWord w) ∈ keywords ∧ keywords.lookup w = some (Kind.ofWord w) := by
  revert h hname
  rw [Kind.ofWord, Kind.keyword?]
  cases hfind : Kind.keywords.find? fun k => k.1 == w with
  | none => exact fun _ hname => absurd rfl hname
  | some e =>
      intro h _
      have hword : e.1 = w := by simpa using List.find?_some hfind
      have hkeyword := lookup_of_mem_keywords e (List.mem_of_find?_eq_some hfind) h
      rwa [← hword]

/-- A name is none of the keywords. -/
theorem lookup_of_identifier {w : String} (h : Kind.ofWord w = .identifier) :
    keywords.lookup w = none := by
  rw [List.lookup_eq_none_iff]
  intro e he
  rw [bne_iff_ne]
  rintro rfl
  have hname : ∀ e ∈ keywords, e.2 ≠ .identifier := by decide
  exact hname e he ((ofWord_of_mem_keywords e he).symm.trans h)

/-- A fixed text is one of the table that the parser asks for and that stands in front. -/
theorem fixedAt_eq_some {texts : List (String × Kind)} {kinds : List Kind} {cs text : List Char}
    {k : Kind} (h : fixedAt? texts kinds cs = some (k, text)) :
    ∃ w, (w, k) ∈ texts ∧ k ∈ kinds ∧ text = w.toList ∧ w.toList <+: cs := by
  obtain ⟨⟨w, k'⟩, hfind, heq⟩ := Option.map_eq_some_iff.mp h
  obtain ⟨rfl, rfl⟩ := Prod.mk.inj heq
  have hsome := List.find?_some hfind
  simp only [Bool.and_eq_true, List.contains_iff_mem, List.isPrefixOf_iff_prefix] at hsome
  exact ⟨w, List.mem_of_find?_eq_some hfind, hsome.1, rfl, hsome.2⟩

/-- A keyword that is accepted is found at the front. -/
theorem fixedAt_keywords {kinds : List Kind} {cs : List Char} {w : String} {k : Kind}
    (hmem : (w, k) ∈ keywords) (hk : k ∈ kinds) (hstart : w.toList <+: cs) :
    fixedAt? keywords kinds cs = some (k, w.toList) := by
  cases h : fixedAt? keywords kinds cs with
  | none =>
      have hnone := List.find?_eq_none.mp (Option.map_eq_none_iff.mp h) (w, k) hmem
      simp [hk, List.isPrefixOf_iff_prefix, hstart] at hnone
  | some e =>
      obtain ⟨k', text⟩ := e
      obtain ⟨w', hmem', -, rfl, hstart'⟩ := fixedAt_eq_some h
      -- both stand at the front, so one begins with the other
      have hsame : (w', k') = (w, k) := by
        obtain hle | hle := List.prefix_or_prefix_of_prefix hstart' hstart
        · exact keyword_unique _ hmem' _ hmem hle
        · exact (keyword_unique _ hmem _ hmem' hle).symm
      cases hsame
      rfl

/-- A mark that is accepted is found at the front. -/
theorem fixedAt_marks {kinds : List Kind} {c : Char} {cs text rest : List Char} {k : Kind}
    (h : Marked c cs k text rest) (hk : k ∈ kinds) (hdot : k ≠ .dot) :
    fixedAt? marks kinds (c :: cs) = some (k, text) := by
  cases h with
  | sole hsole =>
      unfold soleMark? at hsole
      repeat' split at hsole
      all_goals cases hsole
      all_goals first | contradiction | (subst_vars; simp [fixedAt?, marks, hk])
  | extended hpaired hcs =>
      unfold pairedMark? at hpaired
      repeat' split at hpaired
      all_goals cases hpaired
      all_goals subst_vars; simp [fixedAt?, marks, hk]
  | alone hpaired hcs =>
      unfold pairedMark? at hpaired
      repeat' split at hpaired
      all_goals cases hpaired
      all_goals subst_vars; simp [fixedAt?, marks, hk, List.isPrefixOf_iff_prefix, hcs]
  | slash hc => simp [fixedAt?, marks, hk, hc]

/-! ## Words -/

/-- Letters and digits of the scanner are word characters of the grammar. -/
theorem isWordChar_of_isAlphanumeric {c : Char} (hc : isAlphanumeric c = true) :
    Text.isWordChar c = true := by
  have hclass : c.isAlphanum = true ∨ c = '_' := by
    simp only [isAlphanumeric, isAlpha, isDigit, Bool.or_eq_true, beq_iff_eq] at hc
    simp only [Char.isAlphanum, Char.isAlpha, Char.isUpper, Char.isLower, Char.isDigit,
      Bool.or_eq_true, Bool.and_eq_true, decide_eq_true_eq, Char.le_def] at hc ⊢
    tauto
  -- all of them are ASCII
  have hsmall : c.toNat < 128 := by
    have hbound : ∀ d : Char, c ≤ d → d.toNat < 128 → c.toNat < 128 := fun d h hd =>
      Nat.lt_of_le_of_lt (UInt32.le_iff_toNat_le.mp (Char.le_def.mp h)) hd
    simp only [isAlphanumeric, isAlpha, isDigit, Bool.or_eq_true, Bool.and_eq_true,
      decide_eq_true_eq, beq_iff_eq] at hc
    obtain ((⟨-, h⟩ | ⟨-, h⟩) | rfl) | ⟨-, h⟩ := hc
    · exact hbound _ h (by decide)
    · exact hbound _ h (by decide)
    · decide
    · exact hbound _ h (by decide)
  simpa [Text.isWordChar, hsmall] using hclass

/-- A word in front of something that continues no word is what its first letters are. -/
theorem takeWhile_word {w rest : List Char} (hw : ∀ c ∈ w, isAlphanumeric c = true)
    (hrest : rest.head?.any isAlphanumeric = false) :
    (w ++ rest).takeWhile isAlphanumeric = w := by
  rw [List.takeWhile_append_of_pos hw]
  cases rest with
  | nil => simp
  | cons c rest => simp_all

/-- A word is read in full. -/
theorem takeWhile_alpha {c : Char} (hc : isAlpha c = true) (cs : List Char) :
    (c :: cs).takeWhile isAlphanumeric = c :: (wordTail cs).1 := by
  rw [List.takeWhile_cons_of_pos (by simp [isAlphanumeric, hc])]
  rfl

/-- The reserved words are words. -/
theorem isAlphanumeric_reserved :
    ∀ w ∈ reservedWords, ∀ c ∈ w.toList, isAlphanumeric c = true := by
  have hall : ∀ w ∈ reservedWords, w.toList.all isAlphanumeric = true := by decide
  exact fun w hw => List.all_eq_true.mp (hall w hw)

/-- So are the keywords. -/
theorem isAlphanumeric_keywords :
    ∀ e ∈ keywords, ∀ c ∈ e.1.toList, isAlphanumeric c = true := by
  have hall : ∀ e ∈ keywords, e.1.toList.all isAlphanumeric = true := by decide
  exact fun e he => List.all_eq_true.mp (hall e he)

/-- No word of the grammar is reserved. -/
theorem reservedAt_eq_false {cs : List Char} {k : Kind}
    (hk : Kind.ofWord (String.ofList (cs.takeWhile isAlphanumeric)) = k)
    (hmem : k ∈ terminals) : reservedAt cs = false := by
  rw [reservedAt, List.any_eq_false]
  intro w hw hreserved
  simp only [Bool.and_eq_true, List.isPrefixOf_iff_prefix, Bool.not_eq_true'] at hreserved
  obtain ⟨⟨rest, rfl⟩, hend⟩ := hreserved
  have hlength : w.length = w.toList.length := String.length_toList.symm
  rw [hlength, List.drop_left] at hend
  -- a reserved word in front is the whole word, as no word character follows it
  have hrest : rest.head?.any isAlphanumeric = false := by
    cases rest with
    | nil => rfl
    | cons c rest =>
        cases h : isAlphanumeric c with
        | false => exact h
        | true =>
            have hword : Text.isWordChar c = false := hend
            rw [isWordChar_of_isAlphanumeric h] at hword
            cases hword
  rw [takeWhile_word (isAlphanumeric_reserved w hw) hrest, String.ofList_toList] at hk
  exact ofWord_reserved w hw (hk ▸ hmem)

/-! ## The next lexeme -/

/-- A token that starts with no letter, digit or quote is a mark. -/
theorem mark_of_kind {c : Char} {cs : List Char} {k : Kind} (halpha : isAlpha c = false)
    (hdigit : isDigit c = false) (hquote : c ≠ '"') (hk : Piece.kind? (nextPiece c cs).1 = some k) :
    (nextPiece c cs).1.shape = .mark k := by
  revert hk
  unfold nextPiece
  split
  · rintro ⟨⟩
    rfl
  split
  · split <;>
    · rintro ⟨⟩
      rfl
  split
  · split
    · rintro ⟨⟩
    · rintro ⟨⟩
      rfl
  split
  · rintro ⟨⟩
  simp [halpha, hdigit, Piece.kind?]

/-- An accepted word is the lexeme at the front. -/
theorem lexemeAt_word {kinds : List Kind} {c : Char} {cs : List Char} {k : Kind}
    (halpha : isAlpha c = true)
    (hword : Kind.ofWord (String.ofList (c :: (wordTail cs).1)) = k) (hmem : k ∈ kinds)
    (hterminal : k ∈ terminals) :
    lexemeAt? kinds (c :: cs) = some (k, c :: (wordTail cs).1) := by
  have hkinds : kinds.contains k = true := List.contains_iff_mem.mpr hmem
  have hreserved := reservedAt_eq_false (takeWhile_alpha halpha cs ▸ hword) hterminal
  rw [lexemeAt?, if_pos halpha]
  by_cases hname : k = .identifier
  · rw [← hname, if_pos hkinds]
    have hlookup := lookup_of_identifier (hword.trans hname)
    simp only [wordAt?, hreserved, takeWhile_alpha halpha, hlookup, hname]
    rfl
  · have hkeyword := mem_keywords_of_ofWord (hword.symm ▸ hterminal) (hword.symm ▸ hname)
    rw [hword] at hkeyword
    -- where names are accepted too, the whole word is looked up; elsewhere it is cut off
    split
    · simp only [wordAt?, hreserved, takeWhile_alpha halpha, hkeyword.2, hkinds]
      rfl
    · have hstart : (String.ofList (c :: (wordTail cs).1)).toList <+: c :: cs := by
        rw [String.toList_ofList]
        exact ⟨(wordTail cs).2, congrArg (c :: ·) (wordTail_append cs)⟩
      rw [fixedAt_keywords hkeyword.1 hmem hstart, String.toList_ofList]

/-- An accepted piece is the lexeme at the front. -/
theorem lexemeAt_of_kind {kinds : List Kind} {c : Char} {cs : List Char} {k : Kind}
    (hk : Piece.kind? (nextPiece c cs).1 = some k) (hmem : k ∈ kinds) (hterminal : k ∈ terminals) :
    lexemeAt? kinds (c :: cs) = some (k, (nextPiece c cs).1.text) := by
  have hkinds : kinds.contains k = true := List.contains_iff_mem.mpr hmem
  cases halpha : isAlpha c with
  | true =>
      rw [nextPiece_alpha halpha] at hk ⊢
      exact lexemeAt_word halpha (Option.some_inj.mp hk) hmem hterminal
  | false =>
      cases hdigit : isDigit c with
      | true =>
          rw [nextPiece_digit hdigit] at hk ⊢
          cases hk
          simp [lexemeAt?, halpha, hdigit, hmem]
      | false =>
          by_cases hquote : c = '"'
          · subst hquote
            have hpiece : nextPiece '"' cs =
                (⟨(quotedTail cs).1, '"' :: (quotedTail cs).2.1⟩, (quotedTail cs).2.2) := rfl
            rw [hpiece] at hk ⊢
            obtain h | h := shape_quotedTail cs
            · simp only [Piece.kind?, h] at hk
              cases hk
              have hq : quotedTail cs = (.quoted, (quotedTail cs).2.1, (quotedTail cs).2.2) := by
                rw [← h]
              rw [lexemeAt?, hq]
              simp [halpha, hdigit, hmem]
            · simp [Piece.kind?, h] at hk
          · have hshape := mark_of_kind halpha hdigit hquote hk
            have hdot : k ≠ .dot := by
              rintro rfl
              revert hterminal
              decide
            simp [lexemeAt?, halpha, hdigit, hquote,
              fixedAt_marks (marked_of_shape hshape) hmem hdot]

/-- What a text spells comes next where its kind is accepted. -/
theorem Spells.next {kinds : List Kind} {line : Int} {cs : List Char} {l : Lexeme}
    {ls : List Lexeme} (h : Spells line cs (l :: ls))
    (hkinds : ∀ k ∈ kinds, k = .eof ∨ k ∈ terminals) (hmem : l.kind ∈ kinds) :
    ∃ rest, nextLexeme kinds line cs = .lexeme l rest ∧
      Spells (l.line + Text.lineBreaks l.text) rest ls := by
  cases h with
  | @cons _ start c _ cs' rest p k _ hskip hp hk hrest =>
      have happend := nextPiece_append c cs'
      rw [hp] at happend
      have hk' : Piece.kind? (nextPiece c cs').1 = some k := by rwa [hp]
      have hterminal := (hkinds k hmem).resolve_left (kind_ne_eof hk')
      -- the parser asks for the kind that the scanner finds
      have hfront := lexemeAt_of_kind hk' hmem hterminal
      rw [hp] at hfront
      refine ⟨rest, ?_, hrest⟩
      rw [nextLexeme, hskip]
      simp only [hfront]
      rw [← happend, List.drop_left]

/-- Where nothing more is spelled, the grammar reads the end. -/
theorem Spells.next_nil {kinds : List Kind} {line : Int} {cs : List Char} (h : Spells line cs []) :
    nextLexeme kinds line cs = .endOfInput := by
  cases h with
  | nil hend =>
      have hskip : skip false line cs = ((skip false line cs).1, []) := by rw [← hend]
      rw [nextLexeme, hskip]

/-! ## Misreadings -/

/-- The lexeme is a keyword of the language, read as a name. -/
def Lexeme.misnamed (l : Lexeme) : Bool :=
  l.kind == .identifier && Kind.ofWord l.string != .identifier

/-- The lexeme is a keyword that is cut off the front of a longer word. -/
def Lexeme.cutOff (l : Lexeme) (rest : List Char) : Bool :=
  Kind.keyword? l.string == some l.kind && rest.head?.any isAlphanumeric

/-- One of the lexemes that a text is cut into is a keyword read as a name, or one cut off
the front of a longer word. -/
def misread : List Char → List Lexeme → Bool
  | _, [] => false
  | cs, l :: ls =>
    let rest := (skip false 1 cs).2.drop l.text.length
    l.misnamed || l.cutOff rest || misread rest ls

/-- What an accepted lexeme can be. -/
inductive Reading (c : Char) (cs : List Char) (k : Kind) (text : List Char) : Prop where
  | piece : Piece.kind? (nextPiece c cs).1 = some k → (nextPiece c cs).1.text = text →
      Reading c cs k text
  | misnamed : k = .identifier → Kind.ofWord (String.ofList text) ≠ .identifier →
      Reading c cs k text
  | cutOff {rest : List Char} : Kind.keyword? (String.ofList text) = some k →
      text ++ rest = c :: cs → rest.head?.any isAlphanumeric = true → Reading c cs k text
  | shortened : extensible k = true → text = [c] → ['='] <+: cs → Reading c cs k text

/-- A mark that could be extended stands alone if no `=` follows. -/
theorem nextPiece_alone {c : Char} {cs : List Char} {k l : Kind} (hsole : soleMark? c = none)
    (hpaired : pairedMark? c = some (k, l)) (hcs : ¬['='] <+: cs) :
    nextPiece c cs = (⟨.mark l, [c]⟩, cs) := by
  unfold nextPiece
  simp only [hsole, hpaired]
  split
  · rename_i ds
    exact absurd ⟨ds, rfl⟩ hcs
  · rfl

/-- Then it is read alone, or as a part of the longer mark. -/
theorem reading_paired {c : Char} {k l : Kind} (hsole : soleMark? c = none)
    (hpaired : pairedMark? c = some (k, l)) (hl : extensible l = true) (cs : List Char) :
    Reading c cs l [c] := by
  by_cases hcs : ['='] <+: cs
  · exact .shortened hl rfl hcs
  · exact .piece (by rw [nextPiece_alone hsole hpaired hcs]; rfl)
      (by rw [nextPiece_alone hsole hpaired hcs])

/-- A slash is read as a mark if it starts no comment. -/
theorem reading_slash {cs : List Char} (hpiece : Piece.separates (nextPiece '/' cs).1 = false) :
    Reading '/' cs .slash ['/'] := by
  cases cs with
  | nil => exact .piece rfl rfl
  | cons d ds =>
      have hd : d ≠ '/' := by
        rintro rfl
        cases hpiece
      have hp : nextPiece '/' (d :: ds) = (⟨.mark .slash, ['/']⟩, d :: ds) := by
        simp [nextPiece, soleMark?, pairedMark?, hd]
      exact .piece (by rw [hp]; rfl) (by rw [hp])

/-- Every mark of the grammar is read so. -/
theorem reading_mark {c : Char} {cs : List Char} {w : String} {k : Kind} (hmem : (w, k) ∈ marks)
    (hstart : w.toList <+: c :: cs) (hpiece : Piece.separates (nextPiece c cs).1 = false) :
    Reading c cs k w.toList := by
  obtain ⟨rest, hrest⟩ := hstart
  simp only [marks, List.mem_cons, Prod.mk.injEq, List.not_mem_nil, or_false] at hmem
  obtain ⟨rfl, rfl⟩ | ⟨rfl, rfl⟩ | ⟨rfl, rfl⟩ | ⟨rfl, rfl⟩ | ⟨rfl, rfl⟩ | ⟨rfl, rfl⟩ | ⟨rfl, rfl⟩ |
    ⟨rfl, rfl⟩ | ⟨rfl, rfl⟩ | ⟨rfl, rfl⟩ | ⟨rfl, rfl⟩ | ⟨rfl, rfl⟩ | ⟨rfl, rfl⟩ | ⟨rfl, rfl⟩ |
    ⟨rfl, rfl⟩ | ⟨rfl, rfl⟩ | ⟨rfl, rfl⟩ | ⟨rfl, rfl⟩ := hmem
  -- each mark is a piece, could be extended, or is the slash
  all_goals
    simp at hrest
    obtain ⟨rfl, rfl⟩ := hrest
  all_goals first
    | exact .piece rfl rfl
    | exact reading_paired rfl rfl rfl _
    | exact reading_slash hpiece

/-- A keyword that no letter or digit follows is the whole word. -/
theorem takeWhile_keyword {e : String × Kind} {cs rest : List Char} (he : e ∈ keywords)
    (hcs : e.1.toList ++ rest = cs) (hrest : rest.head?.any isAlphanumeric = false) :
    cs.takeWhile isAlphanumeric = e.1.toList := by
  rw [← hcs]
  exact takeWhile_word (isAlphanumeric_keywords e he) hrest

/-- The scanner knows the keywords of the grammar. -/
theorem keyword_of_mem_keywords : ∀ e ∈ keywords, Kind.keyword? e.1 = some e.2 := by
  decide

/-- An accepted word is a piece, or is misread. -/
theorem reading_word {kinds : List Kind} {c : Char} {cs text : List Char} {k : Kind}
    (halpha : isAlpha c = true) (h : lexemeAt? kinds (c :: cs) = some (k, text)) :
    Reading c cs k text := by
  have hpiece := nextPiece_alpha halpha cs
  have hword := takeWhile_alpha halpha cs
  rw [lexemeAt?, if_pos halpha] at h
  split at h
  · rw [wordAt?] at h
    split at h
    · cases h
    -- a word that is taken for a name is one, or it is a keyword
    have hname : ∀ {k' : Kind}, some (k', c :: (wordTail cs).1) = some (k, text) →
        k' = .identifier → Reading c cs k text := by
      rintro k' ⟨⟩ rfl
      by_cases hname : Kind.ofWord (String.ofList (c :: (wordTail cs).1)) = .identifier
      · exact .piece (by rw [hpiece, ← hname]; rfl) (by rw [hpiece])
      · exact .misnamed rfl hname
    rw [hword] at h
    dsimp only at h
    split at h
    · rename_i kind hlookup
      split at h
      · cases h
        obtain ⟨before, after, hsplit, -⟩ := List.lookup_eq_some_iff.mp hlookup
        have hkind : Kind.ofWord (String.ofList (c :: (wordTail cs).1)) = k :=
          ofWord_of_mem_keywords _ (hsplit ▸ List.mem_append_right _ List.mem_cons_self)
        exact .piece (by rw [hpiece, ← hkind]; rfl) (by rw [hpiece])
      · exact hname h rfl
    · exact hname h rfl
  · -- where no name is accepted a keyword is looked for, whatever the word goes on with
    obtain ⟨w, hmem, -, rfl, rest, hrest⟩ := fixedAt_eq_some h
    cases hcut : rest.head?.any isAlphanumeric with
    | true =>
        refine .cutOff ?_ hrest hcut
        rw [String.ofList_toList]
        exact keyword_of_mem_keywords _ hmem
    | false =>
        have htext : c :: (wordTail cs).1 = w.toList := by
          rw [← hword]
          exact takeWhile_keyword hmem hrest hcut
        refine .piece ?_ (by rw [hpiece, htext])
        rw [hpiece, htext]
        simp [Piece.kind?, ofWord_of_mem_keywords _ hmem]

/-- An accepted lexeme is a piece, unless it is misread or shorter than the mark there. -/
theorem reading_of_lexemeAt {kinds : List Kind} {c : Char} {cs text : List Char} {k : Kind}
    (hpiece : Piece.separates (nextPiece c cs).1 = false)
    (h : lexemeAt? kinds (c :: cs) = some (k, text)) : Reading c cs k text := by
  cases halpha : isAlpha c with
  | true => exact reading_word halpha h
  | false =>
      rw [lexemeAt?, halpha, if_neg Bool.false_ne_true] at h
      split at h
      · rename_i hdigit
        split at h
        · cases h
          exact .piece (by rw [nextPiece_digit hdigit]; rfl) (by rw [nextPiece_digit hdigit])
        · cases h
      split at h
      · rename_i hquote
        subst hquote
        split at h
        · rename_i tail rest hq
          split at h
          · cases h
            have hp : nextPiece '"' cs = (⟨.quoted, '"' :: tail⟩, rest) := by
              have hp : nextPiece '"' cs =
                (⟨(quotedTail cs).1, '"' :: (quotedTail cs).2.1⟩, (quotedTail cs).2.2) := rfl
              rw [hp, hq]
            exact .piece (by rw [hp]; rfl) (by rw [hp])
          · cases h
        · cases h
      · -- one of the fixed texts that are no words
        obtain ⟨w, hmem, -, rfl, hstart⟩ := fixedAt_eq_some h
        exact reading_mark hmem hstart hpiece

/-- Kinds that are accepted behind a lexeme of some kind, or at the beginning. -/
structure Awaits (previous? : Option Kind) (kinds : List Kind) : Prop where
  terminal : ∀ k ∈ kinds, k = .eof ∨ k ∈ terminals
  notEquals : ∀ p ∈ previous?, extensible p = true → ∀ k ∈ kinds, equals k = false

/-- A text that begins on a line behind a lexeme of some kind is cut into these lexemes,
each accepted where it stands. -/
inductive Cut : Option Kind → Int → List Char → List Lexeme → Prop where
  | nil {previous? : Option Kind} {kinds : List Kind} {line : Int} {cs : List Char} :
      nextLexeme kinds line cs = .endOfInput → Cut previous? line cs []
  | cons {previous? : Option Kind} {kinds : List Kind} {line : Int} {cs rest : List Char}
      {l : Lexeme} {ls : List Lexeme} :
      Awaits previous? kinds → nextLexeme kinds line cs = .lexeme l rest →
      Cut (some l.kind) (l.line + Text.lineBreaks l.text) rest ls →
      Cut previous? line cs (l :: ls)

/-- Where a lexeme is found: behind what is skipped, at the front of the rest. -/
theorem nextLexeme_eq_lexeme {kinds : List Kind} {line : Int} {cs rest : List Char} {l : Lexeme}
    (h : nextLexeme kinds line cs = .lexeme l rest) :
    ∃ c cs', skip false line cs = (l.line, c :: cs') ∧
      lexemeAt? kinds (c :: cs') = some (l.kind, l.text) ∧
      (c :: cs').drop l.text.length = rest := by
  unfold nextLexeme at h
  split at h
  · cases h
  · rename_i start cs' hne hskip
    split at h
    · rename_i hfront
      cases h
      cases cs' with
      | nil => exact absurd rfl hne
      | cons c cs' => exact ⟨c, cs', hskip, hfront, rfl⟩
    · cases h

/-- Where the end is found: behind what is skipped, nothing is left. -/
theorem skip_of_endOfInput {kinds : List Kind} {line : Int} {cs : List Char}
    (h : nextLexeme kinds line cs = .endOfInput) : (skip false line cs).2 = [] := by
  unfold nextLexeme at h
  split at h
  · rename_i hskip
    rw [hskip]
  · split at h <;> cases h

/-- A mark that starts with `=` is one that may extend another. -/
theorem equals_of_mem_marks : ∀ e ∈ marks, e.1.toList.head? = some '=' → equals e.2 = true := by
  decide

/-- No mark is empty. -/
theorem ne_nil_of_mem_marks : ∀ e ∈ marks, e.1.toList ≠ [] := by
  decide

/-- A shortened mark is followed by nothing that is accepted. -/
theorem not_cut_of_equals {k : Kind} (hk : extensible k = true) {line : Int} {cs : List Char}
    {ls : List Lexeme} (hcs : ['='] <+: cs) : ¬Cut (some k) line cs ls := by
  obtain ⟨ds, rfl⟩ := hcs
  have hskip : skip false line ('=' :: ds) = (line, '=' :: ds) :=
    skip_of_ne (by decide) (by decide) (by decide) (by decide) (by simp)
  intro h
  -- the text begins with an equals sign: it does not end here, and no lexeme begins so
  cases h with
  | nil hnext =>
      have hend := skip_of_endOfInput hnext
      rw [List.singleton_append, hskip] at hend
      cases hend
  | cons hkinds hnext _ =>
      obtain ⟨c, cs', hskip', hfront, -⟩ := nextLexeme_eq_lexeme hnext
      rw [List.singleton_append, hskip] at hskip'
      cases hskip'
      have hfixed : fixedAt? marks _ ('=' :: ds) = some _ := hfront
      obtain ⟨w, hmem, hkind, -, hstart⟩ := fixedAt_eq_some hfixed
      have hhead : w.toList.head? = some '=' := by
        cases hw : w.toList with
        | nil => exact absurd hw (ne_nil_of_mem_marks _ hmem)
        | cons d w' =>
            rw [hw, List.cons_prefix_cons] at hstart
            rw [hstart.1, List.head?_cons]
      have hequals := hkinds.notEquals k rfl hk _ hkind
      rw [equals_of_mem_marks _ hmem hhead] at hequals
      cases hequals

/-- A text that is cut into accepted lexemes spells them, if none of them is misread. -/
theorem Cut.spells {previous? : Option Kind} {line : Int} {cs : List Char} {ls : List Lexeme}
    (h : Cut previous? line cs ls) (hmisread : misread cs ls = false) : Spells line cs ls := by
  induction h with
  | nil hnext => exact .nil (skip_of_endOfInput hnext)
  | @cons previous? kinds line cs rest l ls hkinds hnext hcut ih =>
      obtain ⟨c, cs', hskip, hfront, hrest⟩ := nextLexeme_eq_lexeme hnext
      have hdrop : (skip false 1 cs).2.drop l.text.length = rest := by
        rw [skip_line false 1 line, hskip, ← hrest]
      simp only [misread, hdrop, Bool.or_eq_false_iff, Lexeme.misnamed, Lexeme.cutOff] at hmisread
      obtain ⟨⟨hmisnamed, hcutOff⟩, hrestMisread⟩ := hmisread
      -- of the four readings two are misreadings, and the last one leads nowhere
      cases reading_of_lexemeAt (separates_of_skip hskip) hfront with
      | piece hk htext =>
          have hrest' : (nextPiece c cs').2 = rest := by
            rw [← hrest, ← htext, ← nextPiece_append c cs', List.drop_left]
          rw [← htext] at ih
          have hp : nextPiece c cs' = ((nextPiece c cs').1, rest) := by rw [← hrest']
          have hspells := Spells.cons hskip hp hk (ih hrestMisread)
          rwa [htext] at hspells
      | misnamed hname hword => simp [hname, Lexeme.string, hword] at hmisnamed
      | cutOff hkeyword hrest' hhead =>
          rename_i rest'
          have hsame : rest' = rest := by rw [← hrest, ← hrest', List.drop_left]
          simp [Lexeme.string, hkeyword, hsame ▸ hhead] at hcutOff
      | shortened hk htext hequals =>
          have hrest' : rest = cs' := by simpa [htext] using hrest.symm
          exact absurd hcut (not_cut_of_equals hk (hrest' ▸ hequals))

/-- Only words are names or keywords. -/
theorem kind_of_not_alpha {c : Char} {cs : List Char} {k : Kind} (halpha : isAlpha c = false)
    (hk : Piece.kind? (nextPiece c cs).1 = some k) :
    k ∈ .number :: .string :: markKinds := by
  cases hdigit : isDigit c with
  | true =>
      rw [nextPiece_digit hdigit] at hk
      cases hk
      exact List.mem_cons_self
  | false =>
      by_cases hquote : c = '"'
      · subst hquote
        -- a mark: the grammar has it in its table, and takes the longest
        have hshape : (nextPiece '"' cs).1.shape = (quotedTail cs).1 := rfl
        rw [Piece.kind?, hshape] at hk
        obtain h | h := shape_quotedTail cs <;> rw [h] at hk <;> cases hk
        exact List.mem_cons_of_mem _ List.mem_cons_self
      · have hmark := marked_of_shape (mark_of_kind halpha hdigit hquote hk)
        exact List.mem_cons_of_mem _ (List.mem_cons_of_mem _ hmark.mem)

/-- The kind of a keyword is in the table. -/
theorem kind_of_keyword {w : String} {k : Kind} (h : Kind.keyword? w = some k) :
    k ∈ Kind.keywords.map (·.2) := by
  obtain ⟨e, he, rfl⟩ := Option.map_eq_some_iff.mp h
  exact List.mem_map_of_mem (List.mem_of_find?_eq_some he)

/-- What a text spells is not misread. -/
theorem Spells.not_misread {line : Int} {cs : List Char} {ls : List Lexeme}
    (h : Spells line cs ls) : misread cs ls = false := by
  induction h with
  | nil => rfl
  | @cons line start c cs cs' rest p k ls hskip hp hk _ ih =>
      have happend := nextPiece_append c cs'
      rw [hp] at happend
      have hdrop : (skip false 1 cs).2.drop p.text.length = rest := by
        rw [skip_line false 1 line, hskip, ← happend, List.drop_left]
      simp only [misread, hdrop, ih, Bool.or_false, Bool.or_eq_false_iff, Lexeme.misnamed,
        Lexeme.cutOff, Lexeme.string]
      cases halpha : isAlpha c with
      | true =>
          rw [nextPiece_alpha halpha] at hp
          cases hp
          have hword : Kind.ofWord (String.ofList (c :: (wordTail cs').1)) = k :=
            Option.some_inj.mp hk
          -- a scanner takes the whole word, so nothing that continues one is left
          have hhead : ((wordTail cs').2.head?.any isAlphanumeric) = false := by
            have hnot := List.head?_dropWhile_not isAlphanumeric cs'
            rw [wordTail]
            cases hdropped : cs'.dropWhile isAlphanumeric with
            | nil => rfl
            | cons d ds =>
                rw [hdropped] at hnot
                exact hnot
          exact ⟨by rw [hword]; cases k <;> rfl, by rw [hhead, Bool.and_false]⟩
      | false =>
          have hkind := kind_of_not_alpha halpha (by rwa [hp])
          refine ⟨?_, ?_⟩
          · have hname : k ≠ .identifier := by
              rintro rfl
              exact absurd hkind (by decide)
            simp [hname]
          · have hkeyword : Kind.keyword? (String.ofList p.text) ≠ some k := by
              intro hkeyword
              have hdisjoint : ∀ k ∈ Kind.keywords.map (·.2),
                  k ∉ .number :: .string :: markKinds := by decide
              exact hdisjoint k (kind_of_keyword hkeyword) hkind
            simp [hkeyword]

end NovaLang.Grammar
