import Mathlib.Data.List.TakeWhile
import NovaLang.Proofs.Reader
import NovaLang.Token.Scan

namespace NovaLang

/-! # What a scanner does

A text is cut into pieces, one after another, until nothing is left. What a scanner adds
to its tokens and to its report is told by each piece and the line at its end. No text
makes a scanner fail.
-/

namespace Token

/-! ## Pieces -/

/-- Nothing is lost where a comment ends, ... -/
theorem commentTail_append (cs : List Char) : (commentTail cs).1 ++ (commentTail cs).2 = cs :=
  List.takeWhile_append_dropWhile

/-- ... where a word does, ... -/
theorem wordTail_append (cs : List Char) : (wordTail cs).1 ++ (wordTail cs).2 = cs :=
  List.takeWhile_append_dropWhile

/-- ... a number ... -/
theorem numberTail_append (cs : List Char) : (numberTail cs).1 ++ (numberTail cs).2 = cs := by
  have hsplit : cs.takeWhile isDigit ++ cs.dropWhile isDigit = cs :=
    List.takeWhile_append_dropWhile
  rw [numberTail]
  split
  · rename_i d rest hrest
    split
    · rw [List.append_assoc, List.cons_append, List.takeWhile_append_dropWhile, ← hrest, hsplit]
    · rw [← hrest, hsplit]
  · exact hsplit

/-- ... or a string. -/
theorem quotedTail_append (cs : List Char) :
    (quotedTail cs).2.1 ++ (quotedTail cs).2.2 = cs := by
  have hsplit : cs.takeWhile (· != '"') ++ cs.dropWhile (· != '"') = cs :=
    List.takeWhile_append_dropWhile
  rw [quotedTail]
  split
  · rename_i hrest
    rw [hrest] at hsplit
    exact hsplit
  · rename_i mark rest hrest
    rw [hrest] at hsplit
    simpa using hsplit

/-- A string is closed or it is not. -/
theorem shape_quotedTail (cs : List Char) :
    (quotedTail cs).1 = .quoted ∨ (quotedTail cs).1 = .unclosed := by
  rw [quotedTail]
  split
  · exact .inr rfl
  · exact .inl rfl

/-- Nothing of a text gets lost between a piece and what follows it. -/
theorem nextPiece_append (c : Char) (cs : List Char) :
    (nextPiece c cs).1.text ++ (nextPiece c cs).2 = c :: cs := by
  -- marks, comments, blanks, strings, numbers, words and stray characters in turn
  unfold nextPiece
  split
  · rfl
  split
  · split <;> rfl
  split
  · split
    · exact congrArg (c :: '/' :: ·) (commentTail_append _)
    · rfl
  split
  · rfl
  split
  · exact congrArg (c :: ·) (quotedTail_append cs)
  split
  · exact congrArg (c :: ·) (numberTail_append cs)
  split
  · exact congrArg (c :: ·) (wordTail_append cs)
  · rfl

/-- No piece is empty, ... -/
theorem nextPiece_ne_nil (c : Char) (cs : List Char) : (nextPiece c cs).1.text ≠ [] := by
  unfold nextPiece
  repeat' split
  all_goals simp

/-- ... so each of them leaves less. -/
theorem length_nextPiece (c : Char) (cs : List Char) : (nextPiece c cs).2.length ≤ cs.length := by
  have h := congrArg List.length (nextPiece_append c cs)
  have hpos := List.length_pos_iff.mpr (nextPiece_ne_nil c cs)
  simp only [List.length_append, List.length_cons] at h
  omega

/-- A number is a numeral. -/
theorem readPlain_numberTail {c : Char} (hc : isDigit c) (cs : List Char) :
    (Decimal.readPlain? (c :: (numberTail cs).1)).isSome := by
  have hdigits : ∀ ds : List Char, ∀ d ∈ ds.takeWhile isDigit, Char.isDigit d :=
    fun ds d hd => (List.mem_takeWhile_imp hd : isDigit d = true)
  have hwhole : ∀ d ∈ c :: cs.takeWhile isDigit, Char.isDigit d = true :=
    List.forall_mem_cons.mpr ⟨hc, hdigits cs⟩
  have halone : (Decimal.readPlain? (c :: cs.takeWhile isDigit)).isSome := by
    rw [Decimal.readPlain?, List.takeWhile_eq_self_iff.mpr hwhole,
      List.dropWhile_eq_nil_iff.mpr hwhole]
    rfl
  rw [numberTail]
  split
  · rename_i d rest hrest
    split
    · -- a fraction has a digit at least, or the point would not belong to the number
      rename_i hd
      have htake : ((c :: cs.takeWhile isDigit) ++ '.' :: (d :: rest).takeWhile isDigit).takeWhile
          Char.isDigit = c :: cs.takeWhile isDigit := by
        rw [List.takeWhile_append_of_pos hwhole]
        simp
      have hdrop : ((c :: cs.takeWhile isDigit) ++ '.' :: (d :: rest).takeWhile isDigit).dropWhile
          Char.isDigit = '.' :: (d :: rest).takeWhile isDigit := by
        rw [List.dropWhile_append_of_pos hwhole]
        simp
      have hfraction : (((d :: rest).takeWhile isDigit).isEmpty ||
          !((d :: rest).takeWhile isDigit).all Char.isDigit) = false := by
        rw [List.all_eq_true.mpr (hdigits _), List.takeWhile_cons_of_pos hd]
        rfl
      rw [Decimal.readPlain?, ← List.cons_append, htake, hdrop]
      simp only [hfraction]
      rfl
    · exact halone
  · exact halone

/-- The text of a number is one that can be converted. -/
theorem readPlain_of_number {c : Char} {cs : List Char} (h : (nextPiece c cs).1.shape = .number) :
    (Decimal.readPlain? (nextPiece c cs).1.text).isSome := by
  have hquoted : ∀ ds, (quotedTail ds).1 ≠ .number := by
    intro ds
    obtain h | h := shape_quotedTail ds <;> simp [h]
  revert h
  unfold nextPiece
  split
  · simp
  split
  · split <;> simp
  split
  · split <;> simp
  split
  · simp
  split
  · exact fun h => absurd h (hquoted cs)
  split
  · rename_i hc
    exact fun _ => readPlain_numberTail hc cs
  split <;> simp

/-- The token a piece is, if it is one, with the line at its end. -/
def Piece.token? (line : Int) (p : Piece) : Option Token :=
  let text := String.ofList p.text
  match p.shape with
  | .mark kind => some (.scanned kind text .nil line)
  | .word => some (.scanned (Kind.ofWord text) text .nil line)
  | .number => some (.scanned .number text (.number ((Decimal.readPlain? p.text).getD 0.0)) line)
  | .quoted => some (.scanned .string text (.text (String.ofList (p.text.drop 1).dropLast)) line)
  | .unclosed | .comment | .blank | .stray => none

/-- The static error of a piece, if it is one, with the line at its end. -/
def Piece.diagnostic? (line : Int) (p : Piece) : Option Diagnostic :=
  match p.shape with
  | .unclosed => some ⟨.line line, .unterminatedString⟩
  | .stray => some ⟨.line line, .unexpectedCharacter⟩
  | .mark _ | .word | .number | .quoted | .comment | .blank => none

/-- A text that begins on a line is cut into pieces that are these tokens and these
static errors. -/
inductive Scanned : Int → List Char → List Token → List Diagnostic → Prop where
  | nil {line : Int} : Scanned line [] [] []
  | cons {line : Int} {c : Char} {cs rest : List Char} {p : Piece} {ts : List Token}
      {ds : List Diagnostic} :
      nextPiece c cs = (p, rest) → Scanned (line + Text.lineBreaks p.text) rest ts ds →
      Scanned line (c :: cs) ((p.token? (line + Text.lineBreaks p.text)).toList ++ ts)
        ((p.diagnostic? (line + Text.lineBreaks p.text)).toList ++ ds)

/-- A piece on one line leaves the line as it is. -/
theorem Scanned.cons_plain {line : Int} {c : Char} {cs rest : List Char} {p : Piece}
    {ts : List Token} {ds : List Diagnostic} (hp : nextPiece c cs = (p, rest))
    (hplain : Text.lineBreaks p.text = 0) (h : Scanned line rest ts ds) :
    Scanned line (c :: cs) ((p.token? line).toList ++ ts) ((p.diagnostic? line).toList ++ ds) := by
  have hline : line + (Text.lineBreaks p.text : Int) = line := by
    rw [hplain]
    exact Int.add_zero line
  have hall := Scanned.cons hp (hline.symm ▸ h)
  rwa [hline] at hall

/-- A text has one list of tokens and one of static errors. -/
theorem Scanned.unique {line : Int} {cs : List Char} {ts us : List Token} {ds es : List Diagnostic}
    (h : Scanned line cs ts ds) (h' : Scanned line cs us es) : ts = us ∧ ds = es := by
  induction h generalizing us es with
  | nil =>
      cases h'
      exact ⟨rfl, rfl⟩
  | cons hp _ ih =>
      cases h' with
      | cons hp' hrest =>
          obtain ⟨rfl, rfl⟩ := Prod.mk.inj (hp.symm.trans hp')
          obtain ⟨rfl, rfl⟩ := ih hrest
          exact ⟨rfl, rfl⟩

end Token

namespace Scanner

open Token

/-- One step of a scanner adds what the next piece is. -/
theorem scanToken_piece (s : Scanner) {c : Char} {cs rest : List Char} {p : Piece}
    (h : s.rest = c :: cs) (hp : nextPiece c cs = (p, rest)) :
    ∃ s', s.begin.scanToken = (.ok (), s') ∧ s'.rest = rest ∧
      s'.line = s.line + Text.lineBreaks p.text ∧
      s'.tokens.toList = s.tokens.toList ++ (p.token? s'.line).toList ∧
      s'.report = s.report.addAll (p.diagnostic? s'.line).toList := by
  have hstep : s.begin.scanToken = (s.begin.extend p.text rest).finish p.shape := by
    rw [scanToken]
    simp only [begin, h, hp]
  have hnumber := @readPlain_of_number c cs
  rw [hp] at hnumber
  rw [hstep]
  obtain ⟨shape, text⟩ := p
  cases shape with
  | number =>
      obtain ⟨x, hx⟩ := Option.isSome_iff_exists.mp (hnumber rfl)
      have hx' : (s.begin.extend text rest).numeral? = some x := by
        simp [numeral?, extend, begin, hx]
      refine ⟨(s.begin.extend text rest).addToken .number (.number x), ?_, rfl, rfl, ?_, ?_⟩
      · simp only [finish, hx']
      · simp [extend, begin, addToken, Piece.token?, Scanner.text, hx]
      · simp [extend, begin, addToken, Piece.diagnostic?]
  | _ =>
      -- all other shapes are finished without a look at the text
      refine ⟨_, rfl, rfl, rfl, ?_, ?_⟩ <;>
        simp [extend, begin, addToken, complain, Piece.token?, Piece.diagnostic?, Scanner.text,
          Report.atLine, Report.addAll]

/-- A scanner passes all that is left, and never fails. -/
theorem scanPieces_scanned : ∀ (count : Nat) (s : Scanner), s.rest.length ≤ count →
    ∃ ts ds s', s.scanPieces count = (.ok (), s') ∧ Scanned s.line s.rest ts ds ∧
      s'.tokens.toList = s.tokens.toList ++ ts ∧ s'.report = s.report.addAll ds ∧
      s'.line = s.line + Text.lineBreaks s.rest := by
  intro count
  induction count with
  | zero =>
      intro s hcount
      have hrest : s.rest = [] := List.length_eq_zero_iff.mp (Nat.le_zero.mp hcount)
      exact ⟨[], [], s, rfl, hrest ▸ .nil, by simp, by simp, by simp [hrest]⟩
  | succ count ih =>
      intro s hcount
      cases hrest : s.rest with
      | nil =>
          refine ⟨[], [], s, ?_, .nil, by simp, by simp, by simp⟩
          simp [scanPieces, isAtEnd, hrest]
      | cons c cs =>
          obtain ⟨p, rest, hp⟩ : ∃ p rest, nextPiece c cs = (p, rest) := ⟨_, _, rfl⟩
          obtain ⟨s', hrun, hrest', hline, htokens, hreport⟩ := scanToken_piece s hrest hp
          -- a step passes a piece, which is not empty, so the rounds left are enough
          have hlength := length_nextPiece c cs
          have happend := nextPiece_append c cs
          rw [hp] at hlength happend
          rw [hrest, List.length_cons] at hcount
          obtain ⟨ts, ds, s'', hrun', hscanned, htokens', hreport', hline'⟩ :=
            ih s' (by rw [hrest']; exact Nat.le_trans hlength (Nat.le_of_succ_le_succ hcount))
          rw [hrest', hline] at hscanned
          rw [hline] at htokens hreport
          refine ⟨_, _, s'', ?_, .cons hp hscanned, ?_, ?_, ?_⟩
          · simp only [scanPieces, isAtEnd, hrest, hrun, hrun']
            rfl
          · rw [htokens', htokens, List.append_assoc]
          · rw [hreport', hreport, Report.addAll_append]
          · have hbreaks := congrArg Text.lineBreaks happend
            rw [Text.lineBreaks_append] at hbreaks
            rw [hline', hline, hrest', ← hbreaks]
            push_cast
            omega

end Scanner

/-- Every text is scanned, without a fault: its tokens and an end token on its last line,
and the static errors in it. -/
theorem Token.scan_scanned (source : String) (r : Report) :
    ∃ ts ds, Scanned 1 source.toList ts ds ∧
      (Scanner.ofSource source r).scanTokens.1 = .ok () ∧
      Token.scan source r =
        (ts ++ [.scanned .eof "" .nil (1 + Text.lineBreaks source.toList)], r.addAll ds) := by
  obtain ⟨ts, ds, s, hrun, hscanned, htokens, hreport, hline⟩ :=
    Scanner.scanPieces_scanned source.toList.length (Scanner.ofSource source r) (Nat.le_refl _)
  have hscan : (Scanner.ofSource source r).scanTokens = (.ok (), s.addEnd) := by
    rw [Scanner.scanTokens]
    have hrest : (Scanner.ofSource source r).rest.length = source.toList.length := rfl
    rw [hrest, hrun]
  refine ⟨ts, ds, hscanned, by rw [hscan], ?_⟩
  rw [Token.scan, hscan]
  simp only [Scanner.addEnd, Array.toList_push, htokens, hreport, hline]
  rfl

end NovaLang
