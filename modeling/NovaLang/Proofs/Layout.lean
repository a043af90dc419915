import NovaLang.Proofs.Descent.Parallel
import NovaLang.Proofs.LexicalGrammar

namespace NovaLang

/-! # Layout does not matter

What stands between the lexemes of a text tells only on which lines they are. The lexemes
may be written one behind the other with a blank between them: no two of them grow into one
another, and what has been scanned is scanned again, without an error. The tokens are then read as
they were, broken statements included, on other lines.
-/

/-! ## Tokens without their lines -/

/-- The token without its line. -/
def Token.unplaced (t : Token) : Token := { t with line := .null }

/-- A token without its line has the same kind, text and literal. -/
theorem Token.unplaced_relabels : Token.Relabels Token.unplaced :=
  ⟨fun _ => rfl, fun _ => rfl, fun _ => rfl⟩

/-- The tree with no lines in it. -/
def Node.unplaced : Node → Node := Node.relabel Token.unplaced

/-- The static error with no line in it, if it is one at a token. -/
def Diagnostic.unplaced : Diagnostic → Diagnostic := Diagnostic.relabel Token.unplaced

/-- So the end is found on any lines. -/
theorem Token.exists_end_of_unplaced {ts us : List Token}
    (h : us.map unplaced = ts.map unplaced) (hend : ∃ t ∈ ts, t.kind = .eof) :
    ∃ u ∈ us, u.kind = .eof := by
  rcases hend with ⟨t, ht, hkind⟩
  obtain ⟨u, hu, heq⟩ := List.mem_map.mp (h ▸ List.mem_map_of_mem ht)
  exact ⟨u, hu, (congrArg Token.kind heq).trans hkind⟩

/-- Token lists that are the same up to lines are read alike up to lines. -/
theorem Descent.read_unplaced {ts us : List Token}
    (h : us.map Token.unplaced = ts.map Token.unplaced) (hend : ∃ t ∈ ts, t.kind = .eof)
    (r : Report) :
    (read us r).1.map Node.unplaced = (read ts r).1.map Node.unplaced ∧
      ∃ ds es, (read ts r).2 = r.addAll ds ∧ (read us r).2 = r.addAll es ∧
        es.map Diagnostic.unplaced = ds.map Diagnostic.unplaced := by
  have hend' := Token.exists_end_of_unplaced h hend
  rcases read_relabel Token.unplaced_relabels hend r with ⟨ds, hds, hts⟩
  rcases read_relabel Token.unplaced_relabels hend' r with ⟨es, hes, hus⟩
  obtain ⟨hstatements, hreports⟩ := Prod.mk.inj ((h ▸ hus).symm.trans hts)
  exact ⟨hstatements, ds, es, hds, hes, Report.addAll_inj hreports⟩

/-! ## Lexemes in front of a blank -/

namespace Lexical

open Grammar Token

variable {c : Char} {cs rest : List Char} {k : Kind} {v : Value}

/-- In front of a blank, the piece is that of the lexeme alone. -/
theorem Headed.nextPiece_blank (h : Headed c cs k v) (rest : List Char) :
    (nextPiece c (cs ++ ' ' :: rest)).1 = (nextPiece c cs).1 := by
  have hdigit : ∀ d ∈ (' ' :: rest).head?, isDigit d = false := by simp; rfl
  have hword : ∀ d ∈ (' ' :: rest).head?, isAlphanumeric d = false := by simp; rfl
  -- no lexeme goes on over a blank
  cases h with
  | sole hk hcs => simp [nextPiece, hk]
  | alone hk hcs =>
      subst hcs
      simp [nextPiece, soleMark_of_pairedMark hk, hk]
  | extended hk hcs =>
      subst hcs
      simp [nextPiece, soleMark_of_pairedMark hk, hk]
  | slash hc hcs =>
      subst hc hcs
      rfl
  | whole hc hcs =>
      rcases span_append hcs (' ' :: rest) hdigit with ⟨htake, hdrop⟩
      rcases span_all hcs with ⟨htake', hdrop'⟩
      rw [nextPiece_digit hc, nextPiece_digit hc, numberTail, numberTail, htake, hdrop, htake',
        hdrop']
      rfl
  | @decimal ds fs hc hds hfs hcs =>
      subst hcs
      have htail := numberTail_decimal hds hfs []
      have htail' := numberTail_decimal hds hfs (' ' :: rest)
      rw [List.append_nil, (span_all hfs.digits).1] at htail
      rw [(span_append hfs.digits (' ' :: rest) hdigit).1] at htail'
      rw [nextPiece_digit hc, nextPiece_digit hc, List.append_assoc, List.cons_append, htail, htail']
  | word hc hcs =>
      rw [nextPiece_alpha hc, nextPiece_alpha hc, wordTail, wordTail,
        (span_append hcs (' ' :: rest) hword).1, (span_all hcs).1]
  | @quoted body hc hbody hcs =>
      subst hc hcs
      rw [nextPiece_quote, nextPiece_quote, List.append_assoc, List.singleton_append,
        quotedTail_of_notMem hbody, quotedTail_of_notMem hbody]

/-- Where a blank or nothing follows, a lexeme is a piece of its own. -/
theorem Lexeme.front {text : List Char} (h : Lexeme text k v)
    (hrest : rest = [] ∨ ∃ more, rest = ' ' :: more) :
    ∃ c cs p, text = c :: cs ∧ nextPiece c (cs ++ rest) = (p, rest) ∧ p.text = text ∧
      contentOf p = .token k v := by
  rcases h.headed with ⟨c, cs, rfl, hheaded⟩
  have hpiece : (nextPiece c (cs ++ rest)).1 = (nextPiece c cs).1 := by
    rcases hrest with rfl | ⟨more, rfl⟩
    · rw [List.append_nil]
    · exact hheaded.nextPiece_blank more
  -- alone, the lexeme is not shorter than its piece, and nothing of it gets lost
  have htext : (nextPiece c cs).1.text = c :: cs :=
    List.IsPrefix.eq_of_length_le ⟨_, nextPiece_append c cs⟩ (hheaded.length_le (List.prefix_refl cs))
  have hleft : (nextPiece c (cs ++ rest)).2 = rest := by
    have happend := nextPiece_append c (cs ++ rest)
    rw [hpiece, htext] at happend
    exact List.append_cancel_left happend
  exact ⟨c, cs, (nextPiece c cs).1, rfl, Prod.ext hpiece hleft, htext, hheaded.content⟩

end Lexical

/-! ## Lexemes in a row -/

namespace Token

open Lexical

/-- The token has a lexeme for its characters, and is what that lexeme is. -/
structure IsLexeme (t : Token) : Prop where
  lexeme : t.lexeme = .str t.text
  literal : Lexeme t.text.toList t.kind t.literal

/-- The tokens of a division are lexemes. -/
theorem isLexeme_of_divides {text : List Char} {ss : List Segment} (h : Divides text ss)
    (line : Int) : ∀ t ∈ tokens line ss, t.IsLexeme := by
  induction h generalizing line with
  | nil => exact List.forall_mem_nil _
  | cons hbegins _ ih =>
      rw [tokens]
      refine List.forall_mem_append.mpr ⟨?_, ih _⟩
      cases hbegins with
      | token hlexeme =>
          refine List.forall_mem_singleton.mpr ⟨rfl, ?_⟩
          simpa [Token.scanned, Token.text, Json.plain] using hlexeme
      | blank | comment | stray | unclosed => simp [Segment.token?]

/-- On whatever line the text begins, it is scanned without an error into the tokens, up to
their lines. -/
def Rescans (ts : List Token) (text : List Char) : Prop :=
  ∀ line, ∃ us, Scanned line text us [] ∧ us.map unplaced = ts.map unplaced

namespace Rescans

variable {ts : List Token} {text : List Char} {t : Token}

/-- No text has no tokens. -/
theorem nil : Rescans [] [] := fun _ => ⟨[], .nil, rfl⟩

/-- A blank adds none. -/
theorem blank (h : Rescans ts text) : Rescans ts (' ' :: text) := by
  intro line
  rcases h line with ⟨us, hscanned, hus⟩
  have hpiece : nextPiece ' ' text = (⟨.blank, [' ']⟩, text) := rfl
  exact ⟨us, .cons hpiece (by simpa [Text.lineBreaks] using hscanned), hus⟩

/-- A lexeme adds its token, if a blank or nothing follows. -/
theorem lexeme (ht : t.IsLexeme) (h : Rescans ts text)
    (htext : text = [] ∨ ∃ more, text = ' ' :: more) :
    Rescans (t :: ts) (t.text.toList ++ text) := by
  intro line
  rcases ht.literal.front htext with ⟨c, cs, p, hchars, hp, hpiece, hcontent⟩
  rcases h (line + Text.lineBreaks p.text) with ⟨us, hscanned, hus⟩
  have htoken := token_segment (line + Text.lineBreaks p.text) p
  have hdiagnostic := diagnostic_segment (line + Text.lineBreaks p.text) p
  rw [hcontent, hpiece] at htoken hdiagnostic
  have hall := Scanned.cons hp hscanned
  rw [hpiece, ← htoken, ← hdiagnostic] at hall
  rw [hchars]
  refine ⟨_, hall, ?_⟩
  simp [Segment.token?, Token.unplaced, Token.scanned, hus, ht.lexeme]

/-- The lexemes of some tokens, with a blank behind each of them that is not the last one. Behind
the last one of the tokens, there may be the empty lexeme of an end token. -/
theorem spaced (hts : ∀ t ∈ ts, t.IsLexeme) {stop : List (List Char)}
    (hstop : stop = [] ∨ stop = [[]]) :
    Rescans ts ([' '].intercalate (ts.map (·.text.toList) ++ stop)) := by
  induction ts with
  | nil =>
      rcases hstop with rfl | rfl
      · exact .nil
      · exact .nil
  | cons t ts ih =>
      rcases List.forall_mem_cons.mp hts with ⟨ht, hts⟩
      rw [List.map_cons, List.cons_append]
      by_cases hlast : ts.map (·.text.toList) ++ stop = []
      · obtain rfl := List.map_eq_nil_iff.mp (List.append_eq_nil_iff.mp hlast).1
        rw [hlast, List.intercalate_singleton]
        simpa using Rescans.nil.lexeme ht (.inl rfl)
      · rw [List.intercalate_cons_of_ne_nil hlast, List.append_assoc]
        exact (ih hts).blank.lexeme ht (.inr ⟨_, rfl⟩)

end Rescans

/-! ## Texts of lexemes -/

/-- The lexemes of some tokens in a row, with a blank between them. -/
def spaced (ts : List Token) : String := " ".intercalate (ts.map text)

theorem toList_spaced (ts : List Token) :
    (spaced ts).toList = [' '].intercalate (ts.map (·.text.toList)) := by
  rw [spaced, String.toList_intercalate, List.map_map]
  rfl

/-- The text is scanned without an error into the tokens, up to their lines. What is read from them,
and what is reported, is the same up to lines as from the tokens themselves. -/
structure Restates (ts : List Token) (text : String) (r : Report) : Prop where
  silent : (Token.scan text r).2 = r
  tokens : (Token.scan text r).1.map unplaced = ts.map unplaced
  statements : (Descent.read (Token.scan text r).1 r).1.map Node.unplaced =
    (Descent.read ts r).1.map Node.unplaced
  reports : ∃ ds es, (Descent.read ts r).2 = r.addAll ds ∧
    (Descent.read (Token.scan text r).1 r).2 = r.addAll es ∧
    es.map Diagnostic.unplaced = ds.map Diagnostic.unplaced

theorem Rescans.restates {ts : List Token} {text : String} (h : Rescans ts text.toList)
    (line : Int) (r : Report) : Restates (ts ++ [.scanned .eof "" .nil line]) text r := by
  rcases Token.scan_scanned text r with ⟨us, ds, hscanned, -, hscan⟩
  rcases h 1 with ⟨us', hscanned', hus⟩
  obtain ⟨rfl, rfl⟩ := hscanned.unique hscanned'
  have htokens : (Token.scan text r).1.map unplaced =
      (ts ++ [Token.scanned .eof "" .nil line]).map unplaced := by
    rw [hscan, List.map_append, List.map_append, hus]
    rfl
  have hend : ∃ t ∈ ts ++ [Token.scanned .eof "" .nil line], t.kind = .eof :=
    ⟨_, List.mem_append_right _ List.mem_cons_self, rfl⟩
  rcases Descent.read_unplaced htokens hend r with ⟨hstatements, hreports⟩
  exact ⟨by rw [hscan, Report.addAll_nil], htokens, hstatements, hreports⟩

/-- The lexemes of the tokens of any text, broken or not, with single blanks between them, are
scanned without an error into tokens of the same kinds, lexemes and literals. From these tokens the
same statements are read and the same errors are reported, on other lines. It does not matter
whether the end token, whose lexeme is empty, is one of those in the row. -/
theorem scan_spaced (source : String) (r : Report) :
    Restates (Token.scan source r).1 (spaced (Token.scan source r).1) r ∧
      Restates (Token.scan source r).1 (spaced (Token.scan source r).1.dropLast) r := by
  rcases Token.scan_scanned source r with ⟨ts, ds, hscanned, -, hscan⟩
  rcases divides_of_scanned hscanned with ⟨ss, hdivides, rfl, -⟩
  have hlexemes := isLexeme_of_divides hdivides 1
  rw [hscan, List.dropLast_concat]
  constructor
  · refine Rescans.restates ?_ _ r
    rw [toList_spaced, List.map_append]
    exact Rescans.spaced hlexemes (.inr rfl)
  · refine Rescans.restates ?_ _ r
    rw [toList_spaced, ← List.append_nil (List.map _ _)]
    exact Rescans.spaced hlexemes (.inl rfl)

/-- Marks that would grow together, a comment, and a text over two lines. -/
example : spaced (Token.scan "a!\n=@\"b //\nc\"1" {}).1 = "a ! = \"b //\nc\" 1 " := by
  rfl

end Token

end NovaLang
