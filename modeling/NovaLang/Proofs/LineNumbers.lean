import NovaLang.Proofs.LexicalGrammar

namespace NovaLang

/-! # Line numbers

A token carries the line that its lexeme ends on, and an error the line that it lies on, counted
by the line breaks of the source text up to there. So what is scanned behind a line break is
scanned as if the text began there, on a later line.
-/

/-! ## Lines of a division -/

/-- The line that a text ends on. -/
def Text.lastLine (cs : List Char) : Int := 1 + lineBreaks cs

@[simp] theorem Text.lastLine_append (cs ds : List Char) :
    lastLine (cs ++ ds) = lastLine cs + lineBreaks ds := by
  rw [lastLine, lastLine, lineBreaks_append]
  push_cast
  omega

namespace Lexical

open Text (lastLine)

/-- The segments of a text, each with the text in front of it. -/
def located : (front : List Char) → List Segment → List (List Char × Segment)
  | _, [] => []
  | front, s :: ss => (front, s) :: located (front ++ s.text) ss

/-- The token of a segment that stands behind a text: its line is the one that its lexeme
ends on. -/
def tokenAt (p : List Char × Segment) : Option Token :=
  match p.2.content with
  | .token k v => some (.scanned k (String.ofList p.2.text) v (lastLine (p.1 ++ p.2.text)))
  | _ => none

/-- The static error of a segment that stands behind a text: a text that is not closed is
reported on the last line of the source, all else on the line where it stands. -/
def diagnosticAt (source : List Char) (p : List Char × Segment) : Option Diagnostic :=
  match p.2.content with
  | .error .unterminatedString => some ⟨.line (lastLine source), .unterminatedString⟩
  | .error complaint => some ⟨.line (lastLine p.1), complaint⟩
  | _ => none

/-- The tokens of the segments, each at the last line of the text up to it. -/
theorem tokens_located (front : List Char) (ss : List Segment) :
    tokens (lastLine front) ss = (located front ss).filterMap tokenAt := by
  induction ss generalizing front with
  | nil => rfl
  | cons s ss ih =>
      have htoken : s.token? (lastLine (front ++ s.text)) = tokenAt (front, s) := rfl
      rw [tokens, located, List.filterMap_cons, ← Text.lastLine_append, ih, htoken]
      cases tokenAt (front, s) <;> rfl

/-- The same for the reports. -/
theorem diagnostics_located {text : List Char} {ss : List Segment} (h : Divides text ss)
    (front : List Char) :
    diagnostics (lastLine front) ss =
      (located front ss).filterMap (diagnosticAt (front ++ text)) := by
  induction h generalizing front with
  | nil => rfl
  | @cons text rest content ss hbegins hrest ih =>
      have hhere : (⟨text, content⟩ : Segment).diagnostic? (lastLine (front ++ text)) =
          diagnosticAt (front ++ (text ++ rest)) (front, ⟨text, content⟩) := by
        cases hbegins with
        | token | blank | comment => rfl
        | @stray c rest _ hblank =>
            -- a stray character is no line break
            have hbreaks : Text.lineBreaks [c] = 0 := by
              rw [Text.lineBreaks, List.count_singleton, if_neg]
              simp only [blanks, List.mem_cons, List.not_mem_nil, or_false, not_or] at hblank
              simpa using hblank.2.2.2
            rw [Text.lastLine_append, hbreaks, Nat.cast_zero, add_zero]
            rfl
        | unclosed => rw [List.append_nil]; rfl
      rw [diagnostics, located, List.filterMap_cons, ← Text.lastLine_append, hhere, ih,
        List.append_assoc]
      cases diagnosticAt (front ++ (text ++ rest)) (front, ⟨text, content⟩) <;> rfl

/-- A located segment lies in the text where it is said to lie. -/
theorem prefix_of_located {ss : List Segment} {front : List Char} {p : List Char × Segment}
    (hp : p ∈ located front ss) : p.1 ++ p.2.text <+: front ++ ss.flatMap Segment.text := by
  induction ss generalizing front with
  | nil => cases hp
  | cons s ss ih =>
      rw [List.flatMap_cons, ← List.append_assoc]
      rcases List.mem_cons.mp hp with rfl | hp
      · exact List.prefix_append _ _
      · exact ih hp

/-- The one division of a text into segments gives the lines of all that is scanned. A token has
the line that its lexeme ends on, and the end token the last one. What is no part of a lexeme is
reported on its own line, and a text without a closing mark on the last one. -/
theorem scan_lines (source : String) (r : Report) :
    ∃ ss, (∀ ss', Divides source.toList ss' ↔ ss' = ss) ∧
      (∀ p ∈ located [] ss, p.1 ++ p.2.text <+: source.toList) ∧
      Token.scan source r =
        ((located [] ss).filterMap tokenAt ++
            [.scanned .eof "" .nil (lastLine source.toList)],
          r.addAll ((located [] ss).filterMap (diagnosticAt source.toList))) := by
  rcases Token.scan_scanned source r with ⟨ts, ds, hscanned, -, hscan⟩
  rcases divides_of_scanned hscanned with ⟨ss, hdivides, rfl, rfl⟩
  have htokens := tokens_located [] ss
  have hdiagnostics := diagnostics_located hdivides []
  -- the division is unique, so it is the one that the scanner finds
  refine ⟨ss, fun ss' => ⟨fun h => h.unique hdivides, ?_⟩, fun p hp => ?_, ?_⟩
  · rintro rfl
    exact hdivides
  · have hprefix := prefix_of_located hp
    rwa [List.nil_append, hdivides.flatMap_text] at hprefix
  · change tokens 1 ss = _ at htokens
    change diagnostics 1 ss = _ at hdiagnostics
    rw [hscan, htokens, hdiagnostics]
    rfl

end Lexical

/-! ## Later lines -/

/-- The token some lines later. -/
def Token.later (k : Int) (t : Token) : Token :=
  match t.line with
  | .int line => { t with line := .int (line + k) }
  | _ => t

/-- The static error some lines later. -/
def Diagnostic.later (k : Int) (d : Diagnostic) : Diagnostic :=
  match d.place with
  | .line n => { d with place := .line (n + k) }
  | .token t => { d with place := .token (t.later k) }
  | _ => d

namespace Token

/-- A run without line breaks ends at the seam at the latest. -/
theorem takeWhile_seam {p : Char → Bool} (hp : p '\n' = false) (cs ds : List Char) :
    (cs ++ '\n' :: ds).takeWhile p = cs.takeWhile p ∧
      (cs ++ '\n' :: ds).dropWhile p = cs.dropWhile p ++ '\n' :: ds := by
  induction cs with
  | nil => simp [hp]
  | cons c cs ih =>
      by_cases hc : p c = true
      · simp [hc, ih]
      · simp [hc]

/-- So does a number. -/
theorem numberTail_seam (cs ds : List Char) :
    numberTail (cs ++ '\n' :: ds) = ((numberTail cs).1, (numberTail cs).2 ++ '\n' :: ds) := by
  rcases takeWhile_seam (p := isDigit) (by decide) cs ds with ⟨htake, hdrop⟩
  unfold numberTail
  rw [htake, hdrop]
  -- a point at the end of the first text has the line break behind it, which is no digit
  rcases cs.dropWhile isDigit with _ | ⟨c, _ | ⟨d, rest⟩⟩
  · rfl
  · by_cases hc : c = '.'
    · subst hc
      rfl
    · simp [hc]
  · by_cases hc : c = '.'
    · subst hc
      rcases takeWhile_seam (p := isDigit) (by decide) (d :: rest) ds with ⟨htake', hdrop'⟩
      rw [List.cons_append] at htake' hdrop'
      simp only [List.cons_append, htake', hdrop']
      split
      · rfl
      · rfl
    · simp [hc]

/-- A string that is closed before the seam stays as it is. -/
theorem quotedTail_seam {cs : List Char} (h : (quotedTail cs).1 ≠ .unclosed) (ds : List Char) :
    quotedTail (cs ++ ds) =
      ((quotedTail cs).1, (quotedTail cs).2.1, (quotedTail cs).2.2 ++ ds) := by
  revert h
  unfold quotedTail
  rw [List.dropWhile_append, List.takeWhile_append]
  cases hrest : cs.dropWhile (· != '"') with
  | nil => exact fun h => absurd rfl h
  | cons mark rest =>
      intro _
      -- the closing mark is not taken, so the characters are not all taken
      have hlength : (cs.takeWhile (· != '"')).length ≠ cs.length := by
        intro hlength
        have hsplit := congrArg List.length
          (List.takeWhile_append_dropWhile (p := (· != '"')) (l := cs))
        rw [List.length_append, hlength, hrest, List.length_cons] at hsplit
        omega
      rw [if_neg hlength]
      rfl

/-- A piece that is not an unclosed text ends before the next line. -/
theorem nextPiece_seam {c : Char} {cs : List Char} (h : (nextPiece c cs).1.shape ≠ .unclosed)
    (ds : List Char) :
    nextPiece c (cs ++ '\n' :: ds) =
      ((nextPiece c cs).1, (nextPiece c cs).2 ++ '\n' :: ds) := by
  revert h
  unfold nextPiece
  -- the cases are those of `nextPiece`, and each looks one character ahead at most
  cases soleMark? c with
  | some kind => exact fun _ => rfl
  | none =>
      cases pairedMark? c with
      | some marks =>
          intro _
          dsimp only
          rcases cs with _ | ⟨d, cs⟩
          · rfl
          · by_cases hd : d = '='
            · subst hd
              rfl
            · simp [hd]
      | none =>
          dsimp only
          split
          · intro _
            rcases cs with _ | ⟨d, cs⟩
            · rfl
            · by_cases hd : d = '/'
              · subst hd
                rcases takeWhile_seam (p := (· != '\n')) (by decide) cs ds with ⟨htake, hdrop⟩
                simp only [List.cons_append, commentTail, htake, hdrop]
              · simp [hd]
          split
          · exact fun _ => rfl
          split
          · intro hquoted
            rw [quotedTail_seam hquoted]
          split
          · rw [numberTail_seam]
            exact fun _ => rfl
          split
          · rcases takeWhile_seam (p := isAlphanumeric) (by decide) cs ds with ⟨htake, hdrop⟩
            simp only [wordTail, htake, hdrop, implies_true]
          · exact fun _ => rfl

/-- A token that starts some lines later is on a later line, ... -/
theorem token_later (k line : Int) (p : Piece) :
    p.token? (line + k) = (p.token? line).map (Token.later k) := by
  rcases p with ⟨shape, text⟩
  cases shape <;> rfl

/-- ... and so is a report. -/
theorem diagnostic_later (k line : Int) (p : Piece) :
    p.diagnostic? (line + k) = (p.diagnostic? line).map (Diagnostic.later k) := by
  rcases p with ⟨shape, text⟩
  cases shape <;> rfl

/-- Without a report of a string that is not closed, the piece is no such string. -/
theorem shape_of_diagnostic {line : Int} {p : Piece}
    (h : ∀ d ∈ p.diagnostic? line, d.complaint ≠ .unterminatedString) : p.shape ≠ .unclosed := by
  intro hshape
  exact h ⟨.line line, .unterminatedString⟩ (by rw [Piece.diagnostic?, hshape]; rfl) rfl

/-- A text that begins later has the same tokens and the same errors later. -/
theorem Scanned.later {line : Int} {cs : List Char} {ts : List Token} {ds : List Diagnostic}
    (h : Scanned line cs ts ds) (k : Int) :
    Scanned (line + k) cs (ts.map (Token.later k)) (ds.map (Diagnostic.later k)) := by
  induction h with
  | nil => exact .nil
  | @cons line c cs rest p ts ds hp _ ih =>
      have hline : line + k + Text.lineBreaks p.text = line + Text.lineBreaks p.text + k := by omega
      have hscanned := Scanned.cons hp (hline ▸ ih)
      rw [hline, token_later, diagnostic_later] at hscanned
      simpa [Option.toList_map] using hscanned

/-- A text whose quoted texts are all closed and a text on the lines after it, scanned as one. -/
theorem Scanned.seam {line : Int} {cs cs' : List Char} {ts ts' : List Token}
    {ds ds' : List Diagnostic} (h : Scanned line cs ts ds)
    (hds : ∀ d ∈ ds, d.complaint ≠ .unterminatedString)
    (h' : Scanned (line + (1 + Text.lineBreaks cs)) cs' ts' ds') :
    Scanned line (cs ++ '\n' :: cs') (ts ++ ts') (ds ++ ds') := by
  induction h with
  | nil =>
      -- the line break is a piece without a token, and one line
      have hblank : nextPiece '\n' cs' = (⟨.blank, ['\n']⟩, cs') := rfl
      exact .cons hblank h'
  | @cons line c cs rest p ts ds hp _ ih =>
      rcases List.forall_mem_append.mp hds with ⟨hpiece, hrest⟩
      have happend := nextPiece_append c cs
      rw [hp] at happend
      have hlines : line + Text.lineBreaks p.text + (1 + Text.lineBreaks rest) =
          line + (1 + Text.lineBreaks (c :: cs)) := by
        rw [← happend, Text.lineBreaks_append]
        push_cast
        omega
      have hclosed : p.shape ≠ .unclosed :=
        shape_of_diagnostic fun d hd => hpiece d (Option.mem_toList.mpr hd)
      have hseam := @nextPiece_seam c cs (by rw [hp]; exact hclosed) cs'
      rw [hp] at hseam
      have hscanned := Scanned.cons hseam (ih hrest (hlines ▸ h'))
      rwa [← List.append_assoc, ← List.append_assoc] at hscanned

end Token

/-- Reports are added at the end. -/
theorem Report.diagnostics_addAll (r : Report) (ds : List Diagnostic) :
    (r.addAll ds).diagnostics = r.diagnostics ++ ds := by
  rw [diagnostics, entries_addAll, List.filterMap_append, List.filterMap_map]
  exact congrArg (r.diagnostics ++ ·) List.filterMap_some

/-- A text whose quoted texts are all closed and another text, with a line break between them,
are scanned one after the other: the tokens of the first one but its end token, then those of the
second one on their later lines, and the errors of both likewise. -/
theorem Token.scan_seam (first second : String) (r : Report)
    (hclosed : ∀ d ∈ (Token.scan first {}).2.diagnostics, d.complaint ≠ .unterminatedString) :
    (∃ stop, (Token.scan first {}).1.getLast? = some stop ∧ stop.kind = .eof) ∧
    Token.scan (first ++ "\n" ++ second) r =
      ((Token.scan first {}).1.dropLast ++
          (Token.scan second {}).1.map (Token.later (1 + Text.lineBreaks first.toList)),
        r.addAll ((Token.scan first {}).2.diagnostics ++
          (Token.scan second {}).2.diagnostics.map
            (Diagnostic.later (1 + Text.lineBreaks first.toList)))) := by
  rcases Token.scan_scanned first {} with ⟨ts, ds, hfirst, -, hscan⟩
  rcases Token.scan_scanned second {} with ⟨us, es, hsecond, -, hscan'⟩
  have hnone : ∀ ds, (Report.addAll {} ds).diagnostics = ds := Report.diagnostics_addAll {}
  rw [hscan, hnone] at hclosed
  rcases Token.scan_scanned (first ++ "\n" ++ second) r with ⟨vs, fs, hboth, -, hscan''⟩
  -- the second text is scanned as by itself, but on later lines
  have hseam := hfirst.seam hclosed (hsecond.later (1 + Text.lineBreaks first.toList))
  have htext : (first ++ "\n" ++ second).toList = first.toList ++ '\n' :: second.toList := by simp
  rw [htext] at hboth hscan''
  obtain ⟨rfl, rfl⟩ := hboth.unique hseam
  rw [hscan, hscan', hscan'', hnone, hnone]
  refine ⟨⟨_, List.getLast?_concat, rfl⟩, ?_⟩
  have hlast : (1 + Text.lineBreaks (first.toList ++ '\n' :: second.toList) : Int) =
      1 + Text.lineBreaks second.toList + (1 + Text.lineBreaks first.toList) := by
    have hbreak : Text.lineBreaks ('\n' :: second.toList) = Text.lineBreaks second.toList + 1 :=
      List.count_cons_self
    rw [Text.lineBreaks_append, hbreak]
    push_cast
    omega
  rw [hlast, List.dropLast_concat, List.map_append, List.append_assoc]
  rfl

/-- A text that ends in half a comment, behind a character that no token begins with. -/
def halfComment : String := "\"a\nb\" @ /"

theorem Token.scan_seam_halfComment :
    (∀ d ∈ (Token.scan halfComment {}).2.diagnostics, d.complaint ≠ .unterminatedString) ∧
      Token.scan (halfComment ++ "\n" ++ "/\n#") {} =
        ([.scanned .string "\"a\nb\"" (.text "a\nb") 2, .scanned .slash "/" .nil 2,
            .scanned .slash "/" .nil 3, .scanned .eof "" .nil 4],
          Report.addAll {} [⟨.line 2, .unexpectedCharacter⟩, ⟨.line 4, .unexpectedCharacter⟩]) := by
  have hclosed : ∀ d ∈ (Token.scan halfComment {}).2.diagnostics,
      d.complaint ≠ .unterminatedString := by
    decide +kernel
  refine ⟨hclosed, (Token.scan_seam halfComment "/\n#" {} hclosed).2.trans ?_⟩
  decide +kernel

end NovaLang
