import NovaLang.Proofs.Blanks
import NovaLang.Proofs.Refusal
import NovaLang.Shell

namespace NovaLang

open Grammar Lexical Token

/-! # Lines at the prompt

A line that is no command is run as the source text that it is without the blanks around it.
So is a statement that begins with `help` or `exit`: it is run with one blank behind that word,
and the front ends cannot tell the one blank from what stood there, as long as that is made of
blanks of the language. A blank that is not one of the language is left out without the error
that it is. A line that begins with the word `EOF` is never run, whatever stands behind the word.
-/

/-! ## Counted errors -/

namespace Descent

/-- What has been reported before makes no difference to the number of errors reported. -/
theorem read_errorCount {tokens : List Token} (hend : ∃ t ∈ tokens, t.kind = .eof) (r r' : Report) :
    ∃ n, (read tokens r).2.errorCount = r.errorCount + n ∧
      (read tokens r').2.errorCount = r'.errorCount + n := by
  rcases tokens with _ | ⟨t, rest⟩
  · rcases hend with ⟨t, hmem, -⟩
    cases hmem
  by_cases ht : t.kind = .eof
  · rw [read_end ht, read_end ht]
    exact ⟨0, rfl, rfl⟩
  have hmove : ∀ r, (⟨[], t :: rest, r⟩ : Cursor).Movable := fun r => .inr (by simpa using ht)
  -- both runs see the same tokens, so they report the same
  have htwins : Twins id ⟨[], t :: rest, r⟩ ⟨[], t :: rest, r'⟩ :=
    ⟨(List.map_id _).symm, hend, hmove r, hmove r'⟩
  have houtcomes := program_parallel .id _ _ htwins
  unfold read
  revert houtcomes
  rcases program.run ⟨[], t :: rest, r⟩ with ⟨o, c⟩
  rcases program.run ⟨[], t :: rest, r'⟩ with ⟨o', c'⟩
  have hcount : ∀ {c c' : Cursor} {ts : List Token} {ds : List Diagnostic},
      Abreast id ⟨[], t :: rest, r⟩ ⟨[], t :: rest, r'⟩ c c' ts ds →
      c.report.errorCount = r.errorCount + ds.length ∧
        c'.report.errorCount = r'.errorCount + ds.length := by
    intro c c' ts ds habreast
    rw [habreast.first.report, habreast.second.report, Report.errorCount_addAll,
      Report.errorCount_addAll, List.length_map]
    exact ⟨rfl, rfl⟩
  rintro (⟨-, habreast⟩ | ⟨habreast⟩)
  · exact ⟨_, hcount habreast⟩
  · exact ⟨_, hcount habreast⟩

end Descent

namespace Session

/-- Running a text without a static error adds no static error. -/
theorem errorCount_interpret (s : Session) (rounds : Nat) (ss : List Node) :
    (s.interpret rounds ss).2.report.errorCount = s.report.errorCount := by
  rw [interpret_eq]
  rcases (Eval.runProgram rounds ss).run s.machine with ⟨(e | f | _) | _, m⟩
  all_goals rfl

/-- After a run as many errors are known as the front end has found. -/
theorem errorCount_runSource (s : Session) (rounds : Nat) (f : FrontEnd) (source : String) :
    (s.runSource rounds f source).2.report.errorCount =
      (f.read source s.report).2.errorCount := by
  unfold runSource
  dsimp only
  split
  · rfl
  · rw [errorCount_interpret]

end Session

/-! ## Commands in front of a text -/

namespace Shell

/-- The words that begin commands but may also begin statements. -/
def commandWords : List (List Char) := ["help".toList, "exit".toList]

/-- Each of them is a name of the language. -/
theorem commandWords_name {w : List Char} (hw : w ∈ commandWords) :
    ∃ c cs, w = c :: cs ∧ isAlpha c = true ∧ (∀ d ∈ cs, isAlphanumeric d = true) ∧
      Kind.ofWord (String.ofList w) = .identifier := by
  simp only [commandWords, List.mem_cons, List.not_mem_nil, or_false] at hw
  rcases hw with rfl | rfl
  · exact ⟨'h', ['e', 'l', 'p'], rfl, by decide, List.all_eq_true.mp (by decide),
      by rw [String.ofList_toList]; decide⟩
  · exact ⟨'e', ['x', 'i', 't'], rfl, by decide, List.all_eq_true.mp (by decide),
      by rw [String.ofList_toList]; decide⟩

variable {w bs x : List Char}

/-- The word, some blanks and a text are scanned as the word and the text are, with one more
error for each blank that is none of the language. One blank of the language is no error. -/
theorem descent_read_command (hw : w ∈ commandWords) (hx : '\n' ∉ x) :
    ∃ ts ds, (∃ t ∈ ts, t.kind = .eof) ∧
      (∀ bs : List Char, (∀ b ∈ bs, Text.isBlank b = true ∧ b ≠ '\n') →
        (bs ++ x).head?.any isAlphanumeric = false → ∀ r,
        FrontEnd.descent.read (String.ofList (w ++ (bs ++ x))) r =
          Descent.read ts (r.addAll (strays bs ++ ds))) ∧
      ∀ r, FrontEnd.descent.read (spaced w x) r = Descent.read ts (r.addAll ds) := by
  obtain ⟨ts, ds, hscanned, -⟩ := Token.scan_scanned (String.ofList x) {}
  rw [String.toList_ofList] at hscanned
  obtain ⟨c, cs, rfl, hc, hcs, -⟩ := commandWords_name hw
  have hword : ∀ d ∈ c :: cs, isAlphanumeric d = true :=
    List.forall_mem_cons.mpr ⟨by simp [isAlphanumeric, hc], hcs⟩
  have hplain : Text.lineBreaks (c :: cs) = 0 :=
    lineBreaks_eq_zero.mpr fun d hd => ne_of_isAlphanumeric (hword d hd)
  have hspace : ∀ b ∈ [' '], Text.isBlank b = true ∧ b ≠ '\n' := by
    simp [isBlank_of_mem_blanks ' ' List.mem_cons_self]
  -- the single blank of the respaced line is one of the gaps
  suffices hread : ∀ bs : List Char, (∀ b ∈ bs, Text.isBlank b = true ∧ b ≠ '\n') →
      (bs ++ x).head?.any isAlphanumeric = false → ∀ r,
      FrontEnd.descent.read (String.ofList (c :: cs ++ (bs ++ x))) r =
        Descent.read
          ((Piece.token? 1 ⟨.word, c :: cs⟩).toList ++ ts ++ [.scanned .eof "" .nil 1])
          (r.addAll (strays bs ++ ds)) from
    ⟨_, ds, ⟨.scanned .eof "" .nil 1, by simp, rfl⟩, hread, hread [' '] hspace rfl⟩
  intro bs hbs hhead r
  have hrest : ∀ d ∈ (bs ++ x).head?, isAlphanumeric d = false :=
    (Option.any_eq_false _ _).mp hhead
  have hpiece : nextPiece c (cs ++ (bs ++ x)) = (⟨.word, c :: cs⟩, bs ++ x) := by
    rcases span_append hcs (bs ++ x) hrest with ⟨htake, hdrop⟩
    rw [nextPiece_alpha hc, wordTail, htake, hdrop]
  -- the word, then a stray character for each blank that the scanner does not know
  have hall := Scanned.cons_plain hpiece hplain (scanned_blanks hbs hscanned)
  have hbreaks : Text.lineBreaks (c :: cs ++ (bs ++ x)) = 0 := by
    rw [lineBreaks_eq_zero]
    intro d hd
    rcases List.mem_append.mp hd with hd | hd
    · exact ne_of_isAlphanumeric (hword d hd)
    · rcases List.mem_append.mp hd with hd | hd
      · exact (hbs d hd).2
      · rintro rfl
        exact hx hd
  rw [FrontEnd.descent_read_eq (by rw [String.toList_ofList]; exact hall), String.toList_ofList,
    hbreaks]
  rfl

/-- Where names are accepted, the word is one, and elsewhere it is an error. -/
theorem nextLexeme_command {kinds : List Kind} {w cs : List Char} (hw : w ∈ commandWords)
    (hcs : cs.head?.any isAlphanumeric = false) :
    nextLexeme kinds 1 (w ++ cs) =
      if Kind.identifier ∈ kinds then .lexeme ⟨.identifier, w, 1⟩ cs
      else .error 1 (.unexpected (String.ofList w)) := by
  have hkeyword : ∀ e ∈ keywords, ∀ w ∈ commandWords,
      ¬ e.1.toList <+: w ∧ ¬ w <+: e.1.toList := by decide
  obtain ⟨c, ds, rfl, hc, hds, hname⟩ := commandWords_name hw
  have hrest : ∀ d ∈ cs.head?, isAlphanumeric d = false := (Option.any_eq_false _ _).mp hcs
  have htail : (wordTail (ds ++ cs)).1 = ds := (span_append hds cs hrest).1
  have hfront : ∀ kinds : List Kind, Kind.identifier ∈ kinds →
      lexemeAt? kinds (c :: (ds ++ cs)) = some (.identifier, c :: ds) := by
    intro kinds hmem
    rw [lexemeAt_word hc (by rw [htail]; exact hname) hmem (by decide), htail]
  have hlead : c ∉ leads := notMem_leads_of_isAlphanumeric (by simp [isAlphanumeric, hc])
  simp only [leads, List.mem_cons, List.not_mem_nil, not_or] at hlead
  have hskip : skip false 1 (c :: (ds ++ cs)) = (1, c :: (ds ++ cs)) := by
    simp [skip, hlead]
  rw [List.cons_append, nextLexeme, hskip]
  by_cases hmem : Kind.identifier ∈ kinds
  · rw [if_pos hmem]
    simp only [hfront kinds hmem]
    rw [← List.cons_append, List.drop_left]
  · have hnone : lexemeAt? kinds (c :: (ds ++ cs)) = none := by
      rw [lexemeAt?, if_pos hc, if_neg (by simpa using hmem), Option.eq_none_iff_forall_ne_some]
      rintro ⟨k, text⟩ hfixed
      obtain ⟨e, he, -, -, hstart⟩ := fixedAt_eq_some hfixed
      -- one of the keyword and the word would begin with the other
      rcases List.prefix_or_prefix_of_prefix hstart (List.prefix_append (c :: ds) cs) with h | h
      · exact (hkeyword _ he _ hw).1 h
      · exact (hkeyword _ he _ hw).2 h
    rw [if_neg hmem]
    simp only [hnone, complaintAt, hfront terminals (by decide)]

variable {w bs x : List Char}

/-- An automaton reads the word and blanks of the language like the word and one blank. -/
theorem automaton_read_command (a : Automaton) (last : Int) (hw : w ∈ commandWords)
    (hbs : ∀ b ∈ bs, b ∈ blanks ∧ b ≠ '\n') (hhead : (bs ++ x).head?.any isAlphanumeric = false)
    {count count' : Nat} (hcount : (w ++ (bs ++ x)).length < count)
    (hcount' : (w ++ ' ' :: x).length < count') :
    a.read last count [] 1 (w ++ (bs ++ x)) = a.read last count' [] 1 (w ++ ' ' :: x) := by
  have hspace : ∀ b ∈ [' '], b ∈ blanks ∧ b ≠ '\n' := by simp [blanks]
  rw [List.length_append] at hcount hcount'
  obtain ⟨count, rfl⟩ : ∃ n, count = n + 1 := ⟨count - 1, by omega⟩
  obtain ⟨count', rfl⟩ : ∃ n, count' = n + 1 := ⟨count' - 1, by omega⟩
  have hpos : 0 < w.length := by
    obtain ⟨c, cs, rfl, -⟩ := commandWords_name hw
    exact Nat.succ_pos _
  have hspaced : (' ' :: x).head?.any isAlphanumeric = false := rfl
  rw [Automaton.read, Automaton.read, nextLexeme_command hw hhead, nextLexeme_command hw hspaced]
  -- a command is read as a name, if a name may stand there
  by_cases hmem : Kind.identifier ∈ a.accepted (Stack.state [])
  · rw [if_pos hmem, if_pos hmem]
    dsimp only
    cases a.offer .identifier (Stack.bound []) [] with
    | shift s q =>
        have hroom : (bs ++ x).length < count := by omega
        have hroom' : ([' '] ++ x).length < count' := by
          have hcons : ([' '] ++ x).length = (' ' :: x).length := rfl
          omega
        exact (a.read_blanks last hbs hroom).trans (a.read_blanks last hspace hroom').symm
    | done | refused => rfl
  · rw [if_neg hmem, if_neg hmem]

/-- Neither front end can tell blanks of the language behind the word from one blank. -/
theorem read_command (hw : w ∈ commandWords) (hx : '\n' ∉ x)
    (hbs : ∀ b ∈ bs, b ∈ blanks ∧ b ≠ '\n')
    (hhead : (bs ++ x).head?.any isAlphanumeric = false) (f : FrontEnd) (r : Report) :
    f.read (String.ofList (w ++ (bs ++ x))) r = f.read (spaced w x) r := by
  cases f with
  | descent =>
      obtain ⟨ts, ds, -, hread, hspaced⟩ := descent_read_command hw hx
      have hblank : ∀ b ∈ bs, Text.isBlank b = true ∧ b ≠ '\n' :=
        fun b hb => ⟨isBlank_of_mem_blanks b (hbs b hb).1, (hbs b hb).2⟩
      rw [hread bs hblank hhead, strays_eq_nil.mpr fun b hb => (hbs b hb).1, hspaced]
      rfl
  -- the grammar skips the same blanks
  | grammar =>
      have hlines : Text.lineBreaks (w ++ (bs ++ x)) = Text.lineBreaks (w ++ ' ' :: x) := by
        have hbreaks : Text.lineBreaks bs = 0 := lineBreaks_eq_zero.mpr fun b hb => (hbs b hb).2
        rw [Text.lineBreaks_append, Text.lineBreaks_append, Text.lineBreaks_append, hbreaks,
          lineBreaks_cons (by decide), Nat.zero_add]
      have htree : Tree.ofSource (String.ofList (w ++ (bs ++ x))) = Tree.ofSource (spaced w x) := by
        unfold Tree.ofSource spaced
        dsimp only
        rw [String.toList_ofList, String.toList_ofList, hlines]
        exact automaton_read_command lalr _ hw hbs hhead (Nat.lt_succ_self _) (Nat.lt_succ_self _)
      simp only [FrontEnd.read, Grammar.read, htree]

/-! ## Lines -/

/-- The line without the blanks around it. -/
def stripped (line : String) : List Char := Text.trim line.toList

/-- The word that a text begins with. -/
def command (cs : List Char) : List Char := cs.takeWhile isAlphanumeric

/-- The blanks behind that word. -/
def gap (cs : List Char) : List Char := (cs.dropWhile isAlphanumeric).takeWhile Text.isBlank

/-- What stands behind the word and the blanks. -/
def operand (cs : List Char) : List Char := (cs.dropWhile isAlphanumeric).dropWhile Text.isBlank

/-- A text that is run as it stands: it does not begin with the word of the end of the input, and
behind a word that begins commands it has only blanks of the language. -/
def Plain (cs : List Char) : Prop :=
  command cs ≠ "EOF".toList ∧ (command cs ∈ commandWords → ∀ b ∈ gap cs, b ∈ blanks)

/-- The answer to the line is to forget earlier errors and to run the source text. The prompt is
not left. -/
def RunsAs (s : Shell) (rounds : Nat) (line source : String) : Prop :=
  s.answer rounds line =
    ((s.session.reset.runChosen rounds s.frontEnd source).1.map fun _ => false,
      { s with session := (s.session.reset.runChosen rounds s.frontEnd source).2 })

/-- A line that asks for a run is run. -/
theorem runsAs_of_request {line source : String} (h : request line = .run source) (s : Shell)
    (rounds : Nat) : RunsAs s rounds line source := by
  rw [RunsAs, answer, h]
  dsimp only [runLine]
  rcases s.session.reset.runChosen rounds s.frontEnd source with ⟨_ | _, session⟩
  all_goals rfl

/-- A line is its command, the gap behind it and the rest. -/
theorem append_parts (cs : List Char) : command cs ++ (gap cs ++ operand cs) = cs := by
  rw [gap, operand, List.takeWhile_append_dropWhile, command, List.takeWhile_append_dropWhile]

variable {line : String} {c : Char} {cs : List Char}

/-- A stripped line ends in no blank, ... -/
theorem getLast_stripped (line : String) : ∀ c ∈ (stripped line).getLast?, Text.isBlank c = false :=
  Text.getLast_trimWhere Text.isBlank line.toList

/-- ... and it has no line break, if the line has none. -/
theorem notMem_stripped (hline : '\n' ∉ line.toList) : '\n' ∉ stripped line :=
  fun h => hline (Text.trimWhere_subset Text.isBlank line.toList h)

/-- Only a text that is a word alone has nothing behind its first word. -/
theorem command_eq_self (hlast : ∀ c ∈ cs.getLast?, Text.isBlank c = false)
    (h : operand cs = []) : command cs = cs := by
  have hparts := append_parts cs
  rw [h, List.append_nil] at hparts
  rcases List.eq_nil_or_concat (gap cs) with hnil | ⟨us, b, hconcat⟩
  · rwa [hnil, List.append_nil] at hparts
  · -- the last blank would be the last character of the text
    have hblank : Text.isBlank b = true := by
      have hmem : b ∈ gap cs := by rw [hconcat]; simp
      exact List.mem_takeWhile_imp hmem
    have hmem : b ∈ cs.getLast? := by
      rw [← hparts, hconcat]
      simp
    rw [hlast b hmem] at hblank
    cases hblank

/-- The request of a line by the word that it begins with. -/
theorem request_eq (hline : stripped line = c :: cs) (hbang : c ≠ '!') (hquery : c ≠ '?') :
    request line =
      if command (c :: cs) = "help".toList then
        if (operand (c :: cs)).isEmpty then .help
        else .run (spaced (command (c :: cs)) (operand (c :: cs)))
      else if command (c :: cs) = "exit".toList then
        if (operand (c :: cs)).isEmpty then .exit
        else .run (spaced (command (c :: cs)) (operand (c :: cs)))
      else if command (c :: cs) = "EOF".toList then .endOfInput
      else .run (String.ofList (c :: cs)) := by
  have hlast : ∀ d ∈ ((c :: cs).dropWhile isAlphanumeric).getLast?, Text.isBlank d = false := by
    intro d hd
    refine getLast_stripped line d ?_
    rw [hline, ← List.takeWhile_append_dropWhile (p := isAlphanumeric) (l := c :: cs),
      List.getLast?_append, hd]
    rfl
  -- the line was stripped, so there is nothing to strip behind the operand
  have htrim : Text.trim ((c :: cs).dropWhile isAlphanumeric) = operand (c :: cs) :=
    Text.trimWhere_of_getLast hlast
  have hline' : Text.trim line.toList = c :: cs := hline
  rw [request, hline']
  dsimp only
  rw [if_neg hbang, if_neg hquery, htrim]
  rfl

/-- A line with a command does not start with a mark. -/
theorem ne_of_command (h : command (c :: cs) ≠ []) : c ≠ '!' ∧ c ≠ '?' := by
  have hc : isAlphanumeric c = true := by
    by_contra hc
    exact h (List.takeWhile_cons_of_neg hc)
  constructor
  · rintro rfl
    exact absurd hc (by decide)
  · rintro rfl
    exact absurd hc (by decide)

/-- A statement that begins with a word of a command is run with one blank behind the word. -/
theorem request_command (hw : command (stripped line) ∈ commandWords)
    (hne : stripped line ∉ commandWords) :
    request line = .run (spaced (command (stripped line)) (operand (stripped line))) := by
  -- the line is not the word alone
  have hoperand : (operand (stripped line)).isEmpty = false := by
    rw [Bool.eq_false_iff, Ne, List.isEmpty_iff]
    intro hnil
    exact hne (command_eq_self (getLast_stripped line) hnil ▸ hw)
  cases hline : stripped line with
  | nil =>
      rw [hline] at hw
      exact absurd hw (by decide)
  | cons c cs =>
      rw [hline] at hw hoperand
      have hword : command (c :: cs) ≠ [] := by
        intro hnil
        rw [hnil] at hw
        exact absurd hw (by decide)
      rcases ne_of_command hword with ⟨hbang, hquery⟩
      rw [request_eq hline hbang hquery, hoperand]
      simp only [commandWords, List.mem_cons, List.not_mem_nil, or_false] at hw
      rcases hw with hw | hw
      · rw [if_pos hw]
        rfl
      · rw [if_neg (by rw [hw]; decide), if_pos hw]
        rfl

/-- Whatever stands behind the word, it ends the input. -/
theorem request_end (h : command (stripped line) = "EOF".toList) :
    request line = .endOfInput := by
  cases hline : stripped line with
  | nil =>
      rw [hline] at h
      exact absurd h (by decide)
  | cons c cs =>
      rw [hline] at h
      rcases ne_of_command (by rw [h]; decide) with ⟨hbang, hquery⟩
      rw [request_eq hline hbang hquery, if_neg (by rw [h]; decide), if_neg (by rw [h]; decide),
        if_pos h]

/-- What begins with another word, or with none, is run as it stands. -/
theorem request_other (hne : stripped line ≠ []) (hquery : (stripped line).head? ≠ some '?')
    (h : command (stripped line) ∉ "EOF".toList :: commandWords) :
    request line = .run (String.ofList (stripped line)) := by
  simp only [commandWords, List.mem_cons, List.not_mem_nil, or_false, not_or] at h
  obtain ⟨c, cs, hline⟩ := List.exists_cons_of_ne_nil hne
  rw [hline] at h hquery ⊢
  by_cases hbang : c = '!'
  · have hline' : Text.trim line.toList = c :: cs := hline
    rw [request, hline']
    dsimp only
    rw [if_pos hbang]
  · rw [request_eq hline hbang (by simpa using hquery), if_neg h.2.1, if_neg h.2.2, if_neg h.1]

/-! ## Running lines -/

/-- Two texts that every front end reads alike are run alike. -/
theorem runChosen_congr {source source' : String}
    (h : ∀ (f : FrontEnd) r, f.read source r = f.read source' r) (s : Session) (rounds : Nat)
    (choice : FrontEnd.Choice) :
    s.runChosen rounds choice source = s.runChosen rounds choice source' := by
  cases choice with
  | known f => simp only [Session.runChosen, Session.runSource, h]
  | unknown shown => rfl

/-- The word for the end of input ends the shell, whatever is behind it. -/
theorem answer_end (h : command (stripped line) = "EOF".toList) (s : Shell) (rounds : Nat) :
    s.answer rounds line = (.ok true, s.say "") := by
  rw [answer, request_end h]

/-- What ends the input leaves the prompt, and is not run. -/
theorem not_runsAs_of_end {s : Shell} {rounds : Nat} {source : String}
    (h : command (stripped line) = "EOF".toList) : ¬ RunsAs s rounds line source := by
  intro hruns
  have hstop := congrArg Prod.fst ((answer_end h s rounds).symm.trans hruns)
  revert hstop
  cases (s.session.reset.runChosen rounds s.frontEnd source).1
  · exact nofun
  · exact nofun

/-- Behind the first word no letter and no digit follows. -/
theorem head_gap (cs : List Char) : (gap cs ++ operand cs).head?.any isAlphanumeric = false := by
  rw [gap, operand, List.takeWhile_append_dropWhile]
  have hhead := List.head?_dropWhile_not isAlphanumeric cs
  cases h : (cs.dropWhile isAlphanumeric).head? with
  | none => rfl
  | some c =>
      rw [h] at hhead
      simpa using hhead

/-- The gap is made of blanks. -/
theorem gap_isBlank (h : '\n' ∉ cs) : ∀ b ∈ gap cs, Text.isBlank b = true ∧ b ≠ '\n' := by
  intro b hb
  refine ⟨List.mem_takeWhile_imp hb, ?_⟩
  rintro rfl
  exact h (append_parts cs ▸ List.mem_append_right _ (List.mem_append_left _ hb))

/-- The operand has no line break. -/
theorem notMem_operand (h : '\n' ∉ cs) : '\n' ∉ operand cs := fun hmem =>
  h (append_parts cs ▸ List.mem_append_right _ (List.mem_append_right _ hmem))

/-- If a line is run as it stands and also with one blank behind its first word, then it has only
blanks of the language there: each other one would be one error more. -/
theorem gap_blanks {s : Shell} {rounds : Nat} (hs : s.frontEnd = .known .descent)
    (hw : command cs ∈ commandWords) (hcs : '\n' ∉ cs)
    (h : RunsAs s rounds line (String.ofList cs))
    (h' : RunsAs s rounds line (spaced (command cs) (operand cs))) :
    ∀ b ∈ gap cs, b ∈ blanks := by
  have hchosen : ∀ source, s.session.reset.runChosen rounds (.known .descent) source =
      s.session.reset.runSource rounds .descent source := fun _ => rfl
  rw [RunsAs, hs, hchosen] at h h'
  -- as many errors are known after one run as after the other
  have hcount := congrArg (fun answer => answer.2.session.report.errorCount) (h.symm.trans h')
  dsimp only at hcount
  rw [Session.errorCount_runSource, Session.errorCount_runSource] at hcount
  generalize s.session.reset.report = report at hcount
  obtain ⟨ts, ds, hend, hread, hspaced⟩ := descent_read_command hw (notMem_operand hcs)
  have hfirst := hread (gap cs) (gap_isBlank hcs) (head_gap cs) report
  rw [append_parts] at hfirst
  obtain ⟨n, hn, hn'⟩ := Descent.read_errorCount hend
    (report.addAll (strays (gap cs) ++ ds)) (report.addAll ds)
  rw [hfirst, hspaced, hn, hn', Report.errorCount_addAll, Report.errorCount_addAll,
    List.length_append] at hcount
  exact strays_eq_nil.mp (List.length_eq_zero_iff.mp (by omega))

/-- A shell at its start, reading by descent. -/
def atStart : Shell := ⟨Session.new Native.standard 0 0 {}, .known .descent⟩

/-- A line without a line break that is neither a command nor a question is run, and the prompt
is not left, just if it does not begin with the word of the end of the input and has no other
blanks than those of the language behind a word that begins commands. With the first it ends the
input, whatever follows; with the second it is run without the other blanks. -/
theorem runs_as_typed_iff (hline : '\n' ∉ line.toList) (hne : stripped line ≠ [])
    (hquery : (stripped line).head? ≠ some '?')
    (hcommand : stripped line ∉ "EOF".toList :: commandWords) :
    ((∀ s rounds, RunsAs s rounds line (String.ofList (stripped line))) ↔ Plain (stripped line)) ∧
    (command (stripped line) = "EOF".toList → ∀ (s : Shell) (rounds : Nat),
      s.answer rounds line = (.ok true, s.say "")) ∧
    (command (stripped line) ∈ commandWords → ∀ s rounds,
      RunsAs s rounds line (spaced (command (stripped line)) (operand (stripped line)))) := by
  have hspaced : command (stripped line) ∈ commandWords → ∀ s rounds,
      RunsAs s rounds line (spaced (command (stripped line)) (operand (stripped line))) :=
    fun hw => runsAs_of_request
      (request_command hw fun hmem => hcommand (List.mem_cons_of_mem _ hmem))
  have hplain := notMem_stripped hline
  refine ⟨⟨fun h => ⟨fun heof => ?_, fun hw => ?_⟩, ?_⟩, answer_end, hspaced⟩
  · exact not_runsAs_of_end heof (h atStart 0)
  · exact gap_blanks rfl hw hplain (h atStart 0) (hspaced hw atStart 0)
  · rintro ⟨heof, hgap⟩ s rounds
    -- with a command, the line is respaced, which no front end notices
    by_cases hw : command (stripped line) ∈ commandWords
    · have hread : ∀ (f : FrontEnd) r, f.read (String.ofList (stripped line)) r =
          f.read (spaced (command (stripped line)) (operand (stripped line))) r := by
        intro f r
        have hbs := gap_isBlank hplain
        rw [← read_command hw (notMem_operand hplain) (fun b hb => ⟨hgap hw b hb, (hbs b hb).2⟩)
          (head_gap _) f r, append_parts]
      rw [RunsAs, runChosen_congr hread]
      exact hspaced hw s rounds
    · exact runsAs_of_request (request_other hne hquery (by
        rw [List.mem_cons, not_or]
        exact ⟨heof, hw⟩)) s rounds

/-- A statement that begins with `help`, with a tab behind that word and blanks around it. -/
theorem runs_as_typed_help :
    '\n' ∉ " help\t= 1; ".toList ∧ stripped " help\t= 1; " ≠ [] ∧
      (stripped " help\t= 1; ").head? ≠ some '?' ∧
      stripped " help\t= 1; " ∉ "EOF".toList :: commandWords ∧
      (∀ s rounds, RunsAs s rounds " help\t= 1; " "help\t= 1;") ∧
      ∀ s rounds, RunsAs s rounds " help\t= 1; " "help = 1;" := by
  have hstripped : stripped " help\t= 1; " = "help\t= 1;".toList := by rfl
  have hline : '\n' ∉ " help\t= 1; ".toList := by decide
  have hne : stripped " help\t= 1; " ≠ [] := by rw [hstripped]; decide
  have hquery : (stripped " help\t= 1; ").head? ≠ some '?' := by rw [hstripped]; decide
  have hcommand : stripped " help\t= 1; " ∉ "EOF".toList :: commandWords := by
    rw [hstripped]
    decide
  rcases runs_as_typed_iff hline hne hquery hcommand with ⟨hiff, -, hspaced⟩
  rw [hstripped] at hiff hspaced
  have hword : command "help\t= 1;".toList = "help".toList := by rfl
  have hgap : gap "help\t= 1;".toList = ['\t'] := by rfl
  have hplain : Plain "help\t= 1;".toList := by
    refine ⟨by rw [hword]; decide, fun _ => ?_⟩
    rw [hgap]
    simp [blanks]
  have hoperand : operand "help\t= 1;".toList = "= 1;".toList := by rfl
  have hsource : "help".toList ++ ' ' :: "= 1;".toList = "help = 1;".toList := by rfl
  rw [hword, hoperand, spaced, hsource, String.ofList_toList] at hspaced
  rw [String.ofList_toList] at hiff
  exact ⟨hline, hne, hquery, hcommand, hiff.mpr hplain, hspaced List.mem_cons_self⟩

/-- An assignment to a variable with the name `EOF` ends the input. -/
theorem not_runs_as_typed : ¬ ∀ (s : Shell) (rounds : Nat) (line : String), '\n' ∉ line.toList →
    stripped line ≠ [] → (stripped line).head? ≠ some '?' →
    stripped line ∉ "EOF".toList :: commandWords →
    RunsAs s rounds line (String.ofList (stripped line)) := by
  intro h
  have hstripped : stripped "EOF = 1;" = "EOF = 1;".toList := by rfl
  have hend : command (stripped "EOF = 1;") = "EOF".toList := by rfl
  have hruns := h atStart 0 "EOF = 1;" (by decide) (by rw [hstripped]; decide)
    (by rw [hstripped]; decide) (by rw [hstripped]; decide)
  exact not_runsAs_of_end hend hruns

end Shell

end NovaLang
