import Mathlib
import NovaLang.Proofs.Descent.Recovery

namespace NovaLang.Descent

/-! # Where reading resumes

After a declaration has been aborted, reading goes on at the next place where a statement may
begin. The token that the declaration is aborted at is passed first, whatever it is, so that a
statement that begins with this very token is lost.
-/

/-! ## Positions in a token list -/

/-- All tokens of the list that the cursor stands in. -/
def Cursor.tokens (c : Cursor) : List Token := c.before.reverse ++ c.rest

/-- At the position of a cursor is the next token, ... -/
theorem Cursor.getElem?_position (c : Cursor) : c.tokens[c.position]? = c.rest.head? := by
  rw [tokens, position, List.getElem?_append_right (by simp), List.length_reverse, Nat.sub_self,
    List.head?_eq_getElem?]

/-- ... with those behind it, ... -/
theorem Cursor.drop_position (c : Cursor) : c.tokens.drop c.position = c.rest := by
  rw [tokens, position, ← List.length_reverse, List.drop_left]

/-- ... and in front of it is the last one that was passed. -/
theorem Cursor.getElem?_before {c : Cursor} {t : Token} {before : List Token}
    (h : c.before = t :: before) : c.tokens[c.position - 1]? = some t := by
  rw [tokens, position, h, List.reverse_cons, List.append_assoc, List.length_cons,
    Nat.add_sub_cancel, List.getElem?_append_right (by simp), List.length_reverse, Nat.sub_self]
  rfl

namespace Moved

variable {c c' : Cursor} {ts : List Token} {ds : List Diagnostic}

/-- Moving on keeps the tokens as a whole. -/
theorem tokens (h : Moved c c' ts ds) : c'.tokens = c.tokens := by
  rw [Cursor.tokens, Cursor.tokens, h.before, h.rest, List.reverse_append, List.reverse_reverse,
    List.append_assoc]

/-- The position moves by what is passed. -/
theorem position (h : Moved c c' ts ds) : c'.position = c.position + ts.length := by
  rw [Cursor.position, Cursor.position, h.before, List.length_append, List.length_reverse,
    Nat.add_comm]

end Moved

/-! ## Places where a statement may begin -/

/-- At the position there is the end token, or a token that begins a statement. -/
def OpensAt (ts : List Token) (n : Nat) : Prop :=
  ∃ t ∈ ts[n]?, t.kind = .eof ∨ startsStatement t.kind = true

/-- A semicolon stands in front of the position. -/
def ClosedAt (ts : List Token) (n : Nat) : Prop := ∃ t ∈ ts[n - 1]?, t.kind = .semicolon

/-- The positions behind `s`, and from `e` on, where a statement may begin: those of the end
token and of tokens that begin a statement, and those behind a semicolon that stands at `e` or
behind it. -/
def boundaries (ts : List Token) (s e : Nat) : Set Nat :=
  {n | s < n ∧ e ≤ n ∧ (OpensAt ts n ∨ e < n ∧ ClosedAt ts n)}

/-- From behind a token, reading goes on at the nearest place where a statement may begin. -/
theorem run_skipToStatement {count : Nat} {c : Cursor} (hc : c.Ready) (hbefore : c.before ≠ [])
    (hcount : c.rest.length ≤ count) :
    ∃ ts c', (skipToStatement count).run c = (.ok (), c') ∧ Moved c c' ts [] ∧
      IsLeast {n | c.position ≤ n ∧ (OpensAt c.tokens n ∨ ClosedAt c.tokens n)} c'.position := by
  induction count generalizing c with
  | zero =>
      rcases hc.exists_cons with ⟨t, rest, hrest⟩
      rw [hrest] at hcount
      cases hcount
  | succ count ih =>
      rcases hc.exists_cons with ⟨t, rest, hrest⟩
      rcases List.exists_cons_of_ne_nil hbefore with ⟨u, before, hbefore'⟩
      have hnext : c.tokens[c.position]? = some t := by
        rw [c.getElem?_position, hrest]
        rfl
      have hlast := Cursor.getElem?_before hbefore'
      have hhere : ∀ {n}, n ∈ {n | c.position ≤ n ∧ (OpensAt c.tokens n ∨ ClosedAt c.tokens n)} →
          c.position ≤ n := And.left
      rw [skipToStatement, run_bind_ok (run_isAtEnd hrest)]
      by_cases hend : t.kind = .eof
      · rw [if_pos (by simpa using hend)]
        exact ⟨[], c, rfl, .refl c, ⟨Nat.le_refl _, .inl ⟨t, hnext, .inl hend⟩⟩, fun _ => hhere⟩
      rw [if_neg (by simpa using hend), run_bind_ok (run_previous hbefore')]
      by_cases hclosed : u.kind = .semicolon
      · rw [if_pos (by simpa using hclosed)]
        exact ⟨[], c, rfl, .refl c, ⟨Nat.le_refl _, .inr ⟨u, hlast, hclosed⟩⟩, fun _ => hhere⟩
      rw [if_neg (by simpa using hclosed), run_bind_ok (run_peek hrest)]
      by_cases hopens : startsStatement t.kind = true
      · rw [if_pos hopens]
        exact ⟨[], c, rfl, .refl c, ⟨Nat.le_refl _, .inl ⟨t, hnext, .inr hopens⟩⟩, fun _ => hhere⟩
      -- nothing of this is so at the position, and the search goes on one token later
      rw [if_neg hopens, run_discard, run_bind_ok (run_advance_inside hrest hend)]
      have hpast := Moved.past hrest hend
      rw [hrest, List.length_cons] at hcount
      rcases ih (hpast.ready hc) (List.cons_ne_nil _ _) (Nat.le_of_succ_le_succ hcount) with
        ⟨ts, c', hrun, hmoved, hleast⟩
      refine ⟨[t] ++ ts, c', hrun, hpast.trans hmoved, ?_⟩
      rw [hpast.tokens, hpast.position, List.length_singleton] at hleast
      refine ⟨⟨Nat.le_of_succ_le hleast.1.1, hleast.1.2⟩, fun n hn => hleast.2 ⟨?_, hn.2⟩⟩
      refine Nat.lt_of_le_of_ne hn.1 ?_
      rintro rfl
      rcases hn.2 with ⟨v, hv, hkind⟩ | ⟨v, hv, hkind⟩
      · obtain rfl := Option.some.inj (hnext.symm.trans hv)
        exact hkind.elim hend hopens
      · obtain rfl := Option.some.inj (hlast.symm.trans hv)
        exact hclosed hkind

/-- After a syntax error the token that it was found at is passed, unless it is the end token;
from behind it, reading goes on at the nearest place where a statement may begin. -/
theorem run_synchronize_least {c : Cursor} {t : Token} (hc : c.Ready) (ht : t ∈ c.rest.head?)
    (hmove : c.Movable) :
    ∃ ts c', synchronize.run c = (.ok (), c') ∧ Moved c c' ts [] ∧
      (t.kind = .eof → c'.position = c.position) ∧
      (t.kind ≠ .eof → IsLeast (boundaries c.tokens c.position c.position) c'.position) := by
  obtain ⟨rest, hrest⟩ : ∃ rest, c.rest = t :: rest := by
    rcases hc.exists_cons with ⟨u, rest, hrest⟩
    rw [hrest] at ht
    obtain rfl := Option.some.inj ht
    exact ⟨rest, hrest⟩
  rw [synchronize, run_discard]
  by_cases hend : t.kind = .eof
  · -- the end token is not passed, and at it the search ends at once
    have hbefore : c.before ≠ [] := fun hbefore => c.not_movable_of_end hrest hend hbefore hmove
    rcases List.exists_cons_of_ne_nil hbefore with ⟨u, before, hbefore'⟩
    rw [run_bind_ok ((run_advance_end hrest hend).trans (run_previous hbefore'))]
    have hskip : (skipToStatement c.rest.length).run c = (.ok (), c) := by
      rw [hrest, List.length_cons, skipToStatement, run_bind_ok (run_isAtEnd hrest),
        if_pos (by simpa using hend)]
      rfl
    exact ⟨[], c, (run_bind_ok (a := c.rest.length) rfl).trans hskip, .refl c, fun _ => rfl,
      fun hne => absurd hend hne⟩
  · have hpast := Moved.past hrest hend
    rw [run_bind_ok (run_advance_inside hrest hend)]
    rcases run_skipToStatement (hpast.ready hc) (List.cons_ne_nil _ _) (Nat.le_refl _) with
      ⟨ts, c', hrun, hmoved, hleast⟩
    rw [hpast.tokens, hpast.position, List.length_singleton] at hleast
    refine ⟨[t] ++ ts, c', (run_bind_ok (a := rest.length) rfl).trans hrun, hpast.trans hmoved,
      fun heq => absurd heq hend, fun _ => ⟨⟨hleast.1.1, Nat.le_of_succ_le hleast.1.1, ?_⟩, ?_⟩⟩
    · exact hleast.1.2.imp id fun hclosed => ⟨hleast.1.1, hclosed⟩
    · exact fun n hn => hleast.2 ⟨hn.1, hn.2.2.imp id And.right⟩

/-! ## Aborted declarations -/

/-- In front of a declaration that is aborted, readers leave it out and go on at a cursor. -/
structure Resumes (declaration : Reader (Option Node)) (c c' : Cursor) : Prop where
  left : declaration.run c = (.ok none, c')
  toEnd : ∀ count, (declarationsToEnd declaration (count + 1)).run c =
    (declarationsToEnd declaration count).run c'
  toBrace : (∀ t ∈ c.rest.head?, t.kind ≠ .rightBrace) → ∀ count,
    (declarationsToBrace declaration (count + 1)).run c =
      (declarationsToBrace declaration count).run c'

theorem Resumes.of_run {declaration : Reader (Option Node)} {c c' : Cursor} {t : Token}
    {rest : List Token} (hrest : c.rest = t :: rest) (ht : t.kind ≠ .eof)
    (hrun : declaration.run c = (.ok none, c')) : Resumes declaration c c' where
  left := hrun
  toEnd count := by
    rw [declarationsToEnd, run_bind_ok (run_isAtEnd hrest), if_neg (by simpa using ht),
      run_bind_ok hrun]
    exact congrArg (fun r : Reader (List Node) => r.run c') (bind_pure _)
  toBrace hbrace count := by
    have hopen : t.kind ≠ .rightBrace := hbrace t (by rw [hrest]; rfl)
    rw [declarationsToBrace, run_bind_ok (run_check hrest (by decide)),
      if_neg (by simpa using hopen), run_bind_ok (run_isAtEnd hrest), if_neg (by simpa using ht),
      run_bind_ok hrun]
    exact congrArg (fun r : Reader (List Node) => r.run c') (bind_pure _)

section

variable {ts : List Token} {stop t : Token} {s e r : Nat}

/-- The nearest place from an end token on is the end token. -/
theorem isLeast_boundaries_end (hse : s < e) (ht : t ∈ ts[e]?) (hend : t.kind = .eof) :
    IsLeast (boundaries ts s e) r ↔ r = e := by
  have hleast : IsLeast (boundaries ts s e) e :=
    ⟨⟨hse, Nat.le_refl e, .inl ⟨t, ht, .inl hend⟩⟩, fun _ hn => hn.2.1⟩
  exact ⟨fun h => h.unique hleast, fun h => h ▸ hleast⟩

/-- The nearest place behind a token is the nearest one from the token on, unless a statement
begins with that token. -/
theorem isLeast_boundaries_iff (hse : s ≤ e) (ht : t ∈ ts[e]?) (hend : t.kind ≠ .eof)
    (h : IsLeast (boundaries ts e e) r) :
    IsLeast (boundaries ts s e) r ↔ ¬ (s < e ∧ startsStatement t.kind = true) := by
  constructor
  · -- a statement that begins with the token would be the nearest one
    rintro hleast ⟨hlt, hopens⟩
    have hle := hleast.2 ⟨hlt, Nat.le_refl e, .inl ⟨t, ht, .inr hopens⟩⟩
    exact absurd h.1.1 (Nat.not_lt.mpr hle)
  · refine fun hnot => ⟨⟨Nat.lt_of_le_of_lt hse h.1.1, h.1.2⟩, fun n hn => h.2 ⟨?_, hn.2⟩⟩
    refine Nat.lt_of_le_of_ne hn.2.1 ?_
    rintro rfl
    rcases hn.2.2 with ⟨u, hu, hkind⟩ | ⟨hless, -⟩
    · obtain rfl := Option.some.inj (ht.symm.trans hu)
      exact hkind.elim hend fun hopens => hnot ⟨hn.1, hopens⟩
    · exact absurd hless (Nat.lt_irrefl _)

/-- In front of a token of the list, the cursor is ready. -/
theorem Cursor.exists_cons_of_position {c : Cursor} (hts : ∀ t ∈ ts, t.kind ≠ .eof)
    (hstop : stop.kind = .eof) (hc : c.tokens = ts ++ [stop]) (hposition : c.position < ts.length) :
    c.Ready ∧ ∃ u rest, c.rest = u :: rest ∧ u.kind ≠ .eof := by
  have hrest : c.rest = ts.drop c.position ++ [stop] := by
    rw [← c.drop_position, hc, List.drop_append_of_le_length (Nat.le_of_lt hposition)]
  refine ⟨⟨stop, by simp [hrest], hstop⟩, ?_⟩
  rw [List.drop_eq_getElem_cons hposition] at hrest
  exact ⟨_, _, hrest, hts _ (List.getElem_mem hposition)⟩

variable {bound bound' : Nat} {c c₁ : Cursor} {m : Complaint}

/-- A declaration is aborted at the token that is blamed. -/
theorem unguarded_aborted
    (h : (unguarded (expressionWithin bound) (statementWithin bound')).run c =
      (.error (.syntaxError m), c₁)) :
    ∃ us ds, Moved c c₁ us ds ∧ ∃ t ∈ c₁.rest.head?, ⟨.token t, m⟩ ∈ ds := by
  rcases unguardedWithin_local bound bound' c with ⟨us, ds, hnear⟩
  have hmoved := hnear.moved
  have hblames := @hnear.blames
  rw [h] at hmoved hblames
  exact ⟨us, ds, hmoved, hblames rfl⟩

/-- From a declaration that is aborted, reading goes on behind the token that it is aborted at. -/
theorem Resumes.of_abort {u : Token} {us rest : List Token} {ds : List Diagnostic} (hc : c.Ready)
    (hrest : c.rest = u :: rest) (hu : u.kind ≠ .eof)
    (habort : (unguarded (expressionWithin bound) (statementWithin bound')).run c =
      (.error (.syntaxError m), c₁))
    (hmoved : Moved c c₁ us ds) (ht : t ∈ c₁.rest.head?) :
    ∃ c₂ vs, Resumes (declarationWith (expressionWithin bound) (statementWithin bound')) c c₂ ∧
      Moved c₁ c₂ vs [] ∧ (t.kind = .eof → c₂.position = c₁.position) ∧
      (t.kind ≠ .eof → IsLeast (boundaries c.tokens c₁.position c₁.position) c₂.position) ∧
      (IsLeast (boundaries c.tokens c.position c₁.position) c₂.position ↔
        ¬ (c.position < c₁.position ∧ startsStatement t.kind = true)) := by
  have hmove := hmoved.movable (.inr (Cursor.inside_of_cons hrest hu))
  rcases run_synchronize_least (hmoved.ready hc) ht hmove with
    ⟨vs, c₂, hgo, hmoved', hstays, hleast⟩
  have hrun : (declarationWith (expressionWithin bound) (statementWithin bound')).run c =
      (.ok none, c₂) := by
    rw [declarationWith_eq, run_recovering, habort]
    exact run_bind_ok hgo
  have hle : c.position ≤ c₁.position := by
    rw [hmoved.position]
    exact Nat.le_add_right _ _
  have hat : t ∈ c.tokens[c₁.position]? := by
    rw [← hmoved.tokens, c₁.getElem?_position]
    exact ht
  rw [hmoved.tokens] at hleast
  refine ⟨c₂, vs, .of_run hrest hu hrun, hmoved', hstays, hleast, ?_⟩
  by_cases hend : t.kind = .eof
  · -- no declaration begins at the end token
    have hlt : c.position < c₁.position := by
      refine Nat.lt_of_le_of_ne hle fun heq => hu ?_
      have hnext := c.getElem?_position
      rw [heq, hrest] at hnext
      obtain rfl := Option.some.inj (hat.symm.trans hnext)
      exact hend
    have hstart : startsStatement t.kind = false := by rw [hend]; rfl
    rw [isLeast_boundaries_end hlt hat hend, hstays hend, hstart]
    simp
  · exact isLeast_boundaries_iff hle hat hend (hleast hend)

end

/-- A declaration that is aborted is left out, and reading goes on in the same token list. If it
is aborted at the end token, reading goes on there; otherwise at the nearest place, behind the
token that it is aborted at, where a statement may begin. From that token on this is the nearest
place as well, unless the declaration had begun before and a statement begins with the token. -/
theorem resumes_nearest {ts : List Token} {stop : Token} (hts : ∀ t ∈ ts, t.kind ≠ .eof)
    (hstop : stop.kind = .eof) {bound bound' : Nat} {c c₁ : Cursor} {m : Complaint}
    (hc : c.tokens = ts ++ [stop]) (hposition : c.position < ts.length)
    (habort : (unguarded (expressionWithin bound) (statementWithin bound')).run c =
      (.error (.syntaxError m), c₁)) :
    c.position ≤ c₁.position ∧ ∃ t ∈ (ts ++ [stop])[c₁.position]?,
      (∃ ds, c₁.report = c.report.addAll ds ∧ ⟨.token t, m⟩ ∈ ds) ∧
      ∃ c₂, Resumes (declarationWith (expressionWithin bound) (statementWithin bound')) c c₂ ∧
        c₂.tokens = ts ++ [stop] ∧ c₂.report = c₁.report ∧
        (t.kind = .eof → c₂.position = c₁.position) ∧
        (t.kind ≠ .eof →
          IsLeast (boundaries (ts ++ [stop]) c₁.position c₁.position) c₂.position) ∧
        (IsLeast (boundaries (ts ++ [stop]) c.position c₁.position) c₂.position ↔
          ¬ (c.position < c₁.position ∧ startsStatement t.kind = true)) := by
  rcases Cursor.exists_cons_of_position hts hstop hc hposition with ⟨hready, u, rest, hrest, hu⟩
  rcases unguarded_aborted habort with ⟨us, ds, hmoved, t, ht, hmem⟩
  -- recovery starts where the declaration was aborted
  rcases Resumes.of_abort hready hrest hu habort hmoved ht with
    ⟨c₂, vs, hresumes, hmoved', hstays, hleast, hiff⟩
  have htokens : c₁.tokens = ts ++ [stop] := hmoved.tokens.trans hc
  rw [hc] at hleast hiff
  refine ⟨?_, t, ?_, ⟨ds, hmoved.report, hmem⟩, c₂, hresumes, hmoved'.tokens.trans htokens,
    hmoved'.report, hstays, hleast, hiff⟩
  · rw [hmoved.position]
    exact Nat.le_add_right _ _
  · rw [← htokens, c₁.getElem?_position]
    exact ht

/-- The tokens of `print nil var x; print x;`, where the first semicolon is missing. -/
def lostStatement : List Token :=
  [.scanned .kwPrint "print" .nil 1, .scanned .kwNil "nil" .nil 1, .scanned .kwVar "var" .nil 1,
    .scanned .identifier "x" .nil 1, .scanned .semicolon ";" .nil 1,
    .scanned .kwPrint "print" .nil 1, .scanned .identifier "x" .nil 1,
    .scanned .semicolon ";" .nil 1]

theorem lostStatement_aborted :
    (unguarded (expressionWithin 9) (statementWithin 9)).run
        ⟨[], lostStatement ++ [.scanned .eof "" .nil 1], {}⟩ =
      (.error (.syntaxError (.expected .semicolonAfterValue)),
        ⟨(lostStatement.take 2).reverse, lostStatement.drop 2 ++ [.scanned .eof "" .nil 1],
          Report.addAll {} [⟨.token (.scanned .kwVar "var" .nil 1),
            .expected .semicolonAfterValue⟩]⟩) := by
  cbv

theorem resumes_nearest_lostStatement :
    ∃ c₂, Resumes (declarationWith (expressionWithin 9) (statementWithin 9))
        ⟨[], lostStatement ++ [.scanned .eof "" .nil 1], {}⟩ c₂ ∧
      IsLeast (boundaries (lostStatement ++ [.scanned .eof "" .nil 1]) 2 2) c₂.position ∧
      ¬ IsLeast (boundaries (lostStatement ++ [.scanned .eof "" .nil 1]) 0 2) c₂.position := by
  have hts : ∀ t ∈ lostStatement, t.kind ≠ .eof := by decide
  rcases resumes_nearest hts rfl rfl (by decide) lostStatement_aborted with
    ⟨-, t, ht, -, c₂, hresumes, -, -, -, hleast, hiff⟩
  obtain rfl := Option.some.inj ht
  exact ⟨c₂, hresumes, hleast (by decide), fun h => hiff.mp h (by decide)⟩

/-- A statement in front of which a declaration is aborted is not where reading resumes. -/
theorem not_resumes_at_statement :
    ¬ ∀ (ts : List Token) (stop : Token), (∀ t ∈ ts, t.kind ≠ .eof) → stop.kind = .eof →
      ∀ (bound bound' : Nat) (c c₁ : Cursor) (m : Complaint), c.tokens = ts ++ [stop] →
        c.position < ts.length →
        (unguarded (expressionWithin bound) (statementWithin bound')).run c =
          (.error (.syntaxError m), c₁) →
        ∃ c₂, Resumes (declarationWith (expressionWithin bound) (statementWithin bound')) c c₂ ∧
          IsLeast (boundaries (ts ++ [stop]) c.position c₁.position) c₂.position := by
  intro h
  rcases h lostStatement (.scanned .eof "" .nil 1) (by decide) rfl 9 9 _ _ _ rfl (by decide)
    lostStatement_aborted with ⟨c₂, hresumes, hleast⟩
  have hposition : (declarationWith (expressionWithin 9) (statementWithin 9)).run
      ⟨[], lostStatement ++ [.scanned .eof "" .nil 1], {}⟩ =
        (.ok none, ⟨(lostStatement.take 5).reverse,
          lostStatement.drop 5 ++ [.scanned .eof "" .nil 1],
          Report.addAll {} [⟨.token (.scanned .kwVar "var" .nil 1),
            .expected .semicolonAfterValue⟩]⟩) := by
    cbv
  obtain rfl := (Prod.mk.inj (hresumes.left.symm.trans hposition)).2
  -- `var` stands at position 2, in front of position 5
  have hle : 5 ≤ 2 := hleast.2
    ⟨by decide, Nat.le_refl 2, .inl ⟨.scanned .kwVar "var" .nil 1, rfl, .inr rfl⟩⟩
  exact absurd hle (by decide)

end NovaLang.Descent
