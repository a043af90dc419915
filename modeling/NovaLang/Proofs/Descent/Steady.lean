import NovaLang.Descent.Statement
import NovaLang.Proofs.Reader

namespace NovaLang.Descent

/-! # How far readers go

A reader only goes forward, never past the first end token, and nothing behind that token
matters to it. Its bound does not matter either, as long as there are no more tokens to
come. All of this is said of two readers at a time, one in front of all tokens and one in
front of those that it may see, each with a bound of its own.
-/

variable {α β : Type}

/-! ## What a reader may see -/

/-- The tokens up to the first end token, which is the last of them. -/
def upToEnd : List Token → List Token
  | [] => []
  | t :: ts => if t.kind = .eof then [t] else t :: upToEnd ts

/-- Tokens in front of the first end token are all in sight. -/
theorem upToEnd_append {ts : List Token} (h : ∀ t ∈ ts, t.kind ≠ .eof) (us : List Token) :
    upToEnd (ts ++ us) = ts ++ upToEnd us := by
  induction ts with
  | nil => rfl
  | cons t ts ih =>
      rcases List.forall_mem_cons.mp h with ⟨ht, hts⟩
      rw [List.cons_append, upToEnd, if_neg ht, ih hts, List.cons_append]

theorem length_upToEnd (ts : List Token) : (upToEnd ts).length ≤ ts.length := by
  induction ts with
  | nil => exact Nat.le_refl 0
  | cons t ts ih =>
      unfold upToEnd
      split
      · exact Nat.succ_le_succ (Nat.zero_le _)
      · exact Nat.succ_le_succ ih

/-- Induction on how many tokens are in sight, with two bounds that are not exceeded. -/
theorem sight_induction {P : Nat → Nat → Nat → Prop} (zero : ∀ count count', P 0 count count')
    (succ : ∀ n count count', n ≤ count → n ≤ count' → P n count count' →
      P (n + 1) (count + 1) (count' + 1)) :
    ∀ n count count', n ≤ count → n ≤ count' → P n count count' := by
  intro n
  induction n with
  | zero => exact fun count count' _ _ => zero count count'
  | succ n ih =>
      -- neither bound is used up as long as something is in sight
      rintro (_ | count) (_ | count') hcount hcount'
      · cases hcount
      · cases hcount
      · cases hcount'
      · have hless := Nat.le_of_succ_le_succ hcount
        have hless' := Nat.le_of_succ_le_succ hcount'
        exact succ n count count' hless hless' (ih count count' hless hless')

namespace Cursor

/-- The cursor in front of the tokens that a reader may see. -/
def view (c : Cursor) : Cursor := { c with rest := upToEnd c.rest }

/-- The number of tokens that a reader may see. -/
def sight (c : Cursor) : Nat := (upToEnd c.rest).length

/-- The next token, if there is one, is no end token. -/
def Inside (c : Cursor) : Prop := ∀ t ∈ c.rest.head?, t.kind ≠ .eof

variable {c : Cursor} {t : Token} {rest : List Token}

theorem view_of_nil (h : c.rest = []) : c.view = c := by
  rcases c with ⟨before, _, report⟩
  obtain rfl := h
  rfl

/-- The next token is in sight, and behind it the view goes on unless it was the end. -/
theorem view_of_cons (h : c.rest = t :: rest) :
    ∃ rest', c.view.rest = t :: rest' ∧
      (t.kind ≠ .eof → c.view.past t rest' = (c.past t rest).view) := by
  unfold view
  rw [h]
  -- the end token is the last one in sight, so nothing is said of what is behind it
  by_cases ht : t.kind = .eof
  · exact ⟨[], if_pos ht, fun hne => absurd ht hne⟩
  · exact ⟨upToEnd rest, if_neg ht, fun _ => rfl⟩

/-- Where nothing is in sight there are no tokens left. -/
theorem rest_of_sight (h : c.sight ≤ 0) : c.rest = [] := by
  have hview : upToEnd c.rest = [] := List.length_eq_zero_iff.mp (Nat.le_zero.mp h)
  cases hrest : c.rest with
  | nil => rfl
  | cons t rest =>
      rw [hrest, upToEnd] at hview
      split at hview
      · cases hview
      · cases hview

theorem inside_of_cons (h : c.rest = t :: rest) (ht : t.kind ≠ .eof) : c.Inside := by
  unfold Inside
  rw [h]
  exact fun u hu => Option.some.inj hu ▸ ht

/-- From an end token that is the first one there is nowhere to go. -/
theorem not_movable_of_end (h : c.rest = t :: rest) (ht : t.kind = .eof) (hbefore : c.before = []) :
    ¬ c.Movable := by
  rintro (hmove | hmove)
  · exact hmove hbefore
  · exact hmove t (by rw [h]; rfl) ht

end Cursor

/-- Every token passed was in sight. -/
theorem Moved.sight {c c' : Cursor} {ts : List Token} {ds : List Diagnostic}
    (h : Moved c c' ts ds) : c.sight = ts.length + c'.sight := by
  rw [Cursor.sight, Cursor.sight, h.rest, upToEnd_append h.inner, List.length_append]

/-! ## Readers that look first -/

/-- Where there are no tokens left the reader looks beyond them at once. -/
def Looks (r : Reader α) : Prop :=
  ∀ c : Cursor, c.rest = [] → r.run c = (.error (.fault (.pastEnd c.position c.position)), c)

namespace Looks

/-- What is done with a result does not matter to where the reader looks first. -/
theorem bind {r : Reader α} (h : Looks r) (f : α → Reader β) : Looks (r >>= f) :=
  fun c hc => run_bind_error (h c hc)

theorem discard {r : Reader α} (h : Looks r) (f : Unit → Reader β) : Looks (discard r >>= f) := by
  rw [run_discard]
  exact h.bind _

/-- The next token is in view as well. -/
theorem peek : Looks peek := by
  rintro ⟨before, rest, report⟩ hc
  obtain rfl := hc
  rfl

/-- The end is in view, so that both readers see when it has come. -/
theorem isAtEnd : Looks isAtEnd := peek.bind _

theorem check (kind : Kind) : Looks (check kind) := peek.bind _

/-- Both readers accept the next token, or neither does. -/
theorem accept (kind : Kind) (kinds : List Kind) : Looks (accept (kind :: kinds)) := by
  unfold Descent.accept
  exact peek.bind _

/-- A complaint stops both readers at the same token. -/
theorem fail (m : Complaint) : Looks (fail m : Reader α) := peek.bind _

/-- A token of the kind is passed by both readers, and any other stops both. -/
theorem consume (kind : Kind) (m : Complaint) : Looks (consume kind m) := (check kind).bind _

theorem advance : Looks advance := isAtEnd.bind _

end Looks

/-! ## Steady readers -/

/-- What comes of a reader at a cursor: it goes forward and not past an end token, and so
many tokens at least are passed for a result. Only a failing reader stops at a syntax
error. If it looks beyond the tokens, they have come to their end. -/
inductive Went (failing : Prop) (count : Nat) (c : Cursor) : Except Stop α × Cursor → Prop where
  | yields {a : α} {c' : Cursor} {ts : List Token} {ds : List Diagnostic} :
      Moved c c' ts ds → count ≤ ts.length → Went failing count c (.ok a, c')
  | stops {m : Complaint} {c' : Cursor} {ts : List Token} {ds : List Diagnostic} :
      failing → Moved c c' ts ds → Went failing count c (.error (.syntaxError m), c')
  | faults {f : PositionFault} {c' : Cursor} {ts : List Token} {ds : List Diagnostic} :
      Moved c c' ts ds → (c'.Movable → c'.rest = [] ∧ f = .pastEnd c'.position c'.position) →
      Went failing count c (.error (.fault f), c')

/-- The second outcome is the first one, in front of what may be seen there. -/
inductive Viewed (V : α → α → Prop) : Except Stop α × Cursor → Except Stop α × Cursor → Prop where
  | yields {a a' : α} {c : Cursor} : V a a' → Viewed V (.ok a, c) (.ok a', c.view)
  | stops {stop : Stop} {c : Cursor} : Viewed V (.error stop, c) (.error stop, c.view)

/-- At the cursor the first reader goes as it may, and the second one, which sees no more
than it may, does the same. What they yield is related by `V`. -/
structure SteadyAt (failing : Prop) (count : Nat) (V : α → α → Prop) (c : Cursor)
    (r r' : Reader α) : Prop where
  same : Viewed V (r.run c) (r'.run c.view)
  went : Went failing count c (r.run c)

/-- The readers are steady wherever there are no more than so many tokens to be seen. -/
def Steady (failing : Prop) (sight count : Nat) (V : α → α → Prop) (r r' : Reader α) : Prop :=
  ∀ c : Cursor, c.sight ≤ sight → SteadyAt failing count V c r r'

variable {s : Prop} {n d k : Nat} {c : Cursor} {V : α → α → Prop} {W : β → β → Prop}

protected theorem Viewed.mono {V' : α → α → Prop} {o o' : Except Stop α × Cursor}
    (h : Viewed V o o') (hV : ∀ a a', V a a' → V' a a') : Viewed V' o o' := by
  cases h with
  | yields h => exact .yields (hV _ _ h)
  | stops => exact .stops

/-- With equal results the second outcome is the view of the first. -/
theorem Viewed.eq {o o' : Except Stop α × Cursor} (h : Viewed (· = ·) o o') :
    o' = (o.1, o.2.view) := by
  cases h with
  | yields h => rw [h]
  | stops => rfl

protected theorem Went.mono {s' : Prop} {o : Except Stop α × Cursor} (h : Went s d c o)
    (hs : s → s') (hk : k ≤ d) : Went s' k c o := by
  cases h with
  | yields hmoved hd => exact .yields hmoved (Nat.le_trans hk hd)
  | stops h hmoved => exact .stops (hs h) hmoved
  | faults hmoved hf => exact .faults hmoved hf

/-- The reader has gone some way before. -/
theorem Went.after {o : Except Stop α × Cursor} {c₁ : Cursor} {ts : List Token}
    {ds : List Diagnostic} (h : Went s d c₁ o) (hmoved : Moved c c₁ ts ds) :
    Went s (ts.length + d) c o := by
  cases h with
  | yields hmoved' hd =>
      refine .yields (hmoved.trans hmoved') ?_
      rw [List.length_append]
      exact Nat.add_le_add_left hd _
  | stops hs hmoved' => exact .stops hs (hmoved.trans hmoved')
  | faults hmoved' hf => exact .faults (hmoved.trans hmoved') hf

/-- The tokens that are passed, and what is reported, however a reader ends. -/
theorem Went.moved {o : Except Stop α × Cursor} (h : Went s d c o) :
    ∃ ts ds, Moved c o.2 ts ds := by
  cases h with
  | yields hmoved | stops _ hmoved | faults hmoved => exact ⟨_, _, hmoved⟩

/-- Behind a token that is passed there is one less in sight. -/
theorem Cursor.sight_past {t : Token} {rest : List Token} (hrest : c.rest = t :: rest)
    (ht : t.kind ≠ .eof) (hc : c.sight ≤ n) : (c.past t rest).sight ≤ n - 1 := by
  have hsight := (Moved.past hrest ht).sight
  rw [List.length_singleton] at hsight
  omega

namespace SteadyAt

variable {r r' : Reader α} {f f' : α → Reader β}

theorem run_view (h : SteadyAt s d (· = ·) c r r') :
    r'.run c.view = ((r.run c).1, (r.run c).2.view) :=
  h.same.eq

protected theorem mono {s' : Prop} {V' : α → α → Prop} (h : SteadyAt s d V c r r') (hs : s → s')
    (hk : k ≤ d) (hV : ∀ a a', V a a' → V' a a') : SteadyAt s' k V' c r r' :=
  ⟨h.same.mono hV, h.went.mono hs hk⟩

theorem weaken (h : SteadyAt s d V c r r') (hk : k ≤ d) : SteadyAt s k V c r r' :=
  h.mono id hk fun _ _ => id

/-- A reader that stays where it is and looks where nothing is. -/
theorem halts {f : PositionFault} (hrun : r.run c = (.error (.fault f), c))
    (hrun' : r'.run c.view = (.error (.fault f), c.view))
    (hf : c.Movable → c.rest = [] ∧ f = .pastEnd c.position c.position) :
    SteadyAt s d V c r r' := by
  constructor
  · rw [hrun, hrun']
    exact .stops
  · rw [hrun]
    exact .faults (.refl c) hf

/-- Where no tokens are left, readers that look first halt at once. -/
theorem of_looks (hc : c.rest = []) (h : Looks r) (h' : Looks r') : SteadyAt s d V c r r' := by
  refine halts (h c hc) ?_ fun _ => ⟨hc, rfl⟩
  rw [Cursor.view_of_nil hc]
  exact h' c hc

theorem pure {a a' : α} (h : V a a') : SteadyAt s 0 V c (pure a : Reader α) (pure a') :=
  ⟨.yields h, .yields (.refl c) (Nat.zero_le _)⟩

/-- A first step that is known. -/
theorem step {a a' : α} {c₁ : Cursor} {ts : List Token} {ds : List Diagnostic}
    (hrun : r.run c = (.ok a, c₁)) (hrun' : r'.run c.view = (.ok a', c₁.view))
    (hmoved : Moved c c₁ ts ds) (h : SteadyAt s (d - ts.length) W c₁ (f a) (f' a')) :
    SteadyAt s d W c (r >>= f) (r' >>= f') := by
  constructor
  · rw [run_bind_ok hrun, run_bind_ok hrun']
    exact h.same
  · -- what is passed first counts towards what the whole reader has to pass
    rw [run_bind_ok hrun]
    exact (h.went.after hmoved).mono id (by omega)

/-- The second reader has those tokens in sight that the first one has left. -/
theorem bind (h : SteadyAt s d V c r r')
    (hf : ∀ a a' c₁, V a a' → r.run c = (.ok a, c₁) → c₁.sight + d ≤ c.sight →
      SteadyAt s (k - d) W c₁ (f a) (f' a')) :
    SteadyAt s k W c (r >>= f) (r' >>= f') := by
  rcases h with ⟨hsame, hwent⟩
  revert hsame hwent
  rcases hrun : r.run c with ⟨o, c₁⟩
  rcases hrun' : r'.run c.view with ⟨o', c₁'⟩
  intro hsame hwent
  cases hsame with
  | yields hV =>
      -- what the first reader has passed need not be passed by the second one
      cases hwent with
      | yields hmoved hd =>
          have hsight := hmoved.sight
          exact step hrun hrun' hmoved ((hf _ _ c₁ hV hrun (by omega)).weaken (by omega))
  | stops =>
      constructor
      · rw [run_bind_error hrun, run_bind_error hrun']
        exact .stops
      · rw [run_bind_error hrun]
        cases hwent with
        | stops hs hmoved => exact .stops hs hmoved
        | faults hmoved hfault => exact .faults hmoved hfault

/-- A reader that stays where it is and yields something. -/
theorem stays {a a' : α} (h : V a a') (hrun : r.run c = (.ok a, c))
    (hrun' : r'.run c.view = (.ok a', c.view)) : SteadyAt s 0 V c r r' := by
  constructor
  · rw [hrun, hrun']
    exact .yields h
  · rw [hrun]
    exact .yields (.refl c) (Nat.zero_le 0)

/-- A reader that passes the next token. -/
theorem passes {a a' : α} {t : Token} {rest rest' : List Token} (h : V a a')
    (hrest : c.rest = t :: rest) (ht : t.kind ≠ .eof)
    (hpast : c.view.past t rest' = (c.past t rest).view) (hrun : r.run c = (.ok a, c.past t rest))
    (hrun' : r'.run c.view = (.ok a', c.view.past t rest')) : SteadyAt s 1 V c r r' := by
  constructor
  · rw [hrun, hrun', hpast]
    exact .yields h
  · rw [hrun]
    exact .yields (.past hrest ht) (Nat.le_refl 1)

/-- A reader that complains at the next token and stops. -/
theorem complains (hs : s) {m : Complaint} {t : Token}
    (hrun : r.run c = (.error (.syntaxError m), { c with report := c.report.atToken t m }))
    (hrun' : r'.run c.view =
      (.error (.syntaxError m), { c.view with report := c.view.report.atToken t m })) :
    SteadyAt s d V c r r' := by
  constructor
  · rw [hrun, hrun']
    exact .stops
  · rw [hrun]
    exact .stops hs (.complaint c t m)

theorem fail (hs : s) (m : Complaint) : SteadyAt s d V c (fail m : Reader α) (fail m) := by
  cases hrest : c.rest with
  | nil => exact of_looks hrest (.fail m) (.fail m)
  | cons t rest =>
      rcases Cursor.view_of_cons hrest with ⟨rest', hview, -⟩
      exact complains hs (run_fail hrest m) (run_fail hview m)

theorem peek : SteadyAt s 0 (· = ·) c peek peek := by
  cases hrest : c.rest with
  | nil => exact of_looks hrest .peek .peek
  | cons t rest =>
      rcases Cursor.view_of_cons hrest with ⟨rest', hview, -⟩
      exact stays rfl (run_peek hrest) (run_peek hview)

theorem check {kind : Kind} (hkind : kind ≠ .eof) :
    SteadyAt s 0 (· = ·) c (check kind) (check kind) := by
  cases hrest : c.rest with
  | nil => exact of_looks hrest (.check kind) (.check kind)
  | cons t rest =>
      rcases Cursor.view_of_cons hrest with ⟨rest', hview, -⟩
      exact stays rfl (run_check hrest hkind) (run_check hview hkind)

theorem complain (t : Token) (m : Complaint) :
    SteadyAt s 0 (fun _ _ => True) c (complain t m) (complain t m) :=
  ⟨.yields trivial, .yields (.complaint c t m) (Nat.zero_le 0)⟩

theorem consume (hs : s) {kind : Kind} (hkind : kind ≠ .eof) (m : Complaint) :
    SteadyAt s 1 (fun t t' => t = t' ∧ t.kind = kind) c (consume kind m) (consume kind m) := by
  cases hrest : c.rest with
  | nil => exact of_looks hrest (.consume kind m) (.consume kind m)
  | cons t rest =>
      rcases Cursor.view_of_cons hrest with ⟨rest', hview, hpast⟩
      have hrun := run_consume hrest hkind m
      have hrun' := run_consume hview hkind m
      by_cases ht : t.kind = kind
      · have hstop : t.kind ≠ .eof := ht ▸ hkind
        rw [if_pos ht] at hrun hrun'
        exact passes ⟨rfl, ht⟩ hrest hstop (hpast hstop) hrun hrun'
      · rw [if_neg ht] at hrun hrun'
        exact complains hs hrun hrun'

variable {yes yes' no no' : Reader β}

theorem accept {kind : Kind} {kinds : List Kind} (hkinds : Kind.eof ∉ kind :: kinds)
    (hyes : ∀ t rest, c.rest = t :: rest → t.kind ≠ .eof → t.kind ∈ kind :: kinds →
      SteadyAt s (d - 1) W (c.past t rest) yes yes')
    (hno : SteadyAt s d W c no no') :
    SteadyAt s d W c (accept (kind :: kinds) >>= fun b => if b = true then yes else no)
      (accept (kind :: kinds) >>= fun b => if b = true then yes' else no') := by
  cases hrest : c.rest with
  | nil => exact of_looks hrest (.bind (.accept kind kinds) _) (.bind (.accept kind kinds) _)
  | cons t rest =>
      rcases Cursor.view_of_cons hrest with ⟨rest', hview, hpast⟩
      have hrun := run_accept hrest hkinds
      have hrun' := run_accept hview hkinds
      by_cases ht : t.kind ∈ kind :: kinds
      · -- an accepted token is no end token, and passing it keeps the view
        have hstop : t.kind ≠ .eof := fun heq => hkinds (heq ▸ ht)
        rw [if_pos ht] at hrun hrun'
        rw [hpast hstop] at hrun'
        exact step hrun hrun' (.past hrest hstop) (hyes t rest hrest hstop ht)
      · rw [if_neg ht] at hrun hrun'
        exact step hrun hrun' (.refl c) hno

theorem previous {f f' : Token → Reader β} {t : Token} {before : List Token}
    (hbefore : c.before = t :: before) (h : SteadyAt s d W c (f t) (f' t)) :
    SteadyAt s d W c (previous >>= f) (previous >>= f') :=
  step (run_previous hbefore) (run_previous hbefore) (.refl c) h

theorem isAtEnd (hyes : SteadyAt s d W c yes yes') (hno : c.Inside → SteadyAt s d W c no no') :
    SteadyAt s d W c (isAtEnd >>= fun b => if b = true then yes else no)
      (isAtEnd >>= fun b => if b = true then yes' else no') := by
  cases hrest : c.rest with
  | nil => exact of_looks hrest (Looks.isAtEnd.bind _) (Looks.isAtEnd.bind _)
  | cons t rest =>
      rcases Cursor.view_of_cons hrest with ⟨rest', hview, -⟩
      refine step (run_isAtEnd hrest) (run_isAtEnd hview) (.refl c) ?_
      split
      · exact hyes
      · rename_i ht
        exact hno (Cursor.inside_of_cons hrest (by simpa using ht))

end SteadyAt

/-! ## Going on after a syntax error -/

/-- At the end nothing is passed, and the last token is looked at instead. -/
theorem previous_steady {t : Token} {rest : List Token} (hrest : c.rest = t :: rest)
    (ht : t.kind = .eof) : SteadyAt s 0 (· = ·) c previous previous := by
  cases hbefore : c.before with
  | nil =>
      -- the one fault that is not beyond the tokens: a cursor there is not movable
      have hstart : ¬ c.Movable := c.not_movable_of_end hrest ht hbefore
      exact .halts (run_previous_start hbefore) (run_previous_start hbefore)
        fun hmove => absurd hmove hstart
  | cons u before => exact .stays rfl (run_previous hbefore) (run_previous hbefore)

/-- A token is passed unless it is an end token. -/
theorem advance_steady (hd : d ≤ 1) (hinside : 0 < d → c.Inside) :
    SteadyAt s d (· = ·) c advance advance := by
  cases hrest : c.rest with
  | nil => exact .of_looks hrest .advance .advance
  | cons t rest =>
      rcases Cursor.view_of_cons hrest with ⟨rest', hview, hpast⟩
      by_cases ht : t.kind = .eof
      · -- in front of an end token nothing is passed, and nothing has been asked for
        have hnone : d = 0 := by
          rcases Nat.eq_zero_or_pos d with hzero | hpos
          · exact hzero
          · exact absurd ht (hinside hpos t (by rw [hrest]; rfl))
        have hprevious := previous_steady (s := s) hrest ht
        rw [hnone]
        constructor
        · rw [run_advance_end hrest ht, run_advance_end hview ht]
          exact hprevious.same
        · rw [run_advance_end hrest ht]
          exact hprevious.went
      · -- anywhere else the next token is passed
        refine SteadyAt.weaken ?_ hd
        exact .passes rfl hrest ht (hpast ht) (run_advance_inside hrest ht)
          (run_advance_inside hview ht)

/-- After a step there is a token to look back at. -/
theorem before_of_advance {c' : Cursor} {t : Token} (h : advance.run c = (.ok t, c')) :
    c'.before ≠ [] := by
  cases hrest : c.rest with
  | nil =>
      rw [Looks.advance c hrest] at h
      cases h
  | cons u rest =>
      -- at the end the token returned is the last one, otherwise the one just passed
      by_cases hu : u.kind = .eof
      · rw [run_advance_end hrest hu] at h
        cases hbefore : c.before with
        | nil =>
            rw [run_previous_start hbefore] at h
            cases h
        | cons v before =>
            rw [run_previous hbefore] at h
            cases h
            rw [hbefore]
            exact List.cons_ne_nil _ _
      · rw [run_advance_inside hrest hu] at h
        cases h
        exact List.cons_ne_nil _ _

/-- Skipping looks at the next token in every round, the last one included. -/
theorem skipToStatement_looks (count : Nat) : Looks (skipToStatement count) := by
  cases count with
  | zero =>
      rw [skipToStatement, ← bind_pure (discard peek)]
      exact Looks.peek.discard _
  | succ count => exact Looks.isAtEnd.bind _

/-- Skipping ends in front of the end token at the latest, whatever its bound. -/
theorem skipToStatement_steady : ∀ n count count' : Nat, n ≤ count → n ≤ count' →
    ∀ c : Cursor, c.sight ≤ n → c.before ≠ [] →
      SteadyAt s 0 (fun _ _ => True) c (skipToStatement count) (skipToStatement count') := by
  refine sight_induction ?_ ?_
  · intro count count' c hc _
    exact .of_looks (Cursor.rest_of_sight hc) (skipToStatement_looks count)
      (skipToStatement_looks count')
  · intro n count count' _ _ ih c hc hbefore
    unfold skipToStatement
    refine .isAtEnd (.pure trivial) fun hinside => ?_
    -- the token just passed ends the skipping if it is a semicolon
    rcases List.exists_cons_of_ne_nil hbefore with ⟨u, before, hbefore'⟩
    refine .previous hbefore' ?_
    split
    · exact .pure trivial
    cases hrest : c.rest with
    | nil => exact .of_looks hrest (Looks.peek.bind _) (Looks.peek.bind _)
    | cons t rest =>
        rcases Cursor.view_of_cons hrest with ⟨rest', hview, -⟩
        refine .step (run_peek hrest) (run_peek hview) (.refl c) ?_
        split
        · exact .pure trivial
        -- the token is passed, so there is one less in sight for the next round
        have ht := hinside t (by rw [hrest]; rfl)
        have hadvance := advance_steady (s := s) (c := c) (Nat.le_refl 1) fun _ => hinside
        rw [run_discard, run_discard]
        refine hadvance.weaken (Nat.zero_le 1) |>.bind fun v _ c₁ _ hrun _ => ?_
        have hsight := Cursor.sight_past hrest ht hc
        obtain rfl : c.past t rest = c₁ := by
          rw [run_advance_inside hrest ht] at hrun
          exact congrArg Prod.snd hrun
        exact ih _ hsight (List.cons_ne_nil _ _)

/-- Going on passes a token unless the next one is an end token. -/
theorem synchronize_steady (hd : d ≤ 1) (hinside : 0 < d → c.Inside) :
    SteadyAt s d (fun _ _ => True) c synchronize synchronize := by
  unfold synchronize
  rw [run_discard]
  refine (advance_steady hd hinside).bind fun t _ c₁ _ hrun _ => ?_
  -- the number of rounds is what is left of all tokens here, and of those in view there
  have hview : (upToEnd c₁.rest).length ≤ c₁.rest.length := length_upToEnd c₁.rest
  have hskip := skipToStatement_steady (s := s) c₁.sight c₁.rest.length (upToEnd c₁.rest).length
    hview (Nat.le_refl _) c₁ (Nat.le_refl _) (before_of_advance hrun)
  exact ⟨hskip.same, hskip.went.mono id (by omega)⟩

/-- Recovery passes the token it stopped at, if that is no end token, so that a result is none the
less one token further on. -/
theorem SteadyAt.recovering {r r' : Reader α} (h : SteadyAt True d V c r r') (hd : d ≤ 1)
    (hinside : 0 < d → c.Inside) :
    SteadyAt s d (Option.Rel V) c (recovering r) (recovering r') := by
  rcases h with ⟨hsame, hwent⟩
  have hrecover := run_recovering r c
  have hrecover' := run_recovering r' c.view
  revert hsame hwent hrecover hrecover'
  rcases r.run c with ⟨o, c₁⟩
  rcases r'.run c.view with ⟨o', c₁'⟩
  intro hsame hwent hrecover hrecover'
  cases hsame with
  | yields hV =>
      cases hwent with
      | yields hmoved hcount =>
          constructor
          · rw [hrecover, hrecover']
            exact .yields (.some hV)
          · rw [hrecover]
            exact .yields hmoved hcount
  -- only here may a token have to be passed that the reader itself has not passed
  | stops =>
      cases hwent with
      | @stops m _ ts ds _ hmoved =>
          -- if the reader has passed nothing, the next token is still no end token
          have hinside' : 0 < d - ts.length → c₁.Inside := by
            intro hpos
            obtain rfl : ts = [] := List.length_eq_zero_iff.mp (by omega)
            have hrest : c.rest = c₁.rest := by simpa using hmoved.rest
            have hfirst := hinside (by omega)
            rwa [Cursor.Inside, hrest] at hfirst
          have hgo : SteadyAt s (d - ts.length) (Option.Rel V) c₁
              (synchronize >>= fun _ => Pure.pure none)
              (synchronize >>= fun _ => Pure.pure none) := by
            refine (synchronize_steady (by omega) hinside').bind fun _ _ _ _ _ _ => ?_
            exact (SteadyAt.pure .none).weaken (by omega)
          constructor
          · rw [hrecover, hrecover']
            exact hgo.same
          · rw [hrecover]
            exact (hgo.went.after hmoved).mono id (by omega)
      | faults hmoved hfault =>
          constructor
          · rw [hrecover, hrecover']
            exact .stops
          · rw [hrecover]
            exact .faults hmoved hfault

/-! ## Going on in front of an end token -/

/-- With an end token to come, going on after an error comes to an end in front of it. -/
theorem run_synchronize {c : Cursor} (hc : c.Ready) (hmove : c.Movable) :
    ∃ ts ds c', synchronize.run c = (.ok (), c') ∧ Moved c c' ts ds := by
  have hwent := (synchronize_steady (s := False) (d := 0) (c := c) (Nat.zero_le 1) nofun).went
  rcases hrun : synchronize.run c with ⟨o, c'⟩
  rw [hrun] at hwent
  cases hwent with
  | yields hmoved _ => exact ⟨_, _, c', rfl, hmoved⟩
  | stops hfalse _ => exact hfalse.elim
  | faults hmoved hfault =>
      -- it would have looked beyond the tokens, but the end token is still to come
      have hnil : c'.rest = [] := (hfault (hmoved.movable hmove)).1
      rcases (hmoved.ready hc).exists_cons with ⟨t, rest, hrest⟩
      rw [hnil] at hrest
      cases hrest

/-- A syntax error is the end of what was being read, but not of what follows it. -/
theorem Passes.recovering {r : Reader α} {c : Cursor} {P : List Token → α → List Token → Prop}
    (h : Passes r c P) (hmove : c.Movable) :
    Passes (recovering r) c fun ts a? rest => ∃ a, a? = some a ∧ P ts a rest := by
  intro hc
  cases h hc with
  | @yields ts ds a c' hrun hmoved hP =>
      refine .yields (a := some a) ?_ hmoved fun hds => ⟨a, rfl, hP hds⟩
      rw [run_recovering, hrun]
  | @stops ts ds m c' hrun hmoved hds =>
      rcases run_synchronize (hmoved.ready hc) (hmoved.movable hmove) with
        ⟨us, es, c'', hrun', hmoved'⟩
      refine .yields (a := none) ?_ (hmoved.trans hmoved')
        fun h => (hds (List.append_eq_nil_iff.mp h).1).elim
      rw [run_recovering, hrun]
      exact run_bind_ok hrun'

end NovaLang.Descent
