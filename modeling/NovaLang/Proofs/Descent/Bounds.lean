import NovaLang.Proofs.Descent.Traversal

namespace NovaLang.Descent

/-! # Bounds do not matter

Every reader of the descent is steady: from any cursor it goes forward up to the first end
token at most, and does the same with any bound that the tokens in sight do not exceed. It
follows where the reading of a token list ends, and that no call of a reader leaves it.
-/

/-! ## The same tokens and trees -/

/-- Lists that agree part by part are one list. -/
theorem forall₂_eq {α : Type} {as as' : List α} (h : List.Forall₂ (· = ·) as as') : as = as' := by
  -- equality of the parts, as a relation of lists, is equality
  rwa [List.forall₂_eq_eq_eq] at h

/-- A part that may be absent is absent in both or the same in both. -/
theorem IfPresent.eq {e e' : Node} (h : IfPresent (· = ·) e e') : e = e' := by
  by_cases he : e = .absent
  · rw [he, h.1.mp he]
  · exact h.2 he

/-- Tokens and trees that are alike are the same. -/
def Likeness.same (elastic : Prop) : Likeness where
  token := (· = ·)
  expression _ := (· = ·)
  statement _ := (· = ·)
  elastic := elastic
  literal _ := rfl
  constant h := by rw [h]
  reference h _ := by rw [h]
  grouping h := by rw [h]
  call hf hp _ has := by rw [hf, hp, forall₂_eq has]
  unary ho _ he := by rw [ho, he]
  join ha ho _ hb := by rw [ha, ho, hb]
  assign he hv := ⟨_, he.symm, by rw [hv]⟩
  name h := ⟨_, h⟩
  looser _ h := h
  there h := by rw [h]
  evaluated h := by rw [h]
  printed h := by rw [h]
  declared hn _ he := by rw [hn, he.eq]
  block hss := by rw [forall₂_eq hss]
  branch hc hs he := by rw [hc, hs, he.eq]
  loop hc hs := by rw [hc, hs]
  inSequence h := h
  stands h := by rw [h]

variable {α : Type} {m : Manner} {n d : Nat} {V : α → α → Prop} {r r' : Reader α}

/-- Readers of the same steps go as far as the steps do, and see no more than they do. -/
theorem Descends.steady (h : Descends (.same True) m n d V r r') : Steady m.Fails n d V r r' := by
  induction h with
  | pure hV => exact fun c _ => .pure hV
  -- what the first reader passes is no longer in sight of the second
  | bind _ _ ih ihf =>
      exact fun c hc => (ih c hc).bind fun a a' c₁ hV _ hsight => ihf a a' hV c₁ (by omega)
  | weaken _ hn hd hV ih => exact fun c hc => (ih c (Nat.le_trans hc hn)).mono id hd hV
  -- a reader that never stops at an error is one that may
  | far _ ih => exact fun c hc => (ih c hc).mono (fun _ => trivial) (Nat.le_refl _) fun _ _ => id
  -- with nothing in sight both readers stop at their first look
  | blind _ hr hr' => exact fun c hc => .of_looks (Cursor.rest_of_sight hc) hr hr'
  | peek => exact fun c _ => .peek
  | complain complaint ht =>
      cases ht
      exact fun c _ => .complain _ complaint
  | fail complaint hm => exact fun c _ => .fail hm complaint
  | check hkind => exact fun c _ => .check hkind
  | consume complaint hm hkind => exact fun c _ => .consume hm hkind complaint
  | accept hkinds _ _ ihyes ihno =>
      intro c hc
      refine .accept hkinds (fun t rest hrest ht _ => ihyes _ ?_) (ihno c hc)
      exact Cursor.sight_past hrest ht hc
  -- the token passed is the one both readers look back at
  | acceptPrevious hkinds _ _ ihyes ihno =>
      intro c hc
      refine .accept hkinds (fun t rest hrest ht hkind => ?_) (ihno c hc)
      exact .previous rfl (ihyes t t rfl hkind _ (Cursor.sight_past hrest ht hc))
  | acceptBrace _ _ ihyes ihno =>
      intro c hc
      refine .accept (by decide) (fun t rest hrest ht _ => ihyes _ ?_) (ihno c hc)
      exact Cursor.sight_past hrest ht hc
  | remaining _ _ ih =>
      -- the first reader counts all tokens to come, and the second one those in sight
      intro c _
      have hall : c.sight ≤ c.rest.length := length_upToEnd c.rest
      have hsteady := ih c.sight c.rest.length c.sight (.inr ⟨trivial, hall, Nat.le_refl _⟩) c
        (Nat.le_refl _)
      exact ⟨hsteady.same, hsteady.went⟩
  -- skipping after a syntax error ends at a token in sight as well
  | recovering _ ih =>
      exact fun c hc => ((ih c hc).weaken (Nat.zero_le _)).recovering (Nat.zero_le 1) nofun
  | next _ hb _ ih ihf =>
      refine fun c hc => .isAtEnd (.pure hb) fun hinside => ?_
      -- whether it is read or skipped, a token less is in sight
      have hfirst : SteadyAt False 1 _ c _ _ :=
        (ih c hc).recovering (Nat.le_refl 1) fun _ => hinside
      exact hfirst.bind fun a a' c₁ hV _ hsight => ihf a a' hV c₁ (by omega)

end NovaLang.Descent
