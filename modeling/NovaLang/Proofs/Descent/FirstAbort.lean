import NovaLang.Proofs.Descent.Lenient
import NovaLang.Proofs.Descent.Viable
import Mathlib.Order.Bounds.Basic
import Mathlib.Data.Nat.Find

namespace NovaLang.Descent

open Ebnf

/-! # The first abort is at the first impossible token

The descent aborts a statement exactly where the tokens are no program of the relaxed grammar.
What stands in front of the first token that it blames can be completed to a program, and with
that token it cannot.
-/

/-- Some more tokens would complete the tokens to a program of the relaxed grammar. -/
def Viable (ts : List Token) : Prop := ∃ us, Relaxed .program (ts ++ us)

theorem viable_nil : Viable [] := Relaxed.exists_relaxed .program

/-- How many of the tokens, from the first one on, are viable. -/
def viableLengths (ts : List Token) : Set Nat := {n | n ≤ ts.length ∧ Viable (ts.take n)}

theorem exists_greatest (ts : List Token) : ∃ k, IsGreatest (viableLengths ts) k := by
  classical
  refine ⟨Nat.findGreatest (fun n => Viable (ts.take n)) ts.length, ⟨?_, ?_⟩, fun n hn => ?_⟩
  · exact Nat.findGreatest_le ts.length
  · exact Nat.findGreatest_spec (P := fun n => Viable (ts.take n)) (Nat.zero_le _) viable_nil
  · exact Nat.le_findGreatest hn.1 hn.2

theorem find?_mild {ds : List Diagnostic} (h : Mild ds) : ds.find? (·.aborts) = none :=
  List.find?_eq_none.mpr fun d hd => by simp [h d hd]

variable {ts : List Token} {stop : Token} {r : Report} {ds : List Diagnostic} {b : Nat}

/-- From a program of the relaxed grammar nothing that aborts is reported, with any bound that
the tokens do not exceed. -/
theorem program_mild (h : Relaxed .program ts) (hb : ts.length ≤ b) (r : Report) :
    ∃ ds, Mild ds ∧
      ((declarationsToEnd (declarationWithin b) b).run ⟨[], ts, r⟩).2.report = r.addAll ds := by
  rcases program_admitted h with ⟨front, stop, rfl, -, hadmits⟩
  rw [List.length_append] at hb
  rcases hadmits b (by omega) [] r with ⟨ss, ds, hds, hrun⟩
  exact ⟨ds, hds, by rw [hrun]⟩

/-- The first of the errors that aborts a statement blames the token at a position up to which
the tokens are viable; beyond it, they do not go on as a program that is within the bound. -/
structure AbortsAt (b : Nat) (ts : List Token) (ds : List Diagnostic) (k : Nat) : Prop where
  lt : k < ts.length
  blames : (ds.find? (·.aborts)).map (·.place) = some (.token ts[k])
  viable : Viable (ts.take k)
  beyond : ∀ n us, k < n → n ≤ ts.length → Relaxed .program (ts.take n ++ us) →
    b < (ts.take n ++ us).length

/-- With one bound, reading goes to the end of a program or is aborted at a position. -/
theorem read_course (hstop : stop.kind = .eof) (hb : (ts ++ [stop]).length ≤ b) {ss : List Node}
    (hrun : (declarationsToEnd (declarationWithin b) b).run ⟨[], ts ++ [stop], r⟩ =
      (.ok ss, ⟨ts.reverse, [stop], r.addAll ds⟩)) :
    (Relaxed .program (ts ++ [stop]) ∧ Mild ds) ∨ ∃ k, AbortsAt b (ts ++ [stop]) ds k := by
  have hready : Cursor.Ready ⟨[], ts ++ [stop], r⟩ := ⟨stop, by simp, hstop⟩
  have hprogram : ∀ us, (many Rule.declaration).Holds Relaxed us →
      Relaxed .program (us ++ [stop]) :=
    fun us hus => .of_body (holds_then hus (holds_last ⟨stop, rfl, hstop⟩))
  cases (declarations_read b).course _ hready hb with
  | @yields us t rest es a hsplit hinner hmild hus hsame =>
      -- reading ends in front of the end token, so that what it has passed are the tokens
      have hend := hsame rest
      rw [← hsplit, hrun] at hend
      rcases Prod.mk.inj hend with ⟨-, hcursor⟩
      rcases Cursor.mk.inj hcursor with ⟨hbefore, -, hreport⟩
      rw [List.append_nil, List.reverse_inj] at hbefore
      rw [hbefore, Report.addAll_inj hreport]
      exact .inl ⟨hprogram us hus, hmild⟩
  | @breaks us vs t rest es m hsplit hmild hm hus hsame =>
      have hsplit : ts ++ [stop] = us ++ t :: rest := hsplit
      rcases hsame rest with ⟨fs, hfs⟩
      rw [← hsplit, hrun] at hfs
      have hds : ds = es ++ ⟨.token t, m⟩ :: fs := Report.addAll_inj hfs
      refine .inr ⟨us.length, ?_, ?_, ?_, fun n ws hn hlength hrelaxed => ?_⟩
      · rw [hsplit, List.length_append, List.length_cons]
        omega
      · have habort : (⟨.token t, m⟩ : Diagnostic).aborts = true := hm
        rw [hds, List.find?_append, find?_mild hmild, Option.none_or, List.find?_cons_of_pos habort]
        simp [hsplit]
      · rw [hsplit, List.take_left]
        exact ⟨vs ++ [stop], by rw [← List.append_assoc]; exact hprogram _ hus⟩
      · -- a program that goes on with the token would be aborted at it as well
        by_contra hle
        rcases program_mild hrelaxed (Nat.le_of_not_lt hle) r with ⟨gs, hgs, hreport⟩
        obtain ⟨j, rfl⟩ : ∃ j, n = us.length + (j + 1) := ⟨n - us.length - 1, by omega⟩
        have hmore : (ts ++ [stop]).take (us.length + (j + 1)) ++ ws =
            us ++ t :: (rest.take j ++ ws) := by
          rw [hsplit, List.take_length_add_append, List.take_succ_cons, List.append_assoc,
            List.cons_append]
        rcases hsame (rest.take j ++ ws) with ⟨fs', hfs'⟩
        rw [hmore] at hreport
        rw [show gs = _ from Report.addAll_inj (hreport.symm.trans hfs')] at hgs
        have hnot := hgs ⟨.token t, m⟩ (List.mem_append_right _ List.mem_cons_self)
        cases hm.symm.trans hnot

/-- Errors that abort a statement are reported exactly where the tokens are no program of the
relaxed grammar. The first of them is at the token behind the longest part of the tokens, from
the first one on, that some program of the relaxed grammar begins with. -/
theorem read_first_abort (hts : ∀ t ∈ ts, t.kind ≠ .eof) (hstop : stop.kind = .eof) (r : Report) :
    ∃ ds, (read (ts ++ [stop]) r).2 = r.addAll ds ∧
      ((∃ d ∈ ds, d.aborts = true) ↔ ¬ Relaxed .program (ts ++ [stop])) ∧
      ∀ d, ds.find? (·.aborts) = some d → ∃ (k : Nat) (h : k < (ts ++ [stop]).length),
        d.place = .token (ts ++ [stop])[k] ∧ IsGreatest (viableLengths (ts ++ [stop])) k := by
  rcases ends_at_end hts hstop r with ⟨ss, ds, hends⟩
  rcases hends [] with ⟨hprogram, hbounds⟩
  refine ⟨ds, by rw [read, hprogram], ?_⟩
  rcases exists_greatest (ts ++ [stop]) with ⟨K, hK⟩
  rcases hK.1.2 with ⟨us, hus⟩
  -- a bound that neither the tokens nor the program that begins with the longest part exceed
  obtain ⟨b, hb, hb'⟩ : ∃ b, (ts ++ [stop]).length ≤ b ∧ ((ts ++ [stop]).take K ++ us).length ≤ b :=
    ⟨_, Nat.le_max_left _ _, Nat.le_max_right _ _⟩
  rcases read_course hstop hb (hbounds b hb) with ⟨hrelaxed, hmild⟩ | ⟨k, haborts⟩
  · refine ⟨⟨?_, fun hnot => absurd hrelaxed hnot⟩, fun d hd => ?_⟩
    · rintro ⟨d, hd, habort⟩
      cases habort.symm.trans (hmild d hd)
    · rw [find?_mild hmild] at hd
      cases hd
  · have hlt := haborts.lt
    have hk : k = K := by
      have hle : k ≤ K := hK.2 ⟨Nat.le_of_lt hlt, haborts.viable⟩
      by_contra hne
      have := haborts.beyond K us (by omega) hK.1.1 hus
      omega
    have hnot : ¬ Relaxed .program (ts ++ [stop]) := by
      intro hrelaxed
      have := haborts.beyond _ [] hlt (Nat.le_refl _)
      rw [List.take_length, List.append_nil] at this
      have := this hrelaxed
      omega
    rcases Option.map_eq_some_iff.mp haborts.blames with ⟨d, hd, hplace⟩
    refine ⟨⟨fun _ => hnot, fun _ => ?_⟩, fun d' hd' => ?_⟩
    · exact ⟨d, List.mem_of_find?_eq_some hd, List.find?_some hd⟩
    · obtain rfl : d = d' := Option.some.inj (hd.symm.trans hd')
      exact ⟨k, hlt, hplace, hk ▸ hK⟩

/-- The tokens of `true = nil; )`: the target is no name, and no declaration begins with a
closing parenthesis. -/
def strayParen : List Token :=
  [.scanned .kwTrue "true" .nil 1, .scanned .equal "=" .nil 1, .scanned .kwNil "nil" .nil 1,
    .scanned .semicolon ";" .nil 1, .scanned .rightParen ")" .nil 1]

theorem read_first_abort_strayParen :
    (∀ t ∈ strayParen, t.kind ≠ .eof) ∧ (Token.scanned .eof "" .nil 1).kind = .eof ∧
      ¬ Relaxed .program (strayParen ++ [.scanned .eof "" .nil 1]) ∧
      IsGreatest (viableLengths (strayParen ++ [.scanned .eof "" .nil 1])) 4 := by
  have hkinds : ∀ t ∈ strayParen, t.kind ≠ .eof := by decide
  rcases @read_first_abort strayParen (.scanned .eof "" .nil 1) hkinds rfl {} with
    ⟨ds, hreport, hiff, hfirst⟩
  -- the assignment is complained about first, which aborts nothing
  have hread : (read (strayParen ++ [.scanned .eof "" .nil 1]) {}).2 = Report.addAll {}
      [⟨.token (.scanned .equal "=" .nil 1), .invalidTarget⟩,
        ⟨.token (.scanned .rightParen ")" .nil 1), .expected .expression⟩] := rfl
  obtain rfl := Report.addAll_inj (hreport.symm.trans hread)
  rcases hfirst _ rfl with ⟨k, hk, hplace, hgreatest⟩
  have hposition : ∀ (k : Nat) (h : k < (strayParen ++ [Token.scanned .eof "" .nil 1]).length),
      Place.token (.scanned .rightParen ")" .nil 1) =
        .token (strayParen ++ [Token.scanned .eof "" .nil 1])[k] → k = 4 := by decide
  obtain rfl := hposition k hk hplace
  exact ⟨hkinds, rfl, hiff.mp ⟨_, List.mem_cons_of_mem _ List.mem_cons_self, rfl⟩, hgreatest⟩

end NovaLang.Descent
