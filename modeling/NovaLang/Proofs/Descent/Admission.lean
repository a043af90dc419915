import NovaLang.Proofs.Descent.Complete
import NovaLang.Proofs.Descent.Course

namespace NovaLang.Descent

open Ebnf Phrase

/-! # Relaxed expressions are read to their end

From the tokens of an expression of the relaxed grammar the reader of its rule comes to the end
of them, and what it complains about on the way aborts no statement.
-/

variable {α β : Type}

/-- With some tokens in front of others, a reader passes them and yields a result, and it
reports nothing that aborts a statement. -/
def Admits (r : Reader α) (ts rest : List Token) : Prop :=
  ∀ before report, ∃ a ds, Mild ds ∧
    r.run ⟨before, ts ++ rest, report⟩ = (.ok a, ⟨ts.reverse ++ before, rest, report.addAll ds⟩)

namespace Admits

variable {r r' : Reader α} {f : α → Reader β} {xs ys rest : List Token} {t : Token}

/-- What is read in silence is admitted. -/
theorem of_yields {a : α} (h : Yields r xs a rest) : Admits r xs rest :=
  fun before report => ⟨a, [], .nil, h before report⟩

theorem pure (a : α) : Admits (pure a) [] rest := .of_yields (.refl _ _)

/-- Steps in silence, and a reader that is admitted behind them. -/
theorem lead (h : Leads r xs r' (ys ++ rest)) (h' : Admits r' ys rest) :
    Admits r (xs ++ ys) rest := by
  intro before report
  rcases h' (xs.reverse ++ before) report with ⟨a, ds, hds, hrun⟩
  refine ⟨a, ds, hds, ?_⟩
  rw [List.append_assoc, h, hrun, List.reverse_append, List.append_assoc]

/-- A first step that passes nothing. -/
theorem look (h : Leads r [] r' (ys ++ rest)) (h' : Admits r' ys rest) : Admits r ys rest :=
  lead h h'

/-- A first step that passes one token. -/
theorem pass (h : Leads r [t] r' (ys ++ rest)) (h' : Admits r' ys rest) :
    Admits r (t :: ys) rest :=
  lead h h'

/-- What two readers complain about aborts nothing if neither complains of more. -/
theorem bind (h : Admits r xs (ys ++ rest)) (hf : ∀ a, Admits (f a) ys rest) :
    Admits (r >>= f) (xs ++ ys) rest := by
  intro before report
  rcases h before report with ⟨a, ds, hds, hrun⟩
  rcases hf a (xs.reverse ++ before) (report.addAll ds) with ⟨b, es, hes, hrun'⟩
  -- the complaints of both, in their order
  refine ⟨b, ds ++ es, hds.append hes, ?_⟩
  rw [List.append_assoc, run_bind_ok hrun, hrun', List.reverse_append, List.append_assoc,
    Report.addAll_append]

/-- A last step that passes nothing. -/
theorem last (h : Admits r xs rest) (hf : ∀ a, Admits (f a) [] rest) :
    Admits (r >>= f) xs rest := by
  rw [← List.append_nil xs]
  exact h.bind hf

theorem consume {k : Kind} (hk : k ≠ .eof) (ht : t.kind = k) {m : Complaint} {f : Token → Reader β}
    (hf : Admits (f t) ys rest) : Admits (consume k m >>= f) (t :: ys) rest :=
  .pass (.consume hk ht) hf

theorem discard_consume {k : Kind} (hk : k ≠ .eof) (ht : t.kind = k) {m : Complaint}
    {f : Unit → Reader β} (hf : Admits (f ()) ys rest) :
    Admits (discard (Descent.consume k m) >>= f) (t :: ys) rest :=
  .pass (.discard_consume hk ht) hf

/-- A complaint that does not abort the statement. -/
theorem complain {f : Unit → Reader β} {u : Token} {m : Complaint} (hm : m.aborts = false)
    (h : Admits (f ()) ys rest) : Admits (complain u m >>= f) ys rest := by
  intro before report
  rcases h before (report.atToken u m) with ⟨a, ds, hds, hrun⟩
  exact ⟨a, ⟨.token u, m⟩ :: ds, List.forall_mem_cons.mpr ⟨hm, hds⟩, (run_bind_ok rfl).trans hrun⟩

/-- Nothing is recovered from where nothing is aborted. -/
theorem recovering (h : Admits r xs rest) : Admits (recovering r) xs rest := by
  intro before report
  rcases h before report with ⟨a, ds, hds, hrun⟩
  exact ⟨some a, ds, hds, by rw [run_recovering, hrun]⟩

end Admits

/-! ## Repetitions -/

/-- A part is no longer than all parts together. -/
theorem length_le_flatten {part : List Token} {parts : List (List Token)} (h : part ∈ parts) :
    part.length ≤ parts.flatten.length :=
  (List.sublist_flatten_of_mem h).length_le

/-- The part begins with a token of one of the kinds, and then a reader admits it in front of
whatever binds more loosely than `n`. -/
def Behind (kinds : List Kind) (n : Nat) (r : Reader α) (part : List Token) : Prop :=
  ∃ t ts, part = t :: ts ∧ t.kind ∈ kinds ∧ ∀ rest, Loose n rest → Admits r ts rest

/-- In front of such parts stands what binds as loosely as the tokens that they begin with. -/
theorem Behind.loose {kinds : List Kind} {n : Nat} {r : Reader α} {parts : List (List Token)}
    {rest : List Token} (hkinds : ∀ k ∈ kinds, n < looseness k)
    (hparts : ∀ part ∈ parts, Behind kinds n r part) (hrest : Loose n rest) :
    Loose n (parts.flatten ++ rest) := by
  cases parts with
  | nil => exact hrest
  | cons part parts =>
      rcases hparts part List.mem_cons_self with ⟨t, ts, rfl, ht, -⟩
      exact ⟨t, _, rfl, hkinds _ ht⟩

/-! ## Expressions -/

section

variable {inner : Reader Node} {first rest : List Token} {parts : List (List Token)}

/-- An operator binds more loosely than what is in its operands. -/
theorem operator_loose {l : Level} : ∀ k ∈ l.operators, ofLevel l - 1 < looseness k := by
  intro k hk
  rw [looseness_of_operator hk]
  cases l <;> decide

/-- Operators with their operands, as long as there are rounds left for them. -/
theorem foldOperators_admits {l : Level} {operand : Reader Node} (hrest : Loose (ofLevel l) rest)
    (hparts : ∀ part ∈ parts, Behind l.operators (ofLevel l - 1) operand part) :
    ∀ (count : Nat) (left : Node), parts.flatten.length ≤ count →
      Admits (foldOperators l.operators l.join operand count left) parts.flatten rest := by
  induction parts with
  | nil => exact fun count left _ => .of_yields (foldOperators_stops count left hrest)
  | cons part parts ih =>
      intro count left hcount
      rcases List.forall_mem_cons.mp hparts with ⟨⟨o, ys, rfl, ho, hys⟩, hmore⟩
      simp only [List.flatten_cons, List.length_append, List.length_cons] at hcount
      obtain ⟨count, rfl⟩ : ∃ n, count = n + 1 := ⟨count - 1, by omega⟩
      have heof : Kind.eof ∉ l.operators := by cases l <;> decide
      -- the operand ends at the next operator of the level, or where the level ends
      have hloose := Behind.loose operator_loose hmore (hrest.mono (Nat.sub_le _ 1))
      refine .pass (.accept_previous heof ho) (.bind (hys _ hloose) fun right => ?_)
      exact ih hmore count _ (by omega)

/-- An operand, and the operations behind it. -/
theorem leftAssociative_admits {l : Level} {operand : Reader Node} {bound : Nat}
    (hfirst : ∀ rest, Loose (ofLevel l - 1) rest → Admits operand first rest)
    (hparts : ∀ part ∈ parts, Behind l.operators (ofLevel l - 1) operand part)
    (hbound : parts.flatten.length ≤ bound) (hrest : Loose (ofLevel l) rest) :
    Admits (leftAssociative l.operators l.join operand bound) (first ++ parts.flatten) rest := by
  have hloose := Behind.loose operator_loose hparts (hrest.mono (Nat.sub_le _ 1))
  exact .bind (hfirst _ hloose) fun left => foldOperators_admits hrest hparts bound left hbound

/-- Too many arguments are complained about, which aborts nothing. -/
theorem limitArguments_admits {f : Unit → Reader β} {ts : List Token} (seen : Nat)
    (hrest : rest ≠ []) (h : Admits (f ()) ts rest) :
    Admits (limitArguments seen >>= f) ts rest := by
  rw [limitArguments]
  split
  · rw [bind_assoc]
    intro before report
    -- the complaint is about the next token, so there has to be one
    have hsome : ts ++ rest ≠ [] := List.append_ne_nil_of_right_ne_nil ts hrest
    rcases List.exists_cons_of_ne_nil hsome with ⟨t, us, htus⟩
    rw [run_bind_ok (run_peek htus)]
    exact Admits.complain rfl h before report
  · exact h

/-- An argument, and more of them behind commas, however many there are. -/
theorem arguments_admits (hfirst : ∀ rest, Loose 7 rest → Admits inner first rest)
    (hparts : ∀ part ∈ parts, Behind [.comma] 7 inner part) (hrest : Loose 8 rest) :
    ∀ count seen : Nat, (first ++ parts.flatten).length ≤ count →
      Admits (arguments inner count seen) (first ++ parts.flatten) rest := by
  have hsome : rest ≠ [] := by
    rcases hrest with ⟨t, more, rfl, -⟩
    exact List.cons_ne_nil t more
  have hloose := Behind.loose (n := 7) (by decide) hparts (hrest.mono (by decide))
  induction parts generalizing first with
  | nil =>
      intro count seen hcount
      simp only [List.flatten_nil, List.append_nil] at hcount ⊢
      -- without a round left there is no argument either
      rcases count with _ | count
      · rcases hrest with ⟨t, more, rfl, -⟩
        obtain rfl := List.length_eq_zero_iff.mp (Nat.le_zero.mp hcount)
        exact .look .discard_peek (.pure _)
      refine limitArguments_admits seen hsome (.last (hfirst _ hloose) fun a => ?_)
      exact .look (hrest.declined (by decide) (by decide)) (.pure _)
  | cons part parts ih =>
      intro count seen hcount
      rcases List.forall_mem_cons.mp hparts with ⟨⟨c, ys, rfl, hc, hys⟩, hmore⟩
      simp only [List.flatten_cons, List.length_append, List.length_cons] at hcount
      obtain ⟨count, rfl⟩ : ∃ n, count = n + 1 := ⟨count - 1, by omega⟩
      have hloose' := Behind.loose (n := 7) (by decide) hmore (hrest.mono (by decide))
      have hread := ih hys hmore hloose' count (seen + 1) (by rw [List.length_append]; omega)
      refine limitArguments_admits seen hsome (.bind (hfirst _ hloose) fun a => ?_)
      exact .pass (.accept_yes (by decide) hc) (.last hread fun as => .pure _)

/-- A call of what stands in front of it: arguments, if any, in parentheses. -/
def Called (inner : Reader Node) (part : List Token) : Prop :=
  ∃ l ys r, part = l :: ys ++ [r] ∧ l.kind = .leftParen ∧ r.kind = .rightParen ∧
    ∀ count rest, ys.length ≤ count → Admits (argumentsIfAny inner count) ys (r :: rest)

/-- Calls, as long as there are rounds left for them. -/
theorem foldCalls_admits (hrest : Loose 0 rest) (hparts : ∀ part ∈ parts, Called inner part) :
    ∀ (count : Nat) (callee : Node), parts.flatten.length ≤ count →
      Admits (foldCalls inner count callee) parts.flatten rest := by
  induction parts with
  | nil => exact fun count callee _ => .of_yields (foldCalls_stops count callee hrest)
  | cons part parts ih =>
      intro count callee hcount
      rcases List.forall_mem_cons.mp hparts with ⟨⟨l, ys, r, rfl, hl, hr, hys⟩, hmore⟩
      simp only [List.flatten_cons, List.length_append, List.length_cons] at hcount
      obtain ⟨count, rfl⟩ : ∃ n, count = n + 1 := ⟨count - 1, by omega⟩
      have hfinish : Admits (finishCall inner count callee) (ys ++ [r]) (parts.flatten ++ rest) :=
        .bind (hys count _ (by omega)) fun as => .consume (by decide) hr (.pure _)
      refine .pass (.accept_yes (by decide) (by simp [hl])) (.bind hfinish fun result => ?_)
      exact ih hmore count result (by omega)

end

/-- What the reader of a rule of expressions makes of the tokens, whatever stands behind them
that does not continue them. -/
def Admitted : Rule → List Token → Prop
  | .primary, ts => ∀ b rest, ts.length ≤ b + 1 → Admits (primary (expressionWithin b)) ts rest
  | .call, ts => ∀ b bound rest, ts.length ≤ b + 1 → ts.length ≤ bound → Loose 0 rest →
      Admits (call (expressionWithin b) bound) ts rest
  | .unary, ts => ∀ b bound rest, ts.length ≤ b + 1 → ts.length ≤ bound → Loose 0 rest →
      Admits (unary (expressionWithin b) bound) ts rest
  | .level l, ts => ∀ b rest, ts.length ≤ b + 1 → Loose (ofLevel l) rest →
      Admits (readLevel (expressionWithin b) (b + 1) l) ts rest
  | .arguments, ts => ∀ b count seen rest, ts.length ≤ b → ts.length ≤ count → Loose 8 rest →
      Admits (arguments (expressionWithin b) count seen) ts rest
  | .assignment, ts | .expression, ts => ∀ b rest, ts.length ≤ b → Loose 7 rest →
      Admits (expressionWithin b) ts rest
  | _, _ => True

/-- A phrase with what its reader makes of it. -/
def AdmittedPhrase (r : Rule) (ts : List Token) : Prop := Relaxed r ts ∧ Admitted r ts

section

variable {ts : List Token}

/-- A constant, a name, or an expression in parentheses. -/
theorem primary_admitted (h : Rule.primary.relaxed.Holds AdmittedPhrase ts) :
    Admitted .primary ts := by
  intro b rest hb
  simp only [Rule.relaxed, Rule.body, holds_oneOf_cons, holds_token, holds_sequence_token,
    holds_sequence_cons (e := .rule _), holds_sequence_single, holds_oneOf_nil, or_false] at h
  rcases h with ⟨t, rfl, ht⟩ | ⟨t, rfl, ht⟩ | ⟨t, rfl, ht⟩ | ⟨t, rfl, ht⟩ | ⟨t, rfl, ht⟩ |
    ⟨l, _, rfl, hl, ys, _, rfl, ⟨-, hys⟩, r, rfl, hr⟩ | ⟨t, rfl, ht⟩
  -- the five kinds of constants come first
  iterate 5
    obtain ⟨v, hv⟩ := Token.exists_constant (t := t) (by simp [ht])
    exact .of_yields (primary_constant hv)
  · simp only [List.length_cons, List.length_append, List.length_nil] at hb
    have hloose : Loose 7 ([r] ++ rest) := ⟨r, rest, rfl, by rw [hr]; decide⟩
    refine .pass (primary_grouping hl) (.bind (hys b _ (by omega) hloose) fun e => ?_)
    exact .discard_consume (by decide) hr (.pure _)
  · exact .of_yields (primary_name ht)

/-- A callee and the calls of it, each with arguments or without. -/
theorem call_admitted (h : Rule.call.relaxed.Holds AdmittedPhrase ts) : Admitted .call ts := by
  intro b bound rest hb hbound hrest
  rcases holds_before_many.mp h with ⟨first, parts, rfl, ⟨-, hfirst⟩, hparts⟩
  simp only [List.length_append] at hb hbound
  refine .bind (hfirst b _ (by omega)) fun callee =>
    foldCalls_admits hrest (fun part hpart => ?_) bound callee (by omega)
  have hlength := length_le_flatten hpart
  have hpart := hparts part hpart
  simp only [holds_sequence_token, holds_sequence_cons (e := optional _), holds_sequence_single,
    holds_token] at hpart
  rcases hpart with ⟨l, _, rfl, hl, ys, _, rfl, hys, r, rfl, hr⟩
  refine ⟨l, ys, r, rfl, hl, hr, fun count more hcount => ?_⟩
  -- an empty pair of parentheses is closed at once
  rcases hys with rfl | ⟨hphrase, hys⟩
  · exact .look (.check_yes (by decide) hr) (.pure _)
  · rcases hphrase.first with ⟨t, us, rfl, ht⟩
    have hno : t.kind ≠ .rightParen := fun h => by
      rw [h] at ht
      exact absurd ht (by decide)
    simp only [List.length_cons, List.length_append, List.length_nil] at hlength
    have hloose : Loose 8 (r :: more) := ⟨r, more, rfl, by rw [hr]; decide⟩
    refine .look (.check_no (by decide) hno) (hys b count 0 _ ?_ hcount hloose)
    rw [List.length_cons]
    omega

/-- Operators in front of a call. -/
theorem unary_admitted (h : Rule.unary.relaxed.Holds AdmittedPhrase ts) : Admitted .unary ts := by
  intro b bound rest hb hbound hrest
  rcases h with ⟨_, ys, rfl, hop, hys⟩ | ⟨hphrase, hcall⟩ | h
  · rcases holds_tokens.mp hop with ⟨o, rfl, ho⟩
    have hys := (holds_sequence_single.mp hys).2
    simp only [List.length_append, List.length_singleton] at hb hbound
    obtain ⟨bound, rfl⟩ : ∃ n, bound = n + 1 := ⟨bound - 1, by omega⟩
    refine .pass (.accept_previous (by decide) ho) (.last ?_ fun operand => .pure _)
    exact hys b bound rest (by omega) (by omega) hrest
  · rcases hphrase.first with ⟨t, us, rfl, ht⟩
    exact .look (unary_leads ht bound) (hcall b bound rest hb hbound hrest)
  · exact h.elim

/-- The operands of a level are read by the level below. -/
theorem Admitted.operand {l : Level} (h : Admitted l.operand ts) {b : Nat} {rest : List Token}
    (hb : ts.length ≤ b + 1) (hrest : Loose (ofLevel l - 1) rest) :
    Admits (readOperand (expressionWithin b) (b + 1) l) ts rest := by
  cases l with
  | factor => exact h b (b + 1) rest hb hb hrest
  | _ => exact h b rest hb hrest

/-- The levels have rules of one shape. -/
theorem level_admitted {l : Level} (h : (Rule.level l).relaxed.Holds AdmittedPhrase ts) :
    Admitted (.level l) ts := by
  intro b rest hb hrest
  rcases holds_before_many.mp h with ⟨first, parts, rfl, ⟨-, hfirst⟩, hparts⟩
  simp only [List.length_append] at hb
  rw [readLevel_eq]
  refine leftAssociative_admits (fun rest hrest => hfirst.operand (by omega) hrest)
    (fun part hpart => ?_) (by omega) hrest
  have hlength := length_le_flatten hpart
  rcases hparts part hpart with ⟨_, ys, rfl, hop, hys⟩
  rcases holds_tokens.mp hop with ⟨o, rfl, ho⟩
  have hys := (holds_sequence_single.mp hys).2
  simp only [List.length_append, List.length_singleton] at hlength
  exact ⟨o, ys, rfl, ho, fun rest hrest => hys.operand (by omega) hrest⟩

/-- The rule for arguments, without their limit. -/
theorem arguments_admitted (h : Rule.arguments.relaxed.Holds AdmittedPhrase ts) :
    Admitted .arguments ts := by
  intro b count seen rest hb hcount hrest
  rcases holds_before_many.mp h with ⟨first, parts, rfl, ⟨-, hfirst⟩, hparts⟩
  have hb' := hb
  simp only [List.length_append] at hb'
  refine arguments_admits (fun rest hrest => hfirst b rest (by omega) hrest) (fun part hpart => ?_)
    hrest count seen hcount
  have hlength := length_le_flatten hpart
  have hpart := hparts part hpart
  simp only [holds_sequence_token, holds_sequence_single] at hpart
  rcases hpart with ⟨c, ys, rfl, hc, -, hys⟩
  rw [List.length_cons] at hlength
  exact ⟨c, ys, rfl, List.mem_singleton.mpr hc, fun rest hrest => hys b rest (by omega) hrest⟩

/-- An assignment to anything, whether it can be assigned to or not. -/
theorem assignment_admitted (h : Rule.assignment.relaxed.Holds AdmittedPhrase ts) :
    Admitted .assignment ts := by
  intro b rest hb hrest
  simp only [Rule.relaxed, holds_sequence_cons (e := .rule _), holds_sequence_single,
    holds_optional, holds_sequence_token] at h
  rcases h with ⟨xs, ys, rfl, ⟨hphrase, hxs⟩, hys⟩
  have hpos : 0 < xs.length := List.length_pos_iff.mpr hphrase.ne_nil
  rw [List.length_append] at hb
  obtain ⟨b, rfl⟩ : ∃ n, b = n + 1 := ⟨b - 1, by omega⟩
  rcases hys with rfl | ⟨q, ys, rfl, hq, -, hys⟩
  · -- without an equals sign it is a disjunction, which what follows does not continue
    have htarget := hxs b rest (by omega) (hrest.mono (by decide))
    rw [List.append_nil]
    exact .last htarget fun target => .look (hrest.declined (by decide) (by decide)) (.pure _)
  · rw [List.length_cons] at hb
    have hloose : Loose 6 (q :: ys ++ rest) := ⟨q, ys ++ rest, rfl, by rw [hq]; decide⟩
    refine .bind (hxs b _ (by omega) hloose) fun target => ?_
    refine .pass (.accept_previous (by decide) (List.mem_singleton.mpr hq)) ?_
    refine .last (hys b rest (by omega) hrest) fun value => ?_
    -- a target that is no name is complained about, which aborts nothing
    split
    · exact .pure _
    · exact .complain rfl (.pure _)

end

/-- Every expression of the relaxed grammar is admitted. -/
theorem relaxed_admitted {r : Rule} {ts : List Token} (h : Relaxed r ts) : Admitted r ts := by
  refine Least.induction (fun r ts hbody => ?_) h
  cases r with
  | primary => exact primary_admitted hbody
  | call => exact call_admitted hbody
  | unary => exact unary_admitted hbody
  | level l => exact level_admitted hbody
  | arguments => exact arguments_admitted hbody
  | assignment => exact assignment_admitted hbody
  | expression => exact hbody.2
  -- nothing is claimed here of the rules of statements
  | program | declaration | varDecl | statement | exprStmt | forStmt | ifStmt | printStmt
  | whileStmt | block => exact trivial

end NovaLang.Descent
