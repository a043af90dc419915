import NovaLang.Proofs.Phrase

namespace NovaLang.Phrase

/-! # Where semicolons stand

A semicolon of a program ends a declaration or a statement, or it separates clauses in the head of
a `for`. Around the declaration that it stands in there are others, in the program or in a block of
yet another declaration.
-/

/-! ## Tokens around a statement -/

/-- The tokens in front of a statement and behind it, in a statement that it is a part of, with
no block in between. The inner statement dangles as in `hole`, and the outer one as is said. -/
inductive Setting (hole : Bool) : (dangling : Bool) → List Token → List Token → Prop where
  | here : Setting hole hole [] []
  | forBody {d : Bool} {f l s r : Token} {is cs ns pre post : List Token} {i c n : Node} :
      f.kind = .kwFor → l.kind = .leftParen → Initializer is i → Maybe cs c →
      s.kind = .semicolon → Maybe ns n → r.kind = .rightParen → Setting hole d pre post →
      Setting hole d (f :: l :: (is ++ (cs ++ s :: (ns ++ r :: pre)))) post
  | whileBody {d : Bool} {w l r : Token} {cs pre post : List Token} {c : Node} :
      w.kind = .kwWhile → l.kind = .leftParen → Expr .expression cs c → r.kind = .rightParen →
      Setting hole d pre post → Setting hole d (w :: l :: (cs ++ r :: pre)) post
  | ifAlone {d : Bool} {i l r : Token} {cs pre post : List Token} {c : Node} :
      i.kind = .kwIf → l.kind = .leftParen → Expr .expression cs c → r.kind = .rightParen →
      Setting hole d pre post → Setting hole true (i :: l :: (cs ++ r :: pre)) post
  | thenBranch {d : Bool} {i l r o : Token} {cs pre post es : List Token} {c e : Node} :
      i.kind = .kwIf → l.kind = .leftParen → Expr .expression cs c → r.kind = .rightParen →
      Setting hole false pre post → o.kind = .kwElse → Stmt .statement d es e →
      Setting hole d (i :: l :: (cs ++ r :: pre)) (post ++ o :: es)
  | elseBranch {d : Bool} {i l r o : Token} {cs ts pre post : List Token} {c t : Node} :
      i.kind = .kwIf → l.kind = .leftParen → Expr .expression cs c → r.kind = .rightParen →
      Stmt .statement false ts t → o.kind = .kwElse → Setting hole d pre post →
      Setting hole d (i :: l :: (cs ++ r :: (ts ++ o :: pre))) post

/-- What surrounds a statement is filled by any statement of the kind. -/
theorem Setting.fill {hole d : Bool} {pre post ts : List Token} {s : Node}
    (h : Setting hole d pre post) (hs : Stmt .statement hole ts s) :
    ∃ s', Stmt .statement d (pre ++ (ts ++ post)) s' := by
  -- from the place outward, one statement around it at a time
  induction h with
  | here => exact ⟨s, by simpa using hs⟩
  | forBody hf hl hi hc hs hn hr _ ih =>
      rcases ih with ⟨_, h⟩
      exact ⟨_, by simpa using Stmt.forLoop hf hl hi hc hs hn hr h⟩
  | whileBody hw hl hc hr _ ih =>
      rcases ih with ⟨_, h⟩
      exact ⟨_, by simpa using Stmt.whileLoop hw hl hc hr h⟩
  | ifAlone hi hl hc hr _ ih =>
      rcases ih with ⟨_, h⟩
      exact ⟨_, by simpa using Stmt.ifAlone hi hl hc hr h⟩
  | thenBranch hi hl hc hr _ ho he ih =>
      rcases ih with ⟨_, h⟩
      exact ⟨_, by simpa using Stmt.ifElse hi hl hc hr h ho he⟩
  | elseBranch hi hl hc hr ht ho _ ih =>
      rcases ih with ⟨_, h⟩
      exact ⟨_, by simpa using Stmt.ifElse hi hl hc hr ht ho h⟩

/-- What stands behind a statement in one that it is part of begins with an `else`. -/
theorem Setting.head_else {hole d : Bool} {pre post : List Token} (h : Setting hole d pre post) :
    ∀ t ∈ post.head?, t.kind = .kwElse := by
  induction h with
  | here => exact nofun
  | forBody _ _ _ _ _ _ _ _ ih | whileBody _ _ _ _ _ ih | ifAlone _ _ _ _ _ ih
  | elseBranch _ _ _ _ _ _ _ ih => exact ih
  | @thenBranch _ _ _ _ o _ _ post _ _ _ _ _ _ _ _ ho _ ih =>
      cases post with
      | nil => exact fun t ht => Option.some.inj ht ▸ ho
      | cons u post => exact ih

/-- A statement in one that is a part of another is a part of that. -/
theorem Setting.comp {hole d d' : Bool} {pre post pre' post' : List Token}
    (h : Setting d d' pre post) (h' : Setting hole d pre' post') :
    Setting hole d' (pre ++ pre') (post' ++ post) := by
  induction h with
  | here => simpa using h'
  | forBody hf hl hi hc hs hn hr _ ih => simpa using Setting.forBody hf hl hi hc hs hn hr ih
  | whileBody hw hl hc hr _ ih => simpa using Setting.whileBody hw hl hc hr ih
  | ifAlone hi hl hc hr _ ih => simpa using Setting.ifAlone hi hl hc hr ih
  | thenBranch hi hl hc hr _ ho he ih => simpa using Setting.thenBranch hi hl hc hr ih ho he
  | elseBranch hi hl hc hr ht ho _ ih => simpa using Setting.elseBranch hi hl hc hr ht ho ih

/-- What stands in front of a statement in one that it is part of begins a statement as well. -/
theorem Setting.first {hole d : Bool} {pre post : List Token} {t : Token}
    (h : Setting hole d pre post) (ht : t.kind ∈ stmtStarts .statement) (ts us : List Token) :
    ∃ u more, pre ++ t :: ts ++ us = u :: more ∧ u.kind ∈ stmtStarts .statement := by
  cases h with
  | here => exact ⟨t, ts ++ us, rfl, ht⟩
  | forBody h | whileBody h | ifAlone h | thenBranch h | elseBranch h =>
      exact ⟨_, _, rfl, by simp [stmtStarts, h]⟩

/-! ## Tokens around a declaration -/

/-- The tokens in front of a declaration and behind it in a program: it stands directly in the
program, or in a block of a declaration that has such surroundings itself. -/
inductive Around : List Token → List Token → Prop where
  | program {xs ys : List Token} {as bs : List Node} :
      Program xs as → Program ys bs → Around xs ys
  | block {d : Bool} {l r : Token} {xs ys pre post xs' ys' : List Token} {as bs : List Node} :
      Around xs ys → Setting false d pre post → l.kind = .leftBrace → Program xs' as →
      Program ys' bs → r.kind = .rightBrace →
      Around (xs ++ (pre ++ l :: xs')) (ys' ++ r :: (post ++ ys))

/-- A declaration between two programs. -/
theorem Program.around {xs ts ys : List Token} {as bs : List Node} {d : Bool} {s : Node}
    (hxs : Program xs as) (hs : Stmt .declaration d ts s) (hys : Program ys bs) :
    Program (xs ++ (ts ++ ys)) (as ++ s :: bs) :=
  hxs.append (.cons hs hys)

/-- A declaration fills a place in a program. -/
theorem Around.fill {xs ts ys : List Token} {d : Bool} {s : Node} (h : Around xs ys)
    (hs : Stmt .declaration d ts s) : ∃ ss, Program (xs ++ (ts ++ ys)) ss := by
  induction h generalizing d ts s with
  | program hxs hys => exact ⟨_, hxs.around hs hys⟩
  | block _ hsetting hl hxs' hys' hr ih =>
      rcases hsetting.fill (.block hl (hxs'.around hs hys') hr) with ⟨s', hs'⟩
      rcases ih (.statement hs') with ⟨ss, hss⟩
      exact ⟨ss, by simpa using hss⟩

/-! ## Semicolons that end a statement -/

/-- The tokens of a declaration are cut at a semicolon. It ends the declaration itself, a statement
in it that stands in no block of it, or the first clause of a `for` that does so. -/
inductive Ended : List Token → Token → List Token → Prop where
  | varDecl {s : Token} {ts : List Token} {n : Node} :
      Simple .varDecl (ts ++ [s]) n → Ended ts s []
  | exprStmt {d : Bool} {s : Token} {pre post ts : List Token} {n : Node} :
      Setting false d pre post → Simple .exprStmt (ts ++ [s]) n → Ended (pre ++ ts) s post
  | printStmt {d : Bool} {s : Token} {pre post ts : List Token} {n : Node} :
      Setting false d pre post → Simple .printStmt (ts ++ [s]) n → Ended (pre ++ ts) s post
  | initializer {d d' : Bool} {q : Rule} {f l s s' r : Token} {pre post is cs ns bs : List Token}
      {i c n b : Node} :
      Setting d d' pre post → f.kind = .kwFor → l.kind = .leftParen →
      q = .varDecl ∨ q = .exprStmt → Simple q (is ++ [s]) i → Maybe cs c → s'.kind = .semicolon →
      Maybe ns n → r.kind = .rightParen → Stmt .statement d bs b →
      Ended (pre ++ f :: l :: is) s (cs ++ s' :: (ns ++ r :: (bs ++ post)))

/-- Of the simple statements, these two are initializers ... -/
theorem Simple.initializer {q : Rule} {ts : List Token} {n : Node} (h : Simple q ts n)
    (hq : q = .varDecl ∨ q = .exprStmt) : Initializer ts n := by
  rcases hq with rfl | rfl
  · exact .varDecl h
  · exact .exprStmt h

/-- ... and these two are statements. -/
theorem Simple.statement {q : Rule} {ts : List Token} {n : Node} (h : Simple q ts n)
    (hq : q = .exprStmt ∨ q = .printStmt) : Stmt .statement false ts n := by
  rcases hq with rfl | rfl
  · exact .exprStmt h
  · exact .printStmt h

/-- What ends in the semicolon is part of a declaration. -/
theorem Ended.declaration {ts us : List Token} {s : Token} (h : Ended ts s us) :
    ∃ d n, Stmt .declaration d (ts ++ s :: us) n := by
  cases h with
  | varDecl h => exact ⟨_, _, .varDecl h⟩
  | exprStmt hsetting h =>
      rcases hsetting.fill (.exprStmt h) with ⟨n, hn⟩
      exact ⟨_, n, .statement (by simpa using hn)⟩
  | printStmt hsetting h =>
      rcases hsetting.fill (.printStmt h) with ⟨n, hn⟩
      exact ⟨_, n, .statement (by simpa using hn)⟩
  | initializer hsetting hf hl hq hi hc hs hn hr hb =>
      rcases hsetting.fill (.forLoop hf hl (hi.initializer hq) hc hs hn hr hb) with ⟨n, hn⟩
      exact ⟨_, n, .statement (by simpa using hn)⟩

/-- The semicolon stands in the head of a `for`, behind an empty first clause or behind the
condition. -/
inductive Separates : List Token → Token → List Token → Prop where
  | first {d d' : Bool} {f l s s' r : Token} {pre post cs ns bs : List Token} {c n b : Node} :
      Setting d d' pre post → f.kind = .kwFor → l.kind = .leftParen → s.kind = .semicolon →
      Maybe cs c → s'.kind = .semicolon → Maybe ns n → r.kind = .rightParen →
      Stmt .statement d bs b →
      Separates (pre ++ [f, l]) s (cs ++ s' :: (ns ++ r :: (bs ++ post)))
  | second {d d' : Bool} {f l s r : Token} {pre post is cs ns bs : List Token} {i c n b : Node} :
      Setting d d' pre post → f.kind = .kwFor → l.kind = .leftParen → Initializer is i →
      Maybe cs c → s.kind = .semicolon → Maybe ns n → r.kind = .rightParen →
      Stmt .statement d bs b →
      Separates (pre ++ f :: l :: (is ++ cs)) s (ns ++ r :: (bs ++ post))

/-! ## Tokens cut at a semicolon -/

section

variable {as bs xs ys : List Token} {s : Token}

/-- Tokens in a row are cut in the first ones or in the others. -/
theorem cut_append (h : xs ++ ys = as ++ s :: bs) :
    (∃ bs', xs = as ++ s :: bs' ∧ bs = bs' ++ ys) ∨
      ∃ as', as = xs ++ as' ∧ ys = as' ++ s :: bs := by
  rcases List.append_eq_append_iff.mp h with ⟨as', rfl, hys⟩ | ⟨zs, rfl, hzs⟩
  · exact .inr ⟨as', rfl, hys⟩
  · cases zs with
    | nil => exact .inr ⟨[], by simp, hzs.symm⟩
    | cons z zs =>
        obtain ⟨rfl, rfl⟩ := List.cons.inj hzs
        exact .inl ⟨zs, rfl, rfl⟩

/-- Where there is no semicolon the tokens are not cut. -/
theorem cut_behind (h : xs ++ ys = as ++ s :: bs) (hxs : ∀ t ∈ xs, t.kind ≠ .semicolon)
    (hs : s.kind = .semicolon) : ∃ as', as = xs ++ as' ∧ ys = as' ++ s :: bs := by
  refine (cut_append h).resolve_left ?_
  rintro ⟨bs', rfl, -⟩
  exact hxs s (by simp) hs

/-- No semicolon is among the tokens of an expression: ... -/
theorem inner_cons {t : Token} {k : Kind} (ht : t.kind = k) (hk : k ≠ .semicolon)
    (hxs : ∀ t ∈ xs, t.kind ≠ .semicolon) : ∀ u ∈ t :: xs, u.kind ≠ .semicolon :=
  List.forall_mem_cons.mpr ⟨ht ▸ hk, hxs⟩

/-- ... not as a token by itself, ... -/
theorem inner_one {t : Token} {k : Kind} (ht : t.kind = k) (hk : k ≠ .semicolon) :
    ∀ u ∈ [t], u.kind ≠ .semicolon :=
  inner_cons ht hk fun _ hu => absurd hu List.not_mem_nil

/-- ... nor in one of two parts, ... -/
theorem inner_append (hxs : ∀ t ∈ xs, t.kind ≠ .semicolon) (hys : ∀ t ∈ ys, t.kind ≠ .semicolon) :
    ∀ t ∈ xs ++ ys, t.kind ≠ .semicolon :=
  List.forall_mem_append.mpr ⟨hxs, hys⟩

/-- No semicolon is part of an expression. -/
theorem Expr.inner {q : Rule} {ts : List Token} {e : Node} (h : Expr q ts e) :
    ∀ t ∈ ts, t.kind ≠ .semicolon := by
  induction h with
  | @constant t v ht =>
      refine List.forall_mem_singleton.mpr fun h => ?_
      simp [Token.constant?, h] at ht
  | name ht => exact inner_one ht (by decide)
  | grouping hl _ hr ih =>
      exact inner_cons hl (by decide) (inner_append ih (inner_one hr (by decide)))
  | callAlone _ hl hr ih =>
      exact inner_append ih (inner_cons hl (by decide) (inner_one hr (by decide)))
  | callWith _ hl _ _ hr ih ih' =>
      have hclose := inner_one hr (by decide)
      exact inner_append (inner_append ih (inner_cons hl (by decide) ih')) hclose
  | argument _ hc _ ih ih' => exact inner_append ih (inner_cons hc (by decide) ih')
  | unary ho _ ih => exact inner_cons rfl (fun h => by simp [h] at ho) ih
  | @operation l _ _ _ _ _ _ ho _ ih ih' =>
      refine inner_append ih (inner_cons rfl (fun h => ?_) ih')
      rw [h] at ho
      cases l <;> exact absurd ho (by decide)
  | assignment hn hq _ ih => exact inner_cons hn (by decide) (inner_cons hq (by decide) ih)
  | primary _ ih | lastArgument _ ih | call _ ih | operand _ ih | disjunction _ ih | whole _ ih =>
      exact ih

/-- The same for an expression that may be left out ... -/
theorem Maybe.inner {ts : List Token} {e : Node} (h : Maybe ts e) :
    ∀ t ∈ ts, t.kind ≠ .semicolon := by
  cases h with
  | absent => exact nofun
  | present h => exact h.inner

/-- ... and for one in parentheses behind a keyword. -/
theorem inner_head {k l r : Token} {kind : Kind} (hk : k.kind = kind) (hkind : kind ≠ .semicolon)
    (hl : l.kind = .leftParen) (hxs : ∀ t ∈ xs, t.kind ≠ .semicolon) (hr : r.kind = .rightParen) :
    ∀ t ∈ k :: l :: (xs ++ [r]), t.kind ≠ .semicolon :=
  inner_cons hk hkind (inner_cons hl (by decide) (inner_append hxs (inner_one hr (by decide))))

/-- A declaration or statement with a semicolon has none but at its end. -/
theorem Simple.cut {q : Rule} {ts : List Token} {n : Node} (h : Simple q ts n)
    (heq : ts = as ++ s :: bs) (hs : s.kind = .semicolon) : bs = [] := by
  -- in front of the semicolon there is none, so the one that is cut at is the last
  have hlast : ∀ {fs : List Token} {u : Token}, (∀ t ∈ fs, t.kind ≠ .semicolon) →
      fs ++ [u] = as ++ s :: bs → bs = [] := by
    intro fs u hfs heq
    obtain ⟨as', -, heq⟩ := cut_behind heq hfs hs
    cases as' with
    | nil => exact (List.cons.inj heq).2.symm
    | cons v as' => simp at heq
  cases h with
  | @bare v n u hv hn =>
      have hinner : ∀ t ∈ [v, n], t.kind ≠ .semicolon :=
        inner_cons hv (by decide) (inner_one hn (by decide))
      exact hlast hinner (show [v, n] ++ [u] = _ from heq)
  | initialized hv hn hq he =>
      exact hlast (inner_cons hv (by decide) (inner_cons hn (by decide)
        (inner_cons hq (by decide) he.inner))) heq
  | expression he => exact hlast he.inner heq
  | print hp he => exact hlast (inner_cons hp (by decide) he.inner) heq

/-- The semicolon of an initializer is its last token. -/
theorem Initializer.cut {ts : List Token} {i : Node} (h : Initializer ts i)
    (heq : ts = as ++ s :: bs) (hs : s.kind = .semicolon) :
    bs = [] ∧ (as = [] ∨ ∃ q n, (q = .varDecl ∨ q = .exprStmt) ∧ Simple q (as ++ [s]) n) := by
  cases h with
  | absent =>
      cases as with
      | nil => exact ⟨(List.cons.inj heq).2.symm, .inl rfl⟩
      | cons a as => simp at heq
  | varDecl h =>
      obtain rfl := h.cut heq hs
      obtain rfl := heq
      exact ⟨rfl, .inr ⟨_, _, .inl rfl, h⟩⟩
  | exprStmt h =>
      obtain rfl := h.cut heq hs
      obtain rfl := heq
      exact ⟨rfl, .inr ⟨_, _, .inr rfl, h⟩⟩

end

/-! ## Every semicolon of a program -/

/-- The semicolon stands in a declaration of the program, where it ends a statement or separates
clauses in the head of a `for`. -/
def Placed (as : List Token) (s : Token) (bs : List Token) : Prop :=
  ∃ xs ts us ys, as = xs ++ ts ∧ bs = us ++ ys ∧ Around xs ys ∧ (Ended ts s us ∨ Separates ts s us)

/-- Wherever a part of a program is cut at a semicolon, that has its place in the program. -/
def Placing : Part → Bool → List Token → Prop
  | .statement, d, ts => ∀ {xs ys pre post : List Token} {d' : Bool}, Around xs ys →
      Setting d d' pre post → ∀ {as bs : List Token} {s : Token}, ts = as ++ s :: bs →
      s.kind = .semicolon → Placed (xs ++ (pre ++ as)) s (bs ++ (post ++ ys))
  | .declaration, _, ts => ∀ {xs ys : List Token}, Around xs ys →
      ∀ {as bs : List Token} {s : Token}, ts = as ++ s :: bs → s.kind = .semicolon →
      Placed (xs ++ as) s (bs ++ ys)
  | .declarations, _, ts => ∀ {xs ys : List Token},
      (∀ {xs' ys' as bs}, Program xs' as → Program ys' bs → Around (xs ++ xs') (ys' ++ ys)) →
      ∀ {as bs : List Token} {s : Token}, ts = as ++ s :: bs → s.kind = .semicolon →
      Placed (xs ++ as) s (bs ++ ys)

/-- Every semicolon of a statement has its place. -/
theorem Stmt.placing {p : Part} {d : Bool} {ts : List Token} {n : Node} (h : Stmt p d ts n) :
    Placing p d ts := by
  induction h with
  | exprStmt h =>
      intro xs ys pre post d' haround hsetting as bs s heq hs
      obtain rfl := h.cut heq hs
      obtain rfl := heq
      exact ⟨xs, pre ++ as, post, ys, rfl, rfl, haround, .inl (.exprStmt hsetting h)⟩
  | printStmt h =>
      intro xs ys pre post d' haround hsetting as bs s heq hs
      obtain rfl := h.cut heq hs
      obtain rfl := heq
      exact ⟨xs, pre ++ as, post, ys, rfl, rfl, haround, .inl (.printStmt hsetting h)⟩
  | @forLoop d f l s' r is cs ns body i c n b hf hl hi hc hs' hn hr hb ih =>
      intro xs ys pre post d' haround hsetting as bs s heq hs
      have hall : [f, l] ++ (is ++ (cs ++ s' :: (ns ++ r :: body))) = as ++ s :: bs := by
        simpa using heq
      clear heq
      have hhead : ∀ t ∈ [f, l], t.kind ≠ .semicolon :=
        inner_cons hf (by decide) (inner_one hl (by decide))
      obtain ⟨as, rfl, hclauses⟩ := cut_behind hall hhead hs
      clear hall
      rcases cut_append hclauses with ⟨bs, his, rfl⟩ | ⟨as, rfl, hcondition⟩
      · -- the semicolon of the first clause
        have hsplit : [] ++ (cs ++ s' :: (ns ++ r :: body)) ++ (post ++ ys) =
            cs ++ s' :: (ns ++ r :: (body ++ post)) ++ ys := by simp
        obtain ⟨rfl, rfl | ⟨q, n', hq, hsimple⟩⟩ := hi.cut his hs
        · exact ⟨xs, pre ++ [f, l], _, ys, by simp, hsplit, haround,
            .inr (.first hsetting hf hl hs hc hs' hn hr hb)⟩
        · exact ⟨xs, pre ++ f :: l :: as, _, ys, by simp, hsplit, haround,
            .inl (.initializer hsetting hf hl hq hsimple hc hs' hn hr hb)⟩
      clear hclauses
      obtain ⟨as, rfl, hcut⟩ := cut_behind hcondition hc.inner hs
      clear hcondition
      cases as with
      | nil =>
          obtain ⟨rfl, rfl⟩ := List.cons.inj hcut
          exact ⟨xs, pre ++ f :: l :: (is ++ cs), ns ++ r :: (body ++ post), ys, by simp, by simp,
            haround, .inr (.second hsetting hf hl hi hc hs hn hr hb)⟩
      | cons v as =>
          obtain ⟨rfl, hrest⟩ := List.cons.inj hcut
          have htail : ns ++ [r] ++ body = as ++ s :: bs := by simpa using hrest
          clear hcut hrest
          obtain ⟨as, rfl, hbody⟩ :=
            cut_behind htail (inner_append hn.inner (inner_one hr (by decide))) hs
          simpa using ih haround (hsetting.comp (.forBody hf hl hi hc hs' hn hr .here)) hbody hs
  | @whileLoop d w l r cs body c b hw hl hc hr _ ih =>
      intro xs ys pre post d' haround hsetting as bs s heq hs
      have hall : w :: l :: (cs ++ [r]) ++ body = as ++ s :: bs := by simpa using heq
      clear heq
      obtain ⟨as, rfl, hbody⟩ := cut_behind hall (inner_head hw (by decide) hl hc.inner hr) hs
      simpa using ih haround (hsetting.comp (.whileBody hw hl hc hr .here)) hbody hs
  | @ifAlone d i l r cs ts c t hi hl hc hr ht ih =>
      intro xs ys pre post d' haround hsetting as bs s heq hs
      have hall : i :: l :: (cs ++ [r]) ++ ts = as ++ s :: bs := by simpa using heq
      clear heq
      obtain ⟨as, rfl, hbranch⟩ := cut_behind hall (inner_head hi (by decide) hl hc.inner hr) hs
      simpa using ih haround (hsetting.comp (.ifAlone hi hl hc hr .here)) hbranch hs
  | @ifElse d i l r o cs ts es c t e hi hl hc hr ht ho he iht ihe =>
      intro xs ys pre post d' haround hsetting as bs s heq hs
      have hall : i :: l :: (cs ++ [r]) ++ (ts ++ o :: es) = as ++ s :: bs := by simpa using heq
      clear heq
      obtain ⟨as, rfl, hbranches⟩ := cut_behind hall (inner_head hi (by decide) hl hc.inner hr) hs
      clear hall
      rcases cut_append hbranches with ⟨bs, hts, rfl⟩ | ⟨as, rfl, helse⟩
      · simpa using iht haround (hsetting.comp (.thenBranch hi hl hc hr .here ho he)) hts hs
      · have hes : [o] ++ es = as ++ s :: bs := helse
        clear helse hbranches
        obtain ⟨as, rfl, hcut⟩ := cut_behind hes (inner_one ho (by decide)) hs
        simpa using ihe haround (hsetting.comp (.elseBranch hi hl hc hr ht ho .here)) hcut hs
  | @block l r ts ss hl hts hr ih =>
      intro xs ys pre post d' haround hsetting as bs s heq hs
      have hall : [l] ++ (ts ++ [r]) = as ++ s :: bs := by simpa using heq
      clear heq
      obtain ⟨as, rfl, hinside⟩ := cut_behind hall (inner_one hl (by decide)) hs
      clear hall
      rcases cut_append hinside with ⟨bs, hcut, rfl⟩ | ⟨as, rfl, hclose⟩
      · have hslot : ∀ {xs' ys' as bs}, Program xs' as → Program ys' bs →
            Around (xs ++ (pre ++ [l]) ++ xs') (ys' ++ r :: (post ++ ys)) := fun hxs' hys' => by
          simpa using haround.block hsetting hl hxs' hys' hr
        simpa using ih hslot hcut hs
      · refine absurd hs (inner_one hr (by decide) s ?_)
        simp [hclose]
  | varDecl h =>
      intro xs ys haround as bs s heq hs
      obtain rfl := h.cut heq hs
      obtain rfl := heq
      exact ⟨xs, as, [], ys, rfl, rfl, haround, .inl (.varDecl h)⟩
  | statement _ ih =>
      intro xs ys haround as bs s heq hs
      exact ih haround .here heq hs
  | none =>
      intro xs ys _ as bs s heq _
      simp at heq
  | cons hfirst hmore ihfirst ihmore =>
      intro xs ys hslot as bs s heq hs
      rcases cut_append heq with ⟨bs, hcut, rfl⟩ | ⟨as, rfl, hcut⟩
      · have haround := hslot .none hmore
        rw [List.append_nil] at haround
        simpa using ihfirst haround hcut hs
      · rw [← List.append_assoc]
        refine ihmore (fun hxs' hys' => ?_) hcut hs
        rw [List.append_assoc]
        exact hslot (.cons hfirst hxs') hys'

/-- In a program a semicolon ends a statement or stands in the head of a `for`. -/
theorem Program.placed {as bs : List Token} {s : Token} {ss : List Node}
    (h : Program (as ++ s :: bs) ss) (hs : s.kind = .semicolon) : Placed as s bs := by
  have hslot : ∀ {xs' ys' as bs}, Program xs' as → Program ys' bs →
      Around ([] ++ xs') (ys' ++ []) := fun hxs' hys' => by
    simpa using Around.program hxs' hys'
  simpa using h.placing hslot rfl hs

end NovaLang.Phrase
