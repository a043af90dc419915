import NovaLang.Node.Print
import NovaLang.Proofs.Decimal.Display
import NovaLang.Proofs.Layout
import NovaLang.Proofs.Node.Outline

namespace NovaLang

/-! # Printed trees

The text of a tree is that of an outline. The head of a group, with the number of its parts, tells
the form of the node it was printed for, and a word tells its literal or its name; so a tree is
known from its outline, but for its lines.
-/

/-! ## Values and tokens -/

/-- The value is finite if it is a number. -/
def Value.IsFinite : Value → Prop
  | .number x => x.isFinite = true
  | _ => True

/-- The value is one that a literal of a text has, and a finite one if it is a number. -/
def Value.IsPrinted : Value → Prop
  | .nil | .bool _ => True
  | .number x => x.isFinite = true
  | .text s => '"' ∉ s.toList
  | .native _ | .int _ | .data _ => False

namespace Lexical

open Grammar Token

/-- All marks and keywords. -/
def spellings : List (String × Kind) := marks ++ Kind.keywords

/-- No text spells two kinds. -/
theorem spellings_unique : ∀ e ∈ spellings, ∀ e' ∈ spellings, e.2 = e'.2 → e.1 = e'.1 := by
  decide

/-- What has a fixed spelling is neither a number nor a name nor a string. -/
theorem kind_of_spelling : ∀ e ∈ spellings, e.2 ∉ [Kind.number, .identifier, .string] := by
  decide

variable {cs : List Char} {k : Kind} {v : Value}

/-- The literal of a lexeme is a value that is printed, if it is finite. -/
theorem Lexeme.isPrinted (h : Lexeme cs k v) (hfinite : v.IsFinite) : v.IsPrinted := by
  cases h with
  | mark | keyword | identifier => trivial
  | whole | decimal => exact hfinite
  | quoted hbody => simpa [Value.IsPrinted] using hbody

/-- The kind of a mark or a keyword tells its characters. -/
theorem Lexeme.eq_of_spelling {text : String} (h : Lexeme cs k v) (htext : (text, k) ∈ spellings) :
    cs = text.toList := by
  have hkind : k ∉ [Kind.number, .identifier, .string] := kind_of_spelling _ htext
  cases h with
  | mark hmark =>
      have hspelling := List.mem_append_left Kind.keywords hmark
      exact congrArg String.toList (spellings_unique _ hspelling _ htext rfl)
  | keyword hword =>
      have hspelling := List.mem_append_right marks hword
      exact congrArg String.toList (spellings_unique _ hspelling _ htext rfl)
  | whole | decimal | identifier | quoted => exact absurd hkind (by decide)

/-- A name is letters and digits, a letter first, and no keyword. -/
theorem Lexeme.name (h : Lexeme cs k v) (hk : k = .identifier) :
    (∀ c ∈ cs, isAlphanumeric c = true) ∧ (∃ c ∈ cs.head?, isAlpha c = true) ∧
      ∀ k, (String.ofList cs, k) ∉ Kind.keywords := by
  have hspelling : ∀ e ∈ spellings, e.2 ≠ .identifier := by decide
  cases h with
  | mark hmark => exact absurd hk (hspelling _ (List.mem_append_left _ hmark))
  | keyword hword => exact absurd hk (hspelling _ (List.mem_append_right _ hword))
  | whole | decimal | quoted => cases hk
  | identifier hc hcs hkeyword =>
      refine ⟨List.forall_mem_cons.mpr ⟨isAlphanumeric_iff.mpr (.inl hc), fun d hd => ?_⟩,
        ⟨_, rfl, isAlpha_iff.mpr hc⟩, hkeyword⟩
      exact isAlphanumeric_iff.mpr (hcs d hd)

end Lexical

namespace Token

open Lexical

/-- The token has a lexeme of the language, and is finite if it is a number. -/
structure IsPrinted (t : Token) : Prop extends t.IsLexeme where
  finite : t.literal.IsFinite

/-- The token is a name. -/
structure IsName (t : Token) : Prop extends t.IsLexeme where
  name : t.kind = .identifier

/-- A token that is printed and is an identifier is a name. -/
theorem IsPrinted.isName {t : Token} (ht : t.IsPrinted) (hkind : t.kind = .identifier) :
    t.IsName := ⟨ht.toIsLexeme, hkind⟩

/-- Tokens of one lexeme are the same up to their lines. -/
theorem IsLexeme.unplaced_eq {t u : Token} (ht : t.IsLexeme) (hu : u.IsLexeme)
    (h : t.text = u.text) : t.unplaced = u.unplaced := by
  obtain ⟨hkind, hliteral⟩ := ht.literal.unique (h ▸ hu.literal)
  simp only [unplaced, hkind, hliteral, ht.lexeme, hu.lexeme, h]

/-- The constants of printed tokens are printed. -/
theorem IsPrinted.constant {t : Token} {v : Value} (ht : t.IsPrinted)
    (h : t.constant? = some v) : v.IsPrinted := by
  unfold constant? at h
  split at h <;> cases h <;> first | exact ht.literal.isPrinted ht.finite | trivial

/-- A kind with a fixed spelling has that text. -/
theorem IsLexeme.text_eq {t : Token} (ht : t.IsLexeme) {text : String}
    (h : (text, t.kind) ∈ spellings) : t.text = text :=
  String.toList_inj.mp (ht.literal.eq_of_spelling h)

/-- So a token of some of these kinds has one of their texts. -/
theorem IsLexeme.text_mem {t : Token} (ht : t.IsLexeme) {kinds : List Kind} {texts : List String}
    (hkinds : ∀ k ∈ kinds, ∃ text ∈ texts, (text, k) ∈ spellings) (hkind : t.kind ∈ kinds) :
    t.text ∈ texts := by
  obtain ⟨text, htext, hspelling⟩ := hkinds _ hkind
  rwa [ht.text_eq hspelling]

end Token

/-! ## Words -/

namespace Outline

/-- A text of characters that are no delimiters is a word. -/
theorem isWord_of_forall {P : Char → Prop} {text : String} (hne : text.toList ≠ [])
    (h : ∀ c ∈ text.toList, P c) (hP : ∀ d ∈ delimiters, ¬ P d) : IsWord text :=
  ⟨fun hnil => hne (by rw [hnil]; rfl), fun c hc hd => hP c hd (h c hc)⟩

/-- A name is one word, ... -/
theorem isWord_name {t : Token} (ht : t.IsName) : IsWord t.text := by
  obtain ⟨hchars, ⟨c, hc, -⟩, -⟩ := ht.literal.name ht.name
  have hdelimiters : delimiters.any Token.isAlphanumeric = false := rfl
  refine isWord_of_forall (fun hnil => ?_) hchars (List.any_eq_false.mp hdelimiters)
  rw [hnil] at hc
  cases hc

/-- ... and so are the display of a number ... -/
theorem isWord_display {x : Float} (hx : x.isFinite = true) : IsWord (Decimal.display x) := by
  obtain ⟨hnumeric, negative, ds, hdisplay, d, ds', rfl, -⟩ := Decimal.display_numeric hx
  refine isWord_of_forall ?_ hnumeric (by simp [delimiters, Decimal.numberMarks])
  rw [hdisplay]
  cases negative <;> exact List.cons_ne_nil _ _

/-- The words that are written as they are. -/
def fixedWords : List String :=
  ["nil", "true", "false", "group", "call", "=", ";", "print", "var", "block", "if", "while", "and",
    "or", "!", "-", "+", "*", "/", "!=", "==", "<", "<=", ">", ">="]

/-- ... and each of the words that head a group. -/
theorem isWord_fixed {text : String} (h : text ∈ fixedWords) : IsWord text := by
  have hwords : ∀ s ∈ fixedWords, s.toList ≠ [] ∧ ∀ c ∈ s.toList, c ∉ delimiters := by
    simp [fixedWords, delimiters]
  obtain ⟨hne, hchars⟩ := hwords text h
  exact isWord_of_forall hne hchars fun d hd hnot => hnot hd

end Outline

/-! ## Outlines of trees -/

namespace Node

open Outline (writeAll)

/-- The outline of a literal. -/
def literalOutline : Value → Outline
  | .text s => .quoted s
  | v => .word v.display

mutual

/-- What the text of a tree shows. -/
def outline : Node → Outline
  | .absent | .list _ => .word ""
  | .literal v => literalOutline v
  | .grouping e => .group "group" [outline e]
  | .unary o e => .group o.text [outline e]
  | .binary a o b | .logical a o b => .group o.text [outline a, outline b]
  | .reference n => .word n.text
  | .assign n e => .group "=" [.word n.text, outline e]
  | .call f _ as => .group "call" (outline f :: outlines as)
  | .expression e => .group ";" [outline e]
  | .print e => .group "print" [outline e]
  | .var n .absent => .group "var" [.word n.text]
  | .var n e => .group "var" [.word n.text, outline e]
  | .block ss => .group "block" (outlines ss)
  | .branch c t .absent => .group "if" [outline c, outline t]
  | .branch c t e => .group "if" [outline c, outline t, outline e]
  | .loop c b => .group "while" [outline c, outline b]

/-- What the texts of some trees show. -/
def outlines : List Node → List Outline
  | [] => []
  | n :: ns => outline n :: outlines ns

end

@[simp] theorem outlines_eq (ns : List Node) : outlines ns = ns.map outline := by
  induction ns with
  | nil => rfl
  | cons n ns ih => rw [outlines, ih, List.map_cons]

/-- The parts of a group, each with a blank in front. -/
theorem toList_parts (parts : List Outline) :
    ("".intercalate ((parts.map Outline.text).map (" " ++ ·))).toList = writeAll ' ' parts := by
  rw [String.toList_intercalate]
  induction parts with
  | nil => rfl
  | cons o os ih =>
      cases os with
      | nil => simp [writeAll, Outline.text]
      | cons p os =>
          rw [List.map_cons, List.map_cons, List.map_cons,
            List.intercalate_cons_of_ne_nil (by simp), ih]
          simp [writeAll, Outline.text]

/-- A group is printed as the text of its outline. -/
theorem parenthesize_text (head : String) (parts : List Outline) :
    parenthesize head (parts.map Outline.text) = (Outline.group head parts).text := by
  apply String.toList_inj.mp
  rw [parenthesize, String.toList_append, String.toList_append, String.toList_append, toList_parts]
  simp [Outline.text, Outline.write]

/-- A name behind the head is a part that is a word. -/
theorem parenthesize_word (head name : String) (parts : List Outline) :
    parenthesize (head ++ " " ++ name) (parts.map Outline.text) =
      (Outline.group head (.word name :: parts)).text := by
  apply String.toList_inj.mp
  rw [parenthesize, String.toList_append, String.toList_append, String.toList_append, toList_parts]
  simp [Outline.text, Outline.write, writeAll]

/-! ## Trees that are printed -/

/-- The texts of binary operators. -/
def binaryTexts : List String := ["-", "+", "*", "/", "!=", "==", "<", "<=", ">", ">="]

/-- A tree as one comes of a text, with an expression or a statement at each place. -/
inductive Printable : Node → Prop where
  | literal {v : Value} : v.IsPrinted → Printable (.literal v)
  | grouping {e : Node} : Printable e → Printable (.grouping e)
  | unary {o : Token} {e : Node} :
      o.IsLexeme → o.text ∈ ["!", "-"] → Printable e → Printable (.unary o e)
  | binary {a b : Node} {o : Token} : Printable a → o.IsLexeme → o.text ∈ binaryTexts →
      Printable b → Printable (.binary a o b)
  | logical {a b : Node} {o : Token} : Printable a → o.IsLexeme → o.text ∈ ["and", "or"] →
      Printable b → Printable (.logical a o b)
  | reference {n : Token} : n.IsName → Printable (.reference n)
  | assign {n : Token} {e : Node} : n.IsName → Printable e → Printable (.assign n e)
  | call {f : Node} {p : Token} {as : List Node} : Printable f → p.IsLexeme → p.text = ")" →
      (∀ a ∈ as, Printable a) → Printable (.call f p as)
  | expression {e : Node} : Printable e → Printable (.expression e)
  | print {e : Node} : Printable e → Printable (.print e)
  | declaration {n : Token} : n.IsName → Printable (.var n .absent)
  | definition {n : Token} {e : Node} : n.IsName → Printable e → Printable (.var n e)
  | block {ss : List Node} : (∀ s ∈ ss, Printable s) → Printable (.block ss)
  | branch {c t : Node} : Printable c → Printable t → Printable (.branch c t .absent)
  | branches {c t e : Node} :
      Printable c → Printable t → Printable e → Printable (.branch c t e)
  | loop {c b : Node} : Printable c → Printable b → Printable (.loop c b)

namespace Printable

/-- What can be printed is there. -/
theorem ne_absent {n : Node} (h : n.Printable) : n ≠ .absent := by
  rintro rfl
  cases h

/-- A lexeme is printed as its text. -/
theorem lexemeText_eq {t : Token} (ht : t.IsLexeme) : lexemeText t = .ok t.text := by
  rw [lexemeText, ht.lexeme]

/-- A literal is printed as its outline. -/
theorem literalText_eq (v : Value) : literalText v = (literalOutline v).text := by
  apply String.toList_inj.mp
  cases v <;> simp [literalText, literalOutline, Outline.text, Outline.write]

/-- A list of nodes is printed node by node. -/
theorem texts_eq {ns : List Node} (h : ∀ n ∈ ns, n.text = .ok n.outline.text) :
    texts ns = .ok ((ns.map outline).map Outline.text) := by
  induction ns with
  | nil => rfl
  | cons n ns ih =>
      obtain ⟨hn, hns⟩ := List.forall_mem_cons.mp h
      simp only [texts, hn, ih hns, List.map_cons, bind, Except.bind, pure, Except.pure]

/-- The text of a tree is that of its outline. -/
theorem text_eq {n : Node} (h : n.Printable) : n.text = .ok n.outline.text := by
  -- the printer names the head and prints the parts, as the outline says
  induction h with
  | literal => rw [text, literalText_eq, outline]
  | reference hn => simp [text, lexemeText_eq hn.toIsLexeme, outline, Outline.text, Outline.write]
  | @grouping e _ ih =>
      rw [text, ih]
      exact congrArg Except.ok (parenthesize_text "group" [e.outline])
  | @unary o e ho _ _ ih =>
      rw [text, ih, lexemeText_eq ho]
      exact congrArg Except.ok (parenthesize_text o.text [e.outline])
  | @binary a b o _ ho _ _ iha ihb | @logical a b o _ ho _ _ iha ihb =>
      rw [text, iha, ihb, lexemeText_eq ho]
      exact congrArg Except.ok (parenthesize_text o.text [a.outline, b.outline])
  | @assign n e _ _ ih =>
      rw [text, ih]
      exact congrArg Except.ok (parenthesize_word "=" n.text [e.outline])
  | @call f p as _ _ _ _ ihf ihas =>
      rw [text, ihf, texts_eq ihas, outline, outlines_eq]
      exact congrArg Except.ok (parenthesize_text "call" (f.outline :: as.map outline))
  | @expression e _ ih =>
      rw [text, ih]
      exact congrArg Except.ok (parenthesize_text ";" [e.outline])
  | @print e _ ih =>
      rw [text, ih]
      exact congrArg Except.ok (parenthesize_text "print" [e.outline])
  | @declaration n _ => exact congrArg Except.ok (parenthesize_word "var" n.text [])
  | @definition n e _ he ih =>
      rw [text, outline, ih]
      · exact congrArg Except.ok (parenthesize_word "var" n.text [e.outline])
      · exact he.ne_absent
      · exact he.ne_absent
  | @block ss _ ih =>
      rw [text, texts_eq ih, outline, outlines_eq]
      exact congrArg Except.ok (parenthesize_text "block" (ss.map outline))
  | @branch c t _ _ ihc iht =>
      rw [text, ihc, iht]
      exact congrArg Except.ok (parenthesize_text "if" [c.outline, t.outline])
  | @branches c t e _ _ he ihc iht ihe =>
      rw [text, outline, ihc, iht, ihe]
      · exact congrArg Except.ok (parenthesize_text "if" [c.outline, t.outline, e.outline])
      · exact he.ne_absent
      · exact he.ne_absent
  | @loop c b _ _ ihc ihb =>
      rw [text, ihc, ihb]
      exact congrArg Except.ok (parenthesize_text "while" [c.outline, b.outline])

/-! ### Outlines are proper -/

open Outline (Proper isWord_name isWord_display isWord_fixed)

/-- The outline of a literal is one that can be read back. -/
theorem proper_literal {v : Value} (hv : v.IsPrinted) : (literalOutline v).Proper := by
  cases v with
  | nil => exact .word (isWord_fixed (by decide))
  | bool b => cases b <;> exact .word (isWord_fixed (by decide))
  | number x => exact .word (isWord_display hv)
  | text s => exact .quoted hv
  | native | int | data => exact hv.elim

/-- So is the outline of every node that can be printed. -/
theorem proper_outline {n : Node} (h : n.Printable) : n.outline.Proper := by
  have group {head : String} {parts : List Outline} (hhead : head ∈ Outline.fixedWords)
      (hparts : ∀ o ∈ parts, o.Proper) : (Outline.group head parts).Proper :=
    .group (isWord_fixed hhead) hparts
  -- every group is headed by a fixed word, by an operator or by a name
  induction h with
  | literal hv => exact proper_literal hv
  | reference hn => exact .word (isWord_name hn)
  | grouping _ ih | expression _ ih | print _ ih => exact group (by decide) (by simpa using ih)
  | unary _ ho _ ih =>
      have hsub : ["!", "-"] ⊆ Outline.fixedWords := by decide
      exact group (hsub ho) (by simpa using ih)
  | binary _ _ ho _ iha ihb =>
      have hsub : binaryTexts ⊆ Outline.fixedWords := by decide
      exact group (hsub ho) (by simpa using ⟨iha, ihb⟩)
  | logical _ _ ho _ iha ihb =>
      have hsub : ["and", "or"] ⊆ Outline.fixedWords := by decide
      exact group (hsub ho) (by simpa using ⟨iha, ihb⟩)
  | assign hn _ ih => exact group (by decide) (by simpa using ⟨.word (isWord_name hn), ih⟩)
  | call _ _ _ _ ihf ihas =>
      rw [outline, outlines_eq]
      exact group (by decide) (List.forall_mem_cons.mpr ⟨ihf, List.forall_mem_map.mpr ihas⟩)
  | declaration hn => exact group (by decide) (by simpa using .word (isWord_name hn))
  | definition hn he ih =>
      rw [outline]
      · exact group (by decide) (by simpa using ⟨.word (isWord_name hn), ih⟩)
      · exact he.ne_absent
  | block _ ih =>
      rw [outline, outlines_eq]
      exact group (by decide) (List.forall_mem_map.mpr ih)
  | branch _ _ ihc iht => exact group (by decide) (by simpa using ⟨ihc, iht⟩)
  | branches _ _ he ihc iht ihe =>
      rw [outline]
      · exact group (by decide) (by simpa using ⟨ihc, iht, ihe⟩)
      · exact he.ne_absent
  | loop _ _ ihc ihb => exact group (by decide) (by simpa using ⟨ihc, ihb⟩)

end Printable

/-! ## Trees read off their outlines -/

/-- Some token of the lexeme, without a line. -/
noncomputable def tokenOf (text : String) : Token :=
  (Classical.epsilon fun t : Token => t.IsLexeme ∧ t.text = text).unplaced

/-- Some finite double of the display text. -/
noncomputable def numberOf (text : String) : Float :=
  Classical.epsilon fun x => x.isFinite = true ∧ Decimal.display x = text

/-- The text of a token gives the token back, but for its line. -/
theorem tokenOf_text {t : Token} (ht : t.IsLexeme) : tokenOf t.text = t.unplaced := by
  have h := Classical.epsilon_spec (p := fun u : Token => u.IsLexeme ∧ u.text = t.text) ⟨t, ht, rfl⟩
  exact h.1.unplaced_eq ht h.2

/-- The display of a number gives the number back. -/
theorem numberOf_display {x : Float} (hx : x.isFinite = true) : numberOf (Decimal.display x) = x := by
  have h := Classical.epsilon_spec
    (p := fun y : Float => y.isFinite = true ∧ Decimal.display y = Decimal.display x) ⟨x, hx, rfl⟩
  exact Decimal.display_injective h.1 hx h.2

/-- The tree of a word: a literal, or a name if a letter comes first. -/
noncomputable def wordTree (text : String) : Node :=
  if text = "nil" then .literal .nil
  else if text = "true" then .literal (.bool true)
  else if text = "false" then .literal (.bool false)
  else if text.toList.head?.any Token.isAlpha then .reference (tokenOf text)
  else .literal (.number (numberOf text))

/-- The forms that the head of a group tells. Other heads are operators. -/
def headForms : List (String × Form) := [
  ("group", .grouping), ("call", .call), ("=", .assign), (";", .expression), ("print", .print),
  ("var", .var), ("block", .block), ("if", .branch), ("while", .loop), ("and", .logical),
  ("or", .logical)]

/-- The tree of a group, by its head and the number of its parts. -/
noncomputable def groupTree (head : String) (parts : List Node) : Node :=
  match headForms.lookup head, parts with
  | some .grouping, [e] => .grouping e
  | some .call, f :: as => .call f (tokenOf ")") as
  | some .assign, [.reference n, e] => .assign n e
  | some .expression, [e] => .expression e
  | some .print, [e] => .print e
  | some .var, [.reference n] => .var n .absent
  | some .var, [.reference n, e] => .var n e
  | some .block, ss => .block ss
  | some .branch, [c, t] => .branch c t .absent
  | some .branch, [c, t, e] => .branch c t e
  | some .loop, [c, b] => .loop c b
  | some .logical, [a, b] => .logical a (tokenOf head) b
  | none, [e] => .unary (tokenOf head) e
  | none, [a, b] => .binary a (tokenOf head) b
  | _, _ => .absent

mutual

/-- The tree of an outline, without lines. -/
noncomputable def tree : Outline → Node
  | .word text => wordTree text
  | .quoted text => .literal (.text text)
  | .group head parts => groupTree head (trees parts)

/-- The trees of some outlines. -/
noncomputable def trees : List Outline → List Node
  | [] => []
  | o :: os => tree o :: trees os

end

/-- A list of outlines is decoded outline by outline. -/
theorem trees_outlines {ns : List Node} (h : ∀ n ∈ ns, tree n.outline = n.unplaced) :
    trees (ns.map outline) = ns.map Node.unplaced := by
  induction ns with
  | nil => rfl
  | cons n ns ih =>
      obtain ⟨hn, hns⟩ := List.forall_mem_cons.mp h
      rw [List.map_cons, trees, hn, ih hns, List.map_cons]

/-- The display of a number does not start with a letter. -/
theorem head_display {x : Float} (hx : x.isFinite = true) :
    (Decimal.display x).toList.head?.any Token.isAlpha = false := by
  obtain ⟨-, negative, ds, hdisplay, d, ds', rfl, hd⟩ := Decimal.display_numeric hx
  rw [hdisplay]
  cases negative
  · exact Grammar.not_isAlpha_of_isDigit hd
  · rfl

/-- A word that displays a number is decoded as that number. -/
theorem wordTree_display {x : Float} (hx : x.isFinite = true) :
    wordTree (Decimal.display x) = .literal (.number x) := by
  have hhead := head_display hx
  -- a number does not begin with a letter, as the words of the language and names do
  have hne {word : String} (hword : word.toList.head?.any Token.isAlpha = true) :
      Decimal.display x ≠ word := by
    rintro rfl
    rw [hhead] at hword
    cases hword
  rw [wordTree, if_neg (hne rfl), if_neg (hne rfl), if_neg (hne rfl), hhead, numberOf_display hx]
  rfl

/-- A word that is a name is decoded as a variable. -/
theorem wordTree_name {n : Token} (hn : n.IsName) : wordTree n.text = .reference n.unplaced := by
  obtain ⟨-, ⟨c, hc, halpha⟩, hkeyword⟩ := hn.literal.name hn.name
  rw [String.ofList_toList] at hkeyword
  have hne {word : String} {k : Kind} (hword : (word, k) ∈ Kind.keywords) : n.text ≠ word := by
    rintro rfl
    exact hkeyword k hword
  have hhead : n.text.toList.head?.any Token.isAlpha = true := by
    rw [Option.mem_def.mp hc]
    exact halpha
  rw [wordTree, if_neg (hne (k := .kwNil) (by decide)), if_neg (hne (k := .kwTrue) (by decide)),
    if_neg (hne (k := .kwFalse) (by decide)), if_pos hhead, tokenOf_text hn.toIsLexeme]

/-- The outline of a literal is decoded as the literal. -/
theorem tree_literal {v : Value} (hv : v.IsPrinted) : tree (literalOutline v) = .literal v := by
  cases v with
  | nil => rfl
  | bool b => cases b <;> rfl
  | number x => exact wordTree_display hv
  | text s => rfl
  | native | int | data => exact hv.elim

/-- The tree of an outline is the one it is the outline of, up to lines. -/
theorem Printable.tree_outline {n : Node} (h : n.Printable) : tree n.outline = n.unplaced := by
  induction h with
  | literal hv => exact tree_literal hv
  | reference hn => exact wordTree_name hn
  | grouping _ ih | expression _ ih | print _ ih =>
      rw [outline, tree, trees, trees, ih]
      rfl
  | unary hl ho _ ih =>
      have hlookup : ∀ s ∈ ["!", "-"], headForms.lookup s = none := by decide
      rw [outline, tree, trees, trees, ih]
      simp only [groupTree, hlookup _ ho, tokenOf_text hl]
      rfl
  | binary _ hl ho _ iha ihb =>
      have hlookup : ∀ s ∈ binaryTexts, headForms.lookup s = none := by decide
      rw [outline, tree, trees, trees, trees, iha, ihb]
      simp only [groupTree, hlookup _ ho, tokenOf_text hl]
      rfl
  | logical _ hl ho _ iha ihb =>
      have hlookup : ∀ s ∈ ["and", "or"], headForms.lookup s = some .logical := by decide
      rw [outline, tree, trees, trees, trees, iha, ihb]
      simp only [groupTree, hlookup _ ho, tokenOf_text hl]
      rfl
  | assign hn _ ih =>
      rw [outline, tree, trees, trees, trees, ih, tree, wordTree_name hn]
      rfl
  | @call f p as _ hl hp _ ihf ihas =>
      -- the parenthesis is not printed, but there is only one
      have hparen : tokenOf ")" = p.unplaced := hp ▸ tokenOf_text hl
      rw [outline, outlines_eq, tree, trees, ihf, trees_outlines ihas, unplaced, relabel,
        relabelAll_eq]
      exact congrArg (Node.call f.unplaced · (as.map Node.unplaced)) hparen
  | declaration hn =>
      rw [outline, tree, trees, trees, tree, wordTree_name hn]
      rfl
  | definition hn he ih =>
      rw [outline, tree, trees, trees, trees, tree, wordTree_name hn, ih]
      · rfl
      · exact he.ne_absent
  | block _ ih =>
      rw [outline, outlines_eq, tree, trees_outlines ih, unplaced, relabel, relabelAll_eq]
      rfl
  | branch _ _ ihc iht =>
      rw [outline, tree, trees, trees, trees, ihc, iht]
      rfl
  | branches _ _ he ihc iht ihe =>
      rw [outline, tree, trees, trees, trees, trees, ihc, iht, ihe]
      · rfl
      · exact he.ne_absent
  | loop _ _ ihc ihb =>
      rw [outline, tree, trees, trees, trees, ihc, ihb]
      rfl

/-- The text of a program has a line for the outline of each statement. -/
theorem programText_eq {program : List Node}
    (h : ∀ s ∈ program, s.Printable ∧ s.form.isStatement = true) :
    programText program = .ok (Outline.lines (program.map outline)) := by
  -- no statement is rejected, and the lines are those of the outlines
  have htexts : program.mapM statementText = .ok ((program.map outline).map Outline.text) := by
    induction program with
    | nil => rfl
    | cons s ss ih =>
        obtain ⟨⟨hs, hstatement⟩, hss⟩ := List.forall_mem_cons.mp h
        have htext : statementText s = .ok s.outline.text := by
          rw [statementText, if_pos hstatement, hs.text_eq]
        rw [List.mapM_cons, htext, ih hss]
        rfl
  rw [programText, htexts]
  rfl

/-- Programs of one text are the same up to lines. -/
theorem unplaced_of_programText {as bs : List Node} (has : ∀ s ∈ as, s.Printable)
    (hbs : ∀ s ∈ bs, s.Printable)
    (h : Outline.lines (as.map outline) = Outline.lines (bs.map outline)) :
    as.map Node.unplaced = bs.map Node.unplaced := by
  have houtlines : as.map outline = bs.map outline :=
    Outline.lines_unique (List.forall_mem_map.mpr fun s hs => (has s hs).proper_outline)
      (List.forall_mem_map.mpr fun s hs => (hbs s hs).proper_outline) h
  rw [← trees_outlines fun s hs => (has s hs).tree_outline, houtlines,
    trees_outlines fun s hs => (hbs s hs).tree_outline]

end Node

end NovaLang
