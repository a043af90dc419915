import NovaLang.Proofs.Decimal.Reading
import NovaLang.Proofs.Grammar.Spelling

namespace NovaLang.Lexical

open Grammar Token

/-! # The lexical grammar

What the lexemes of the language are, and how they divide a text: at each place the longest
lexeme is taken, blanks and comments are left out, and what no lexeme begins with is an
error. This divides every text in one way, and a scanner finds it.
-/

/-! ## Lexemes -/

/-- The marks: punctuation, and the operators of one and of two characters. -/
def marks : List (String × Kind) := [
  ("(", .leftParen), (")", .rightParen), ("\x7b", .leftBrace), ("\x7d", .rightBrace),
  (",", .comma), (".", .dot), ("-", .minus), ("+", .plus), (";", .semicolon), ("/", .slash),
  ("*", .star), ("!", .bang), ("!=", .bangEqual), ("=", .equal), ("==", .equalEqual),
  (">", .greater), (">=", .greaterEqual), ("<", .less), ("<=", .lessEqual)]

/-- The reserved words. -/
def reserved : List (String × Kind) := [
  ("and", .kwAnd), ("class", .kwClass), ("else", .kwElse), ("false", .kwFalse), ("for", .kwFor),
  ("fun", .kwFun), ("if", .kwIf), ("nil", .kwNil), ("or", .kwOr), ("print", .kwPrint),
  ("return", .kwReturn), ("super", .kwSuper), ("this", .kwThis), ("true", .kwTrue),
  ("var", .kwVar), ("while", .kwWhile)]

/-- A digit is one of `0` to `9`. -/
def IsDigit (c : Char) : Prop := '0' ≤ c ∧ c ≤ '9'

/-- A letter is one of `a` to `z` and `A` to `Z`, or the underscore. -/
def IsLetter (c : Char) : Prop := 'a' ≤ c ∧ c ≤ 'z' ∨ 'A' ≤ c ∧ c ≤ 'Z' ∨ c = '_'

/-- One digit at least, and nothing but digits. -/
structure Numeral (cs : List Char) : Prop where
  ne_nil : cs ≠ []
  digits : ∀ c ∈ cs, IsDigit c

/-- The characters are a lexeme of the kind, with the literal. The literal of a number is the double
nearest to the number that its digits stand for. -/
inductive Lexeme : List Char → Kind → Value → Prop where
  | mark {text : String} {k : Kind} : (text, k) ∈ marks → Lexeme text.toList k .nil
  | whole {cs : List Char} {x : Float} : Numeral cs →
      Decimal.IsNearest (Decimal.numeral cs []) x → Lexeme cs .number (.number x)
  | decimal {cs ds : List Char} {x : Float} : Numeral cs → Numeral ds →
      Decimal.IsNearest (Decimal.numeral cs ds) x → Lexeme (cs ++ '.' :: ds) .number (.number x)
  | keyword {word : String} {k : Kind} : (word, k) ∈ reserved → Lexeme word.toList k .nil
  | identifier {c : Char} {cs : List Char} : IsLetter c → (∀ d ∈ cs, IsLetter d ∨ IsDigit d) →
      (∀ k, (String.ofList (c :: cs), k) ∉ reserved) → Lexeme (c :: cs) .identifier .nil
  | quoted {body : List Char} : '"' ∉ body →
      Lexeme ('"' :: (body ++ ['"'])) .string (.text (String.ofList body))

/-- The characters that are left out between lexemes. -/
def blanks : List Char := [' ', '\r', '\t', '\n']

/-! ## Segments -/

/-- What a segment of a text is. -/
inductive Content where
  | token (kind : Kind) (literal : Value)
  | blank
  | comment
  | error (complaint : Complaint)
  deriving DecidableEq, Repr

/-- A text that goes on with `rest` behind a segment begins with that segment. -/
inductive Begins : (segment rest : List Char) → Content → Prop where
  /-- Of the lexemes that the text begins with, the longest one is taken. -/
  | token {text rest : List Char} {k : Kind} {v : Value} : Lexeme text k v →
      (∀ other k v, Lexeme other k v → other <+: text ++ rest → other.length ≤ text.length) →
      ¬ ['/', '/'] <+: text ++ rest → Begins text rest (.token k v)
  | blank {c : Char} {rest : List Char} : c ∈ blanks → Begins [c] rest .blank
  /-- A comment goes on up to a line break or the end of the text. -/
  | comment {body rest : List Char} : '\n' ∉ body → (∀ c ∈ rest.head?, c = '\n') →
      Begins ('/' :: '/' :: body) rest .comment
  | stray {c : Char} {rest : List Char} :
      (∀ text k v, Lexeme text k v → ¬ text <+: c :: rest) → c ∉ blanks → c ≠ '"' →
      Begins [c] rest (.error .unexpectedCharacter)
  | unclosed {body : List Char} : '"' ∉ body →
      Begins ('"' :: body) [] (.error .unterminatedString)

/-- A segment of a text, and what it is. -/
structure Segment where
  text : List Char
  content : Content
  deriving DecidableEq, Repr

/-- The text is divided into the segments. -/
inductive Divides : List Char → List Segment → Prop where
  | nil : Divides [] []
  | cons {text rest : List Char} {content : Content} {ss : List Segment} :
      Begins text rest content → Divides rest ss → Divides (text ++ rest) (⟨text, content⟩ :: ss)

/-- The token of a segment that ends on a line. -/
def Segment.token? (line : Int) (s : Segment) : Option Token :=
  match s.content with
  | .token k v => some (.scanned k (String.ofList s.text) v line)
  | _ => none

/-- The static error of a segment that ends on a line. -/
def Segment.diagnostic? (line : Int) (s : Segment) : Option Diagnostic :=
  match s.content with
  | .error complaint => some ⟨.line line, complaint⟩
  | _ => none

/-- The tokens of the segments of a text that begins on a line. -/
def tokens : (line : Int) → List Segment → List Token
  | _, [] => []
  | line, s :: ss =>
    (s.token? (line + Text.lineBreaks s.text)).toList ++
      tokens (line + Text.lineBreaks s.text) ss

/-- The static errors of the segments of a text that begins on a line. -/
def diagnostics : (line : Int) → List Segment → List Diagnostic
  | _, [] => []
  | line, s :: ss =>
    (s.diagnostic? (line + Text.lineBreaks s.text)).toList ++
      diagnostics (line + Text.lineBreaks s.text) ss

/-- The wording of the errors. -/
def messages : List (Complaint × String) := [
  (.unexpectedCharacter, "Unexpected character."), (.unterminatedString, "Unterminated string.")]

/-! ## Lexemes by their first character -/

/-- One digit at least, and nothing but digits, as a scanner tells them. -/
structure Digits (cs : List Char) : Prop where
  ne_nil : cs ≠ []
  digits : ∀ c ∈ cs, isDigit c = true

theorem isDigit_iff {c : Char} : isDigit c = true ↔ IsDigit c := by simp [isDigit, IsDigit]

theorem isAlpha_iff {c : Char} : isAlpha c = true ↔ IsLetter c := by
  simp [isAlpha, IsLetter, or_assoc]

theorem isAlphanumeric_iff {c : Char} : isAlphanumeric c = true ↔ IsLetter c ∨ IsDigit c := by
  rw [isAlphanumeric, Bool.or_eq_true, isAlpha_iff, isDigit_iff]

theorem numeral_iff {cs : List Char} : Numeral cs ↔ Digits cs :=
  ⟨fun h => ⟨h.ne_nil, fun c hc => isDigit_iff.mpr (h.digits c hc)⟩,
    fun h => ⟨h.ne_nil, fun c hc => isDigit_iff.mp (h.digits c hc)⟩⟩

/-- The reserved words are the ones that a scanner knows. -/
theorem reserved_eq : reserved = Kind.keywords := rfl

/-- A lexeme that begins with the character, by what that character is. -/
inductive Headed (c : Char) (cs : List Char) : Kind → Value → Prop where
  | sole {k : Kind} : soleMark? c = some k → cs = [] → Headed c cs k .nil
  | alone {k l : Kind} : pairedMark? c = some (l, k) → cs = [] → Headed c cs k .nil
  | extended {k l : Kind} : pairedMark? c = some (k, l) → cs = ['='] → Headed c cs k .nil
  | slash : c = '/' → cs = [] → Headed c cs .slash .nil
  | whole : isDigit c = true → (∀ d ∈ cs, isDigit d = true) →
      Headed c cs .number (.number (Decimal.ofParts (c :: cs) []))
  | decimal {ds fs : List Char} : isDigit c = true → (∀ d ∈ ds, isDigit d = true) → Digits fs →
      cs = ds ++ '.' :: fs → Headed c cs .number (.number (Decimal.ofParts (c :: ds) fs))
  | word : isAlpha c = true → (∀ d ∈ cs, isAlphanumeric d = true) →
      Headed c cs (Kind.ofWord (String.ofList (c :: cs))) .nil
  | quoted {body : List Char} : c = '"' → '"' ∉ body → cs = body ++ ['"'] →
      Headed c cs .string (.text (String.ofList body))

/-- The marks of the grammar are those of the scanner. -/
theorem headed_of_mark {text : String} {k : Kind} (h : (text, k) ∈ marks) :
    ∃ c cs, text.toList = c :: cs ∧ Headed c cs k .nil := by
  simp only [marks, List.mem_cons, Prod.mk.injEq, List.not_mem_nil, or_false] at h
  rcases h with ⟨rfl, rfl⟩ | ⟨rfl, rfl⟩ | ⟨rfl, rfl⟩ | ⟨rfl, rfl⟩ | ⟨rfl, rfl⟩ | ⟨rfl, rfl⟩ |
    ⟨rfl, rfl⟩ | ⟨rfl, rfl⟩ | ⟨rfl, rfl⟩ | ⟨rfl, rfl⟩ | ⟨rfl, rfl⟩ | ⟨rfl, rfl⟩ | ⟨rfl, rfl⟩ |
    ⟨rfl, rfl⟩ | ⟨rfl, rfl⟩ | ⟨rfl, rfl⟩ | ⟨rfl, rfl⟩ | ⟨rfl, rfl⟩ | ⟨rfl, rfl⟩
  all_goals first
    | exact ⟨_, _, rfl, .sole rfl rfl⟩
    | exact ⟨_, _, rfl, .slash rfl rfl⟩
    | exact ⟨_, _, rfl, .alone rfl rfl⟩
    | exact ⟨_, _, rfl, .extended rfl rfl⟩

/-- Its reserved words are keywords of the scanner, ... -/
theorem ofWord_of_keyword : ∀ e ∈ reserved, Kind.ofWord e.1 = e.2 := by
  decide

/-- ... and all other words are identifiers. -/
theorem ofWord_of_notMem {word : String} (h : ∀ k, (word, k) ∉ reserved) :
    Kind.ofWord word = .identifier := by
  rw [Kind.ofWord, Kind.keyword?, ← reserved_eq]
  cases hfind : reserved.find? fun k => k.1 == word with
  | none => rfl
  | some e =>
      have hword : e.1 = word := by simpa using List.find?_some hfind
      exact absurd (hword ▸ List.mem_of_find?_eq_some hfind) (h e.2)

/-- A reserved word is read as a word. -/
theorem keyword_alpha : ∀ e ∈ reserved, e.1.toList.head?.any isAlpha = true ∧
    e.1.toList.tail.all isAlphanumeric = true := by
  decide +kernel

/-- A lexeme of the grammar by its first character, which decides how the scanner goes on. -/
theorem Lexeme.headed {text : List Char} {k : Kind} {v : Value} (h : Lexeme text k v) :
    ∃ c cs, text = c :: cs ∧ Headed c cs k v := by
  cases h with
  | mark h => exact headed_of_mark h
  | whole h hnearest =>
      obtain rfl := Decimal.isNearest_numeral_iff.mp hnearest
      obtain ⟨c, cs, rfl⟩ := List.exists_cons_of_ne_nil h.ne_nil
      rcases List.forall_mem_cons.mp (numeral_iff.mp h).digits with ⟨hc, hcs⟩
      exact ⟨c, cs, rfl, .whole hc hcs⟩
  | decimal h h' hnearest =>
      obtain rfl := Decimal.isNearest_numeral_iff.mp hnearest
      obtain ⟨c, cs, rfl⟩ := List.exists_cons_of_ne_nil h.ne_nil
      rcases List.forall_mem_cons.mp (numeral_iff.mp h).digits with ⟨hc, hcs⟩
      exact ⟨c, _, rfl, .decimal hc hcs (numeral_iff.mp h') rfl⟩
  -- a reserved word starts with a letter, and its kind is found by the word
  | @keyword word k h =>
      rcases keyword_alpha _ h with ⟨hhead, hcs⟩
      obtain ⟨c, hmem, hc⟩ : ∃ c ∈ word.toList.head?, isAlpha c = true := by
        cases h : word.toList.head? with
        | none => simp [h] at hhead
        | some c => exact ⟨c, rfl, by simpa [h] using hhead⟩
      have hword : word.toList = c :: word.toList.tail := List.eq_cons_of_mem_head? hmem
      have hkind : Kind.ofWord (String.ofList (c :: word.toList.tail)) = k := by
        rw [← hword, String.ofList_toList]
        exact ofWord_of_keyword _ h
      rw [hword, ← hkind]
      exact ⟨c, _, rfl, .word hc (List.all_eq_true.mp hcs)⟩
  | identifier hc hcs hname =>
      rw [← ofWord_of_notMem hname]
      exact ⟨_, _, rfl, .word (isAlpha_iff.mpr hc) fun d hd => isAlphanumeric_iff.mpr (hcs d hd)⟩
  | quoted h => exact ⟨'"', _, rfl, .quoted rfl h rfl⟩

/-! ## Numbers -/

/-- A run that is followed by something else is taken off whole. -/
theorem span_append {test : Char → Bool} {ds : List Char} (h : ∀ d ∈ ds, test d = true)
    (rest : List Char) (hrest : ∀ d ∈ rest.head?, test d = false) :
    (ds ++ rest).takeWhile test = ds ∧ (ds ++ rest).dropWhile test = rest := by
  rw [List.takeWhile_append_of_pos h, List.dropWhile_append_of_pos h]
  cases rest with
  | nil => simp
  | cons d rest => simp [hrest d rfl]

theorem span_all {test : Char → Bool} {ds : List Char} (h : ∀ d ∈ ds, test d = true) :
    ds.takeWhile test = ds ∧ ds.dropWhile test = [] :=
  ⟨List.takeWhile_eq_self_iff.mpr h, List.dropWhile_eq_nil_iff.mpr h⟩

/-- A number behind its first digit: digits, or digits, a point and digits. -/
theorem numberTail_cases (cs : List Char) :
    ∃ ds : List Char, (∀ d ∈ ds, isDigit d = true) ∧
      ((numberTail cs).1 = ds ∨ ∃ fs, Digits fs ∧ (numberTail cs).1 = ds ++ '.' :: fs) := by
  refine ⟨cs.takeWhile isDigit, fun d hd => List.mem_takeWhile_imp hd, ?_⟩
  rw [numberTail]
  split
  · rename_i d rest _
    split
    · rename_i hd
      refine .inr ⟨_, ⟨?_, fun e he => List.mem_takeWhile_imp he⟩, rfl⟩
      rw [List.takeWhile_cons_of_pos hd]
      exact List.cons_ne_nil _ _
    · exact .inl rfl
  · exact .inl rfl

/-- A number holds all of its leading digits. -/
theorem length_takeWhile_le_numberTail (cs : List Char) :
    (cs.takeWhile isDigit).length ≤ (numberTail cs).1.length := by
  rw [numberTail]
  split
  · split
    · simp
    · exact Nat.le_refl _
  · exact Nat.le_refl _

/-- The digits behind a point are taken as far as they go. -/
theorem numberTail_decimal {ds fs : List Char} (hds : ∀ d ∈ ds, isDigit d = true) (hfs : Digits fs)
    (rest : List Char) :
    (numberTail (ds ++ '.' :: (fs ++ rest))).1 = ds ++ '.' :: (fs ++ rest).takeWhile isDigit := by
  rcases span_append hds ('.' :: (fs ++ rest)) (by simp; rfl) with ⟨htake, hdrop⟩
  obtain ⟨f, fs, rfl⟩ := List.exists_cons_of_ne_nil hfs.ne_nil
  rw [numberTail, htake, hdrop]
  simp [hfs.digits f List.mem_cons_self]

theorem readPlain_whole {cs : List Char} (h : Digits cs) :
    Decimal.readPlain? cs = some (Decimal.ofParts cs []) := by
  rcases span_all h.digits with ⟨htake, hdrop⟩
  change cs.takeWhile Char.isDigit = cs at htake
  change cs.dropWhile Char.isDigit = [] at hdrop
  rw [Decimal.readPlain?, htake, hdrop]
  simp [h.ne_nil]

theorem readPlain_decimal {cs ds : List Char} (h : Digits cs) (h' : Digits ds) :
    Decimal.readPlain? (cs ++ '.' :: ds) = some (Decimal.ofParts cs ds) := by
  rcases span_append h.digits ('.' :: ds) (by simp; rfl) with ⟨htake, hdrop⟩
  change (cs ++ '.' :: ds).takeWhile Char.isDigit = cs at htake
  change (cs ++ '.' :: ds).dropWhile Char.isDigit = '.' :: ds at hdrop
  have hall : ds.all Char.isDigit = true := List.all_eq_true.mpr h'.digits
  rw [Decimal.readPlain?, htake, hdrop]
  simp [h.ne_nil, h'.ne_nil, hall]

/-! ## Pieces and lexemes -/

/-- What a piece is. -/
def contentOf (p : Piece) : Content :=
  match p.shape with
  | .mark k => .token k .nil
  | .word => .token (Kind.ofWord (String.ofList p.text)) .nil
  | .number => .token .number (.number ((Decimal.readPlain? p.text).getD 0.0))
  | .quoted => .token .string (.text (String.ofList (p.text.drop 1).dropLast))
  | .unclosed => .error .unterminatedString
  | .stray => .error .unexpectedCharacter
  | .comment => .comment
  | .blank => .blank

/-- A text without the mark is taken off up to the mark. -/
theorem span_of_notMem {mark : Char} {body : List Char} (h : mark ∉ body) (rest : List Char)
    (hrest : ∀ c ∈ rest.head?, c = mark) :
    (body ++ rest).takeWhile (· != mark) = body ∧ (body ++ rest).dropWhile (· != mark) = rest := by
  refine span_append (fun c hc => ?_) rest fun c hc => by simp [hrest c hc]
  rw [bne_iff_ne]
  rintro rfl
  exact h hc

theorem notMem_takeWhile_bne (mark : Char) (cs : List Char) : mark ∉ cs.takeWhile (· != mark) :=
  fun h => by simpa using List.mem_takeWhile_imp h

theorem head_dropWhile_bne {mark : Char} {cs : List Char} :
    ∀ c ∈ (cs.dropWhile (· != mark)).head?, c = mark := fun c hc => by
  have h := List.head?_dropWhile_not (· != mark) cs
  simp_all

theorem nextPiece_quote (cs : List Char) : nextPiece '"' cs =
    (⟨(quotedTail cs).1, '"' :: (quotedTail cs).2.1⟩, (quotedTail cs).2.2) := rfl

theorem nextPiece_comment (cs : List Char) : nextPiece '/' ('/' :: cs) =
    (⟨.comment, '/' :: '/' :: (commentTail cs).1⟩, (commentTail cs).2) := rfl

/-- A string ends at the first quote. -/
theorem quotedTail_of_notMem {body : List Char} (h : '"' ∉ body) (rest : List Char) :
    quotedTail (body ++ '"' :: rest) = (.quoted, body ++ ['"'], rest) := by
  rcases span_of_notMem h ('"' :: rest) (by simp) with ⟨htake, hdrop⟩
  rw [quotedTail, htake, hdrop]

/-- A mark that may be extended is none that stands alone. -/
theorem soleMark_of_pairedMark {c : Char} {m : Kind × Kind} (h : pairedMark? c = some m) :
    soleMark? c = none := by
  unfold pairedMark? at h
  repeat' split at h
  all_goals subst_vars; first | rfl | cases h

/-- What stands in front of a text that begins with a lexeme is that lexeme or a longer one,
unless it is a comment. -/
theorem Headed.length_le {c : Char} {cs ds : List Char} {k : Kind} {v : Value}
    (h : Headed c cs k v) (hds : cs <+: ds) :
    (c :: cs).length ≤ (nextPiece c ds).1.text.length := by
  have hpos := List.length_pos_iff.mpr (nextPiece_ne_nil c ds)
  -- a longer text makes no piece shorter: the runs of digits and letters only grow
  cases h with
  | sole _ hcs | alone _ hcs | slash _ hcs =>
      rw [hcs]
      exact hpos
  | extended hk hcs =>
      subst hcs
      rcases hds with ⟨rest, rfl⟩
      simp [nextPiece, soleMark_of_pairedMark hk, hk]
  | whole hc hcs =>
      rcases hds with ⟨rest, rfl⟩
      have hle := length_takeWhile_le_numberTail (cs ++ rest)
      rw [List.takeWhile_append_of_pos hcs, List.length_append] at hle
      rw [nextPiece_digit hc, List.length_cons, List.length_cons]
      omega
  | @decimal ds' fs hc hds' hfs hcs =>
      subst hcs
      rcases hds with ⟨rest, rfl⟩
      rw [nextPiece_digit hc, List.append_assoc, List.cons_append, numberTail_decimal hds' hfs,
        List.takeWhile_append_of_pos hfs.digits]
      simp
  | word hc hcs =>
      rcases hds with ⟨rest, rfl⟩
      rw [nextPiece_alpha hc, wordTail, List.takeWhile_append_of_pos hcs]
      simp
  | @quoted body hc hbody hcs =>
      subst hc hcs
      rcases hds with ⟨rest, rfl⟩
      have hpiece : nextPiece '"' (body ++ ['"'] ++ rest) =
          (⟨.quoted, '"' :: (body ++ ['"'])⟩, rest) := by
        rw [List.append_assoc, List.singleton_append, nextPiece_quote, quotedTail_of_notMem hbody]
      rw [hpiece]

/-- A lexeme alone is one piece, of its kind and with its literal. -/
theorem Headed.content {c : Char} {cs : List Char} {k : Kind} {v : Value} (h : Headed c cs k v) :
    contentOf (nextPiece c cs).1 = .token k v := by
  -- the piece of a lexeme alone is the lexeme itself, with its own kind and literal
  cases h with
  | sole hk hcs => simp [nextPiece, hk, contentOf]
  | alone hk hcs | extended hk hcs =>
      subst hcs
      unfold pairedMark? at hk
      repeat' split at hk
      all_goals cases hk <;> (subst_vars; rfl)
  | slash hc hcs =>
      subst hc hcs
      rfl
  | whole hc hcs =>
      have htail : (numberTail cs).1 = cs := by
        rcases span_all hcs with ⟨htake, hdrop⟩
        rw [numberTail, htake, hdrop]
      rw [nextPiece_digit hc, htail, contentOf,
        readPlain_whole ⟨List.cons_ne_nil _ _, List.forall_mem_cons.mpr ⟨hc, hcs⟩⟩]
      rfl
  | @decimal ds fs hc hds hfs hcs =>
      have htail : (numberTail cs).1 = cs := by
        have h := numberTail_decimal hds hfs []
        rwa [List.append_nil, ← hcs, List.takeWhile_eq_self_iff.mpr hfs.digits, ← hcs] at h
      have hdigits : Digits (c :: ds) := ⟨List.cons_ne_nil _ _, List.forall_mem_cons.mpr ⟨hc, hds⟩⟩
      have hread := readPlain_decimal hdigits hfs
      rw [List.cons_append, ← hcs] at hread
      rw [nextPiece_digit hc, htail, contentOf, hread]
      rfl
  | word hc hcs =>
      have htail : (wordTail cs).1 = cs := List.takeWhile_eq_self_iff.mpr hcs
      rw [nextPiece_alpha hc, htail]
      rfl
  | @quoted body hc hbody hcs =>
      subst hc hcs
      have hpiece : nextPiece '"' (body ++ ['"']) = (⟨.quoted, '"' :: (body ++ ['"'])⟩, []) := by
        rw [nextPiece_quote, quotedTail_of_notMem hbody]
      rw [hpiece]
      simp [contentOf]

/-- What a lexeme is follows from its characters. -/
theorem Lexeme.unique {text : List Char} {k l : Kind} {v w : Value} (h : Lexeme text k v)
    (h' : Lexeme text l w) : k = l ∧ v = w := by
  rcases h.headed with ⟨c, cs, rfl, hc⟩
  rcases h'.headed with ⟨d, ds, heq, hd⟩
  obtain ⟨rfl, rfl⟩ := List.cons.inj heq
  exact Content.token.inj (hc.content.symm.trans hd.content)

/-- A mark of the table is a lexeme. -/
theorem lexeme_of_mark {cs : List Char} {k : Kind} (h : (String.ofList cs, k) ∈ marks) :
    Lexeme cs k .nil := by
  have hmark := Lexeme.mark h
  rwa [String.toList_ofList] at hmark

/-- A word is a lexeme, be it reserved or a name. -/
theorem lexeme_of_word {c : Char} {cs : List Char} (hc : isAlpha c = true)
    (hcs : ∀ d ∈ cs, isAlphanumeric d = true) :
    Lexeme (c :: cs) (Kind.ofWord (String.ofList (c :: cs))) .nil := by
  by_cases hkeyword : ∃ k, (String.ofList (c :: cs), k) ∈ reserved
  · rcases hkeyword with ⟨k, hk⟩
    have hkind : Kind.ofWord (String.ofList (c :: cs)) = k := ofWord_of_keyword _ hk
    have hlexeme := Lexeme.keyword hk
    rwa [String.toList_ofList, ← hkind] at hlexeme
  · have hname : ∀ k, (String.ofList (c :: cs), k) ∉ reserved :=
      fun k hk => hkeyword ⟨k, hk⟩
    rw [ofWord_of_notMem hname]
    exact .identifier (isAlpha_iff.mp hc) (fun d hd => isAlphanumeric_iff.mp (hcs d hd)) hname

/-- What begins with a character as a lexeme does is a lexeme. -/
theorem Headed.lexeme {c : Char} {cs : List Char} {k : Kind} {v : Value} (h : Headed c cs k v) :
    Lexeme (c :: cs) k v := by
  cases h with
  | sole hk hcs =>
      subst hcs
      unfold soleMark? at hk
      repeat' split at hk
      all_goals cases hk <;> (subst_vars; exact lexeme_of_mark (by decide))
  | alone hk hcs | extended hk hcs =>
      subst hcs
      unfold pairedMark? at hk
      repeat' split at hk
      all_goals cases hk <;> (subst_vars; exact lexeme_of_mark (by decide))
  | slash hc hcs =>
      subst hc hcs
      exact lexeme_of_mark (by decide)
  | whole hc hcs =>
      have hdigits : Digits (c :: cs) := ⟨List.cons_ne_nil _ _, List.forall_mem_cons.mpr ⟨hc, hcs⟩⟩
      exact .whole (numeral_iff.mpr hdigits) (Decimal.isNearest_numeral_iff.mpr rfl)
  | @decimal ds fs hc hds hfs hcs =>
      subst hcs
      have hdigits : Digits (c :: ds) := ⟨List.cons_ne_nil _ _, List.forall_mem_cons.mpr ⟨hc, hds⟩⟩
      exact .decimal (numeral_iff.mpr hdigits) (numeral_iff.mpr hfs)
        (Decimal.isNearest_numeral_iff.mpr rfl)
  | word hc hcs => exact lexeme_of_word hc hcs
  | quoted hc hbody hcs =>
      subst hc hcs
      exact .quoted hbody

/-! ## Segments that a scanner finds -/

/-- A piece that is a lexeme is the longest one at its place. -/
theorem begins_of_headed {c : Char} {cs ds rest : List Char} {p : Piece} {k : Kind} {v : Value}
    (h : Headed c ds k v) (hp : nextPiece c cs = (p, rest)) (htext : p.text = c :: ds)
    (hcontent : contentOf p = .token k v) (hcomment : ¬ ['/', '/'] <+: c :: cs) :
    Begins p.text rest (contentOf p) := by
  have happend := nextPiece_append c cs
  rw [hp] at happend
  rw [hcontent]
  refine .token (htext ▸ h.lexeme) (fun other k' v' hother hle => ?_) (happend ▸ hcomment)
  rcases hother.headed with ⟨d, es, rfl, hheaded⟩
  rw [happend] at hle
  obtain ⟨rfl, htail⟩ := List.cons_prefix_cons.mp hle
  have hlength := hheaded.length_le htail
  rwa [hp] at hlength

/-- At a slash, the piece is a comment if another slash follows, and else the mark. -/
theorem begins_slash {cs rest : List Char} {p : Piece} (h : nextPiece '/' cs = (p, rest)) :
    Begins p.text rest (contentOf p) := by
  by_cases hslash : ['/'] <+: cs
  · rcases hslash with ⟨ds, rfl⟩
    obtain ⟨rfl, rfl⟩ := Prod.mk.inj h
    exact .comment (notMem_takeWhile_bne _ _) head_dropWhile_bne
  · have hmark : nextPiece '/' cs = (⟨.mark .slash, ['/']⟩, cs) := by
      cases cs with
      | nil => rfl
      | cons d ds =>
          have hd : d ≠ '/' := by
            rintro rfl
            exact hslash ⟨ds, rfl⟩
          simp [nextPiece, soleMark?, pairedMark?, hd]
    obtain ⟨rfl, rfl⟩ := Prod.mk.inj (hmark.symm.trans h)
    exact begins_of_headed (.slash rfl rfl) hmark rfl rfl fun hprefix =>
      hslash (List.cons_prefix_cons.mp hprefix).2

/-- At a quote, the piece is a string, closed or not. -/
theorem begins_quote {cs rest : List Char} {p : Piece} (h : nextPiece '"' cs = (p, rest)) :
    Begins p.text rest (contentOf p) := by
  have hp := h
  rw [nextPiece_quote] at hp
  cases hdrop : cs.dropWhile (· != '"') with
  | nil =>
      have htail : quotedTail cs = (.unclosed, cs.takeWhile (· != '"'), []) := by
        rw [quotedTail, hdrop]
      rw [htail] at hp
      cases hp
      exact .unclosed (notMem_takeWhile_bne _ _)
  | cons mark after =>
      -- the string is closed by the first quote behind its own
      obtain rfl : mark = '"' := head_dropWhile_bne mark (by rw [hdrop]; rfl)
      have htail : quotedTail cs = (.quoted, cs.takeWhile (· != '"') ++ ['"'], after) := by
        rw [quotedTail, hdrop]
      rw [htail] at hp
      cases hp
      exact begins_of_headed (.quoted rfl (notMem_takeWhile_bne _ _) rfl) h rfl
        (by simp [contentOf]) fun hslash =>
          absurd (List.cons_prefix_cons.mp hslash).1 (by decide)

/-- At a digit, the piece is a number, with a point in it or without. -/
theorem begins_digit {c : Char} {cs rest : List Char} {p : Piece} (hc : isDigit c = true)
    (h : nextPiece c cs = (p, rest)) (hcomment : ¬ ['/', '/'] <+: c :: cs) :
    Begins p.text rest (contentOf p) := by
  obtain ⟨rfl, rfl⟩ := Prod.mk.inj ((nextPiece_digit hc cs).symm.trans h)
  rcases numberTail_cases cs with ⟨ds, hds, hwhole | ⟨fs, hfs, hdecimal⟩⟩
  · rw [← hwhole] at hds
    have hdigits : Digits (c :: (numberTail cs).1) :=
      ⟨List.cons_ne_nil _ _, List.forall_mem_cons.mpr ⟨hc, hds⟩⟩
    exact begins_of_headed (.whole hc hds) h rfl
      (by rw [contentOf, readPlain_whole hdigits]; rfl) hcomment
  · have hdigits : Digits (c :: ds) := ⟨List.cons_ne_nil _ _, List.forall_mem_cons.mpr ⟨hc, hds⟩⟩
    have hread := readPlain_decimal hdigits hfs
    rw [List.cons_append, ← hdecimal] at hread
    exact begins_of_headed (.decimal hc hds hfs hdecimal) h rfl
      (by rw [contentOf, hread]; rfl) hcomment

/-- The piece that the scanner takes off a text is what the text begins with, by the grammar. -/
theorem begins_nextPiece {c : Char} {cs rest : List Char} {p : Piece}
    (h : nextPiece c cs = (p, rest)) : Begins p.text rest (contentOf p) := by
  by_cases hslash : c = '/'
  · subst hslash
    exact begins_slash h
  by_cases hquote : c = '"'
  · subst hquote
    exact begins_quote h
  have hcomment : ¬ ['/', '/'] <+: c :: cs := fun hprefix =>
    hslash (List.cons_prefix_cons.mp hprefix).1.symm
  have hp := h
  unfold nextPiece at hp
  -- the branches of the scanner in its order, but for those of the slash and the quote
  split at hp
  · rename_i k hk
    cases hp
    exact begins_of_headed (.sole hk rfl) h rfl rfl hcomment
  rename_i hsole
  split at hp
  · rename_i k l hk
    split at hp
    · cases hp
      exact begins_of_headed (.extended hk rfl) h rfl rfl hcomment
    · cases hp
      exact begins_of_headed (.alone hk rfl) h rfl rfl hcomment
  rename_i hpaired
  rw [if_neg hslash] at hp
  split at hp
  · rename_i hc
    cases hp
    exact .blank (by simpa [blanks, or_assoc] using hc)
  rename_i hblank
  split at hp
  · rename_i hc
    exact begins_digit hc h hcomment
  rename_i hdigit
  split at hp
  · rename_i hc
    cases hp
    exact begins_of_headed (.word hc fun d hd => List.mem_takeWhile_imp hd) h rfl rfl hcomment
  rename_i halpha
  cases hp
  -- a lexeme would start with one of the characters that are ruled out by now
  refine .stray (fun text k v htext hle => ?_) ?_ hquote
  · rcases htext.headed with ⟨d, ds, rfl, hheaded⟩
    obtain ⟨rfl, -⟩ := List.cons_prefix_cons.mp hle
    cases hheaded <;> simp_all
  · simpa [blanks, or_assoc] using hblank

/-- No lexeme starts with a blank. -/
theorem Headed.notMem_blanks {c : Char} {cs : List Char} {k : Kind} {v : Value}
    (h : Headed c cs k v) : c ∉ blanks := by
  intro hc
  simp only [blanks, List.mem_cons, List.not_mem_nil, or_false] at hc
  rcases hc with rfl | rfl | rfl | rfl <;> cases h <;> contradiction

/-- A lexeme that starts with a quote has one more. -/
theorem Headed.eq_quoted {cs : List Char} {k : Kind} {v : Value} (h : Headed '"' cs k v) :
    '"' ∈ cs := by
  cases h with
  | quoted _ _ hcs => simp [hcs]
  | _ => contradiction

/-- Where a text begins with a lexeme and with no comment, a scanner finds a lexeme. -/
theorem lexeme_of_nextPiece {c : Char} {ds rest rest' : List Char} {p : Piece} {k : Kind}
    {v : Value} (h : Headed c ds k v) (hp : nextPiece c (ds ++ rest) = (p, rest'))
    (hcomment : ¬ ['/', '/'] <+: c :: (ds ++ rest)) :
    ∃ k' v', Lexeme p.text k' v' ∧ contentOf p = .token k' v' := by
  have happend := nextPiece_append c (ds ++ rest)
  have hbegins := begins_nextPiece hp
  rw [hp] at happend
  change p.text ++ rest' = _ at happend
  generalize p.text = text, contentOf p = content at hbegins happend
  cases hbegins with
  | token hlexeme => exact ⟨_, _, hlexeme, rfl⟩
  | blank hc =>
      obtain ⟨rfl, -⟩ := List.cons.inj happend
      exact absurd hc h.notMem_blanks
  | @comment body => exact absurd (happend ▸ ⟨body ++ rest', rfl⟩) hcomment
  | stray hnone =>
      obtain ⟨rfl, rfl⟩ := List.cons.inj happend
      exact absurd ⟨rest, rfl⟩ (hnone _ _ _ h.lexeme)
  | unclosed hbody =>
      rw [List.append_nil] at happend
      obtain ⟨rfl, rfl⟩ := List.cons.inj happend
      exact absurd (List.mem_append_left _ h.eq_quoted) hbody

/-- Where a text begins with nothing that is known, a scanner finds a stray character. -/
theorem stray_of_nextPiece {c : Char} {rest rest' : List Char} {p : Piece}
    (hnone : ∀ text k v, Lexeme text k v → ¬ text <+: c :: rest) (hblank : c ∉ blanks)
    (hquote : c ≠ '"') (hp : nextPiece c rest = (p, rest')) :
    p.text = [c] ∧ contentOf p = .error .unexpectedCharacter ∧ rest' = rest := by
  have happend := nextPiece_append c rest
  have hbegins := begins_nextPiece hp
  rw [hp] at happend
  change p.text ++ rest' = _ at happend
  generalize p.text = text, contentOf p = content at hbegins happend
  cases hbegins with
  | token hlexeme => exact absurd ⟨rest', happend⟩ (hnone _ _ _ hlexeme)
  | blank hc =>
      obtain ⟨rfl, -⟩ := List.cons.inj happend
      exact absurd hc hblank
  | @comment body =>
      have hslash : Lexeme ['/'] .slash .nil := lexeme_of_mark (by decide)
      exact absurd (happend ▸ ⟨'/' :: (body ++ rest'), rfl⟩) (hnone _ _ _ hslash)
  | stray =>
      obtain ⟨rfl, rfl⟩ := List.cons.inj happend
      exact ⟨rfl, rfl, rfl⟩
  | unclosed =>
      obtain ⟨rfl, -⟩ := List.cons.inj happend
      exact absurd rfl hquote

/-- What a text begins with, by the grammar, is the piece that the scanner takes off it. -/
theorem Begins.nextPiece {text rest : List Char} {content : Content}
    (h : Begins text rest content) : ∃ c cs p, text ++ rest = c :: cs ∧
      Token.nextPiece c cs = (p, rest) ∧ p.text = text ∧ contentOf p = content := by
  cases h with
  | token hlexeme hlongest hcomment =>
      rcases hlexeme.headed with ⟨c, ds, rfl, hheaded⟩
      obtain ⟨p, rest', hp⟩ : ∃ p rest', Token.nextPiece c (ds ++ rest) = (p, rest') :=
        ⟨_, _, rfl⟩
      rcases lexeme_of_nextPiece hheaded hp hcomment with ⟨k', v', hlexeme', hcontent⟩
      have happend := nextPiece_append c (ds ++ rest)
      -- the scanner takes at least the lexeme, and the grammar takes the longest one
      have hle := hheaded.length_le (List.prefix_append ds rest)
      rw [hp] at happend hle
      have hle' := hlongest p.text k' v' hlexeme' ⟨rest', happend⟩
      obtain ⟨htext, hrest⟩ := List.append_inj (happend.trans (List.cons_append ..).symm)
        (Nat.le_antisymm hle' hle)
      obtain ⟨rfl, rfl⟩ := hlexeme.unique (htext ▸ hlexeme')
      exact ⟨c, ds ++ rest, p, rfl, hrest ▸ hp, htext, hcontent⟩
  | @blank c rest hc =>
      refine ⟨c, rest, ⟨.blank, [c]⟩, rfl, ?_, rfl, rfl⟩
      simp only [blanks, List.mem_cons, List.not_mem_nil, or_false] at hc
      rcases hc with rfl | rfl | rfl | rfl <;> rfl
  | @comment body rest hbody hrest =>
      rcases span_of_notMem hbody rest hrest with ⟨htake, hdrop⟩
      have htail : commentTail (body ++ rest) = (body, rest) := by rw [commentTail, htake, hdrop]
      refine ⟨'/', '/' :: (body ++ rest), ⟨.comment, '/' :: '/' :: body⟩, rfl, ?_, rfl, rfl⟩
      rw [nextPiece_comment, htail]
  | @stray c rest hlexeme hblank hquote =>
      obtain ⟨p, rest', hp⟩ : ∃ p rest', Token.nextPiece c rest = (p, rest') := ⟨_, _, rfl⟩
      rcases stray_of_nextPiece hlexeme hblank hquote hp with ⟨htext, hcontent, rfl⟩
      exact ⟨c, _, p, rfl, hp, htext, hcontent⟩
  | @unclosed body hbody =>
      rcases span_of_notMem hbody [] (by simp) with ⟨htake, hdrop⟩
      rw [List.append_nil] at htake hdrop
      have htail : quotedTail body = (.unclosed, body, []) := by rw [quotedTail, htake, hdrop]
      refine ⟨'"', body, ⟨.unclosed, '"' :: body⟩, List.append_nil _, ?_, rfl, rfl⟩
      rw [nextPiece_quote, htail]

/-- A text that is divided into segments begins with the piece that stands there. -/
theorem Divides.front {text : List Char} {ss : List Segment} (h : Divides text ss) :
    (text = [] ∧ ss = []) ∨ ∃ c cs p rest ss', text = c :: cs ∧ nextPiece c cs = (p, rest) ∧
      ss = ⟨p.text, contentOf p⟩ :: ss' ∧ Divides rest ss' := by
  cases h with
  | nil => exact .inl ⟨rfl, rfl⟩
  | cons hbegins hrest =>
      rcases hbegins.nextPiece with ⟨c, cs, p, htext, hp, rfl, rfl⟩
      exact .inr ⟨c, cs, p, _, _, htext, hp, rfl, hrest⟩

/-- A text is divided in one way only. -/
theorem Divides.unique {text : List Char} {ss ss' : List Segment} (h : Divides text ss)
    (h' : Divides text ss') : ss = ss' := by
  induction h generalizing ss' with
  | nil =>
      rcases h'.front with ⟨-, rfl⟩ | ⟨_, _, _, _, _, htext, -⟩
      · rfl
      · cases htext
  | cons hbegins _ ih =>
      rcases hbegins.nextPiece with ⟨c, cs, p, htext, hp, rfl, rfl⟩
      rcases h'.front with ⟨hnil, -⟩ | ⟨_, _, _, _, _, htext', hp', rfl, hrest⟩
      · cases hnil.symm.trans htext
      · obtain ⟨rfl, rfl⟩ := List.cons.inj (htext.symm.trans htext')
        obtain ⟨rfl, rfl⟩ := Prod.mk.inj (hp.symm.trans hp')
        rw [ih hrest]

/-- A piece and its segment have the same token ... -/
theorem token_segment (line : Int) (p : Piece) :
    (⟨p.text, contentOf p⟩ : Segment).token? line = p.token? line := by
  rcases p with ⟨_ | _, text⟩ <;> rfl

/-- ... and the same report. -/
theorem diagnostic_segment (line : Int) (p : Piece) :
    (⟨p.text, contentOf p⟩ : Segment).diagnostic? line = p.diagnostic? line := by
  rcases p with ⟨_ | _, text⟩ <;> rfl

/-- The pieces that are scanned divide the text. -/
theorem divides_of_scanned {line : Int} {cs : List Char} {ts : List Token} {ds : List Diagnostic}
    (h : Scanned line cs ts ds) :
    ∃ ss, Divides cs ss ∧ ts = tokens line ss ∧ ds = diagnostics line ss := by
  induction h with
  | nil => exact ⟨[], .nil, rfl, rfl⟩
  | @cons line c cs rest p ts ds hp _ ih =>
      rcases ih with ⟨ss, hdivides, rfl, rfl⟩
      have happend := nextPiece_append c cs
      rw [hp] at happend
      refine ⟨⟨p.text, contentOf p⟩ :: ss, happend ▸ .cons (begins_nextPiece hp) hdivides, ?_, ?_⟩
      · rw [tokens, token_segment]
      · rw [diagnostics, diagnostic_segment]

/-- The segments of a division make up the text. -/
theorem Divides.flatMap_text {text : List Char} {ss : List Segment} (h : Divides text ss) :
    ss.flatMap Segment.text = text := by
  induction h with
  | nil => rfl
  | cons _ _ ih => rw [List.flatMap_cons, ih]

theorem text_at_line (n : Int) (complaint : Complaint) :
    (⟨.line n, complaint⟩ : Diagnostic).text =
      "[line " ++ toString n ++ "] Error: " ++ complaint.message := by
  have hcolon : "[line " ++ toString n ++ "] Error" ++ ": " =
      "[line " ++ toString n ++ "] Error: " := String.append_assoc
  simp only [Diagnostic.text, Place.wording, Place.lineText, String.append_empty, hcolon]

/-- Every error is reported at its line, in its wording. -/
theorem messages_of_diagnostics {line : Int} {text : List Char} {ss : List Segment}
    (h : Divides text ss) : ∀ d ∈ diagnostics line ss, ∃ message, (d.complaint, message) ∈ messages ∧
      d.text = "[line " ++ d.place.lineText ++ "] Error: " ++ message := by
  induction h generalizing line with
  | nil => exact List.forall_mem_nil _
  | cons hbegins _ ih =>
      refine List.forall_mem_append.mpr ⟨fun d hd => ?_, ih⟩
      cases hbegins with
      | token | blank | comment => cases hd
      | stray | unclosed =>
          obtain rfl := List.mem_singleton.mp hd
          exact ⟨_, by simp [messages]; rfl, text_at_line _ _⟩

/-- A scanner ends on every text, without a fault, and it finds the one division of the text
into segments: its tokens are the lexemes, followed by the only end token, and its reports
are the errors. -/
theorem scan_divides (source : String) (r : Report) :
    ∃ ss, (∀ ss', Divides source.toList ss' ↔ ss' = ss) ∧
      source.toList = ss.flatMap Segment.text ∧
      (Scanner.ofSource source r).scanTokens.1 = .ok () ∧
      Token.scan source r =
        (tokens 1 ss ++ [.scanned .eof "" .nil (1 + Text.lineBreaks source.toList)],
          r.addAll (diagnostics 1 ss)) ∧
      (∀ t ∈ tokens 1 ss, t.kind ≠ .eof) ∧
      ∀ d ∈ diagnostics 1 ss, ∃ message, (d.complaint, message) ∈ messages ∧
        d.text = "[line " ++ d.place.lineText ++ "] Error: " ++ message := by
  rcases Token.scan_scanned source r with ⟨ts, ds, hscanned, hok, hscan⟩
  have hkinds := kind_ne_eof_of_scanned hscanned
  rcases divides_of_scanned hscanned with ⟨ss, hdivides, rfl, rfl⟩
  refine ⟨ss, fun ss' => ⟨fun h => h.unique hdivides, ?_⟩, hdivides.flatMap_text.symm, hok, hscan,
    hkinds, messages_of_diagnostics hdivides⟩
  rintro rfl
  exact hdivides

end NovaLang.Lexical
