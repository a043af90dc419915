import NovaLang.Node.Json
import NovaLang.Proofs.Json.Dump

namespace NovaLang

/-! # Trees read back

A tree written as JSON is read back as it was, form by form, when its literals are,
as those with a JSON form of their own; and since what is written is legible JSON, so
is a tree written as text. A tree with a whole number of too many digits has no text.
-/

/-- The value has a JSON form of its own. -/
def Value.IsPlain : Value → Prop
  | .native _ | .data _ => False
  | _ => True

/-- The value is read back from its JSON. -/
def Value.Restores (v : Value) : Prop := ofJson v.toJson = v

namespace Node

mutual

/-- Every token and every literal of the tree is as told. -/
def All (P : Token → Prop) (Q : Value → Prop) : Node → Prop
  | .absent => True
  | .list items => AllOf P Q items
  | .literal v => Q v
  | .grouping e => All P Q e
  | .unary o e => P o ∧ All P Q e
  | .binary a o b => All P Q a ∧ P o ∧ All P Q b
  | .logical a o b => All P Q a ∧ P o ∧ All P Q b
  | .reference n => P n
  | .assign n e => P n ∧ All P Q e
  | .call f p as => All P Q f ∧ P p ∧ AllOf P Q as
  | .expression e => All P Q e
  | .print e => All P Q e
  | .var n e => P n ∧ All P Q e
  | .block ss => AllOf P Q ss
  | .branch c t e => All P Q c ∧ All P Q t ∧ All P Q e
  | .loop c b => All P Q c ∧ All P Q b

/-- Every token and every literal of the trees is as told. -/
def AllOf (P : Token → Prop) (Q : Value → Prop) : List Node → Prop
  | [] => True
  | n :: ns => All P Q n ∧ AllOf P Q ns

end

section

variable {P P' : Token → Prop} {Q Q' : Value → Prop}

/-- A property of a list of nodes is one of each node. -/
theorem allOf_iff {ns : List Node} : AllOf P Q ns ↔ ∀ n ∈ ns, n.All P Q := by
  induction ns with
  | nil => simp [AllOf]
  | cons n ns ih => rw [AllOf, ih, List.forall_mem_cons]

mutual

/-- A weaker property holds as well. -/
theorem All.mono (hP : ∀ t, P t → P' t) (hQ : ∀ v, Q v → Q' v) :
    ∀ n : Node, n.All P Q → n.All P' Q'
  | .absent, _ => trivial
  | .list items, h => AllOf.mono hP hQ items h
  | .literal v, h => hQ v h
  | .grouping e, h | .expression e, h | .print e, h => All.mono hP hQ e h
  | .unary o e, ⟨ho, he⟩ | .assign o e, ⟨ho, he⟩ | .var o e, ⟨ho, he⟩ =>
    ⟨hP o ho, All.mono hP hQ e he⟩
  | .binary a o b, ⟨ha, ho, hb⟩ | .logical a o b, ⟨ha, ho, hb⟩ =>
    ⟨All.mono hP hQ a ha, hP o ho, All.mono hP hQ b hb⟩
  | .reference n, hn => hP n hn
  | .call f p as, ⟨hf, hp, has⟩ => ⟨All.mono hP hQ f hf, hP p hp, AllOf.mono hP hQ as has⟩
  | .block ss, h => AllOf.mono hP hQ ss h
  | .branch c t e, ⟨hc, ht, he⟩ =>
    ⟨All.mono hP hQ c hc, All.mono hP hQ t ht, All.mono hP hQ e he⟩
  | .loop c b, ⟨hc, hb⟩ => ⟨All.mono hP hQ c hc, All.mono hP hQ b hb⟩

/-- The same for a list of nodes. -/
theorem AllOf.mono (hP : ∀ t, P t → P' t) (hQ : ∀ v, Q v → Q' v) :
    ∀ ns : List Node, AllOf P Q ns → AllOf P' Q' ns
  | [], _ => trivial
  | n :: ns, ⟨hn, hns⟩ => ⟨All.mono hP hQ n hn, AllOf.mono hP hQ ns hns⟩

end

end

/-- The tree's literals, its tokens' ones included, are read back from their JSON. -/
abbrev Restores : Node → Prop := All (fun t => t.literal.Restores) Value.Restores

/-- The literals of all the trees are read back from their JSON. -/
abbrev AllRestore : List Node → Prop := AllOf (fun t => t.literal.Restores) Value.Restores

/-! ## Values and tokens -/

/-- The values of the language are restored. -/
theorem restores_of_isPlain {v : Value} (hv : v.IsPlain) : v.Restores := by
  cases v with
  | native f => exact hv.elim
  | data j => exact hv.elim
  | _ => rfl

/-- A kind is found by its name. -/
theorem ofName_name (k : Kind) : Kind.ofName? k.name = some k := by
  cases k <;> decide

/-! ## Objects

A node is written as an object with distinct keys, so that each part is found under
its own key.
-/

section Lookup

variable {α : Type} {k l : String} {a : α} {fields : List (String × α)}

/-- The first field is found under its key. -/
theorem get?_head : Keyed.get? ((k, a) :: fields) k = some a := by
  simp [Keyed.get?]

/-- Under another key, the search goes on. -/
theorem get?_tail (h : l ≠ k) : Keyed.get? ((l, a) :: fields) k = Keyed.get? fields k := by
  simp [Keyed.get?, h]

end Lookup

section Reading

attribute [local simp] get?_head get?_tail field bind Except.bind pure Except.pure

/-- A token is decoded to itself. -/
theorem tokenOfJson_tokenToJson {t : Token} (ht : t.literal.Restores) :
    tokenOfJson (tokenToJson t) = .ok t := by
  obtain ⟨kind, lexeme, literal, line⟩ := t
  have hkind : kindOfJson (.str kind.name) = .ok kind := by
    simp only [kindOfJson, ofName_name]
  have hliteral : Value.ofJson literal.toJson = literal := ht
  simp [tokenToJson, tokenOfJson, hkind, hliteral]

attribute [local simp] toJson formToJson ofJson readFields ofFields Form.name Fields.node
  Fields.optional Fields.token Fields.nodes listOf

mutual

/-- A tree is read back, form by form, if its literals are. -/
theorem ofJson_toJson : ∀ n : Node, n.Restores → ofJson (toJson n) = .ok n
  | .absent, _ => rfl
  | .list items, h => by simp [ofJsons_toJsons items h]
  -- the fields of each object are found by their keys, as no key is repeated
  | .literal v, (h : Value.ofJson v.toJson = v) => by simp [h]
  | .grouping e, h => by simp [ofJson_toJson e h]
  | .unary o e, ⟨ho, he⟩ => by simp [tokenOfJson_tokenToJson ho, ofJson_toJson e he]
  | .binary a o b, ⟨ha, ho, hb⟩ => by
    simp [ofJson_toJson a ha, tokenOfJson_tokenToJson ho, ofJson_toJson b hb]
  | .logical a o b, ⟨ha, ho, hb⟩ => by
    simp [ofJson_toJson a ha, tokenOfJson_tokenToJson ho, ofJson_toJson b hb]
  | .reference n, hn => by simp [tokenOfJson_tokenToJson hn]
  | .assign n e, ⟨hn, he⟩ => by simp [tokenOfJson_tokenToJson hn, ofJson_toJson e he]
  | .call f p as, ⟨hf, hp, has⟩ => by
    simp [ofJson_toJson f hf, tokenOfJson_tokenToJson hp, ofJsons_toJsons as has]
  | .expression e, h => by simp [ofJson_toJson e h]
  | .print e, h => by simp [ofJson_toJson e h]
  | .var n e, ⟨hn, he⟩ => by simp [tokenOfJson_tokenToJson hn, ofJson_toJson e he]
  | .block ss, h => by simp [ofJsons_toJsons ss h]
  | .branch c t e, ⟨hc, ht, he⟩ => by
    simp [ofJson_toJson c hc, ofJson_toJson t ht, ofJson_toJson e he]
  | .loop c b, ⟨hc, hb⟩ => by simp [ofJson_toJson c hc, ofJson_toJson b hb]

/-- So is a list of nodes, each by itself. -/
theorem ofJsons_toJsons : ∀ ns : List Node, AllRestore ns → ofJsons (toJsons ns) = .ok ns
  | [], _ => rfl
  | n :: ns, ⟨hn, hns⟩ => by simp [toJsons, ofJsons, ofJson_toJson n hn, ofJsons_toJsons ns hns]

end

/-- A plain program is read back. -/
theorem programOfJson_programToJson {program : List Node}
    (h : AllOf (fun t => t.literal.IsPlain) Value.IsPlain program) :
    programOfJson (programToJson program) = .ok program := by
  have hrestore : AllRestore program :=
    AllOf.mono (fun _ => restores_of_isPlain) (fun _ => restores_of_isPlain) program h
  simp [programToJson, programOfJson, ofJsons_toJsons program hrestore]

end Reading

/-! ## Trees as text -/

section Legible

/-- What the token holds can be read back from text. -/
def TokenLegible (t : Token) : Prop :=
  t.lexeme.Legible ∧ t.literal.toJson.Legible ∧ t.line.Legible

/-- The literal can be read back from text. -/
def ValueLegible (v : Value) : Prop := v.toJson.Legible

attribute [local simp] Json.Legible Json.LegibleFields Json.LegibleItems Keyed.names

/-- The object of a token can be read if its literal and lines can. -/
theorem legible_tokenToJson {t : Token} (ht : TokenLegible t) : (tokenToJson t).Legible := by
  obtain ⟨hlexeme, hliteral, hline⟩ := ht
  simp [tokenToJson, hlexeme, hliteral, hline]

attribute [local simp] toJson toJsons formToJson

mutual

/-- A tree of legible tokens and literals is legible JSON. -/
theorem legible_toJson : ∀ n : Node, n.All TokenLegible ValueLegible → (toJson n).Legible
  | .absent, _ => trivial
  | .list items, h => by simp [legible_toJsons items h]
  | .literal v, (h : v.toJson.Legible) => by simp [h]
  | .grouping e, h => by simp [legible_toJson e h]
  | .unary o e, ⟨ho, he⟩ => by simp [legible_tokenToJson ho, legible_toJson e he]
  | .binary a o b, ⟨ha, ho, hb⟩ => by
    simp [legible_toJson a ha, legible_tokenToJson ho, legible_toJson b hb]
  | .logical a o b, ⟨ha, ho, hb⟩ => by
    simp [legible_toJson a ha, legible_tokenToJson ho, legible_toJson b hb]
  | .reference n, hn => by simp [legible_tokenToJson hn]
  | .assign n e, ⟨hn, he⟩ => by simp [legible_tokenToJson hn, legible_toJson e he]
  | .call f p as, ⟨hf, hp, has⟩ => by
    simp [legible_toJson f hf, legible_tokenToJson hp, legible_toJsons as has]
  | .expression e, h => by simp [legible_toJson e h]
  | .print e, h => by simp [legible_toJson e h]
  | .var n e, ⟨hn, he⟩ => by simp [legible_tokenToJson hn, legible_toJson e he]
  | .block ss, h => by simp [legible_toJsons ss h]
  | .branch c t e, ⟨hc, ht, he⟩ => by
    simp [legible_toJson c hc, legible_toJson t ht, legible_toJson e he]
  | .loop c b, ⟨hc, hb⟩ => by simp [legible_toJson c hc, legible_toJson b hb]

/-- The same for a list of nodes. -/
theorem legible_toJsons : ∀ ns : List Node, AllOf TokenLegible ValueLegible ns →
    Json.LegibleItems (toJsons ns)
  | [], _ => trivial
  | n :: ns, ⟨hn, hns⟩ => ⟨legible_toJson n hn, legible_toJsons ns hns⟩

end

/-- The same for a program. -/
theorem legible_programToJson {program : List Node} (h : AllOf TokenLegible ValueLegible program) :
    (programToJson program).Legible := by
  simp [programToJson, legible_toJsons program h]

end Legible

section Short

/-- No whole number of the token has too many digits. -/
def TokenShort (t : Token) : Prop := t.lexeme.Short ∧ t.literal.toJson.Short ∧ t.line.Short

/-- The literal is no whole number of too many digits, and none is in it. -/
def ValueShort (v : Value) : Prop := v.toJson.Short

attribute [local simp] Json.Short Json.ShortFields Json.ShortItems

/-- The object of a token can be written if its whole numbers are short. -/
theorem short_tokenToJson {t : Token} : (tokenToJson t).Short ↔ TokenShort t := by
  simp [tokenToJson, TokenShort]

attribute [local simp] toJson toJsons formToJson All AllOf short_tokenToJson

mutual

/-- The JSON of a tree has a text if its tokens and literals have. -/
theorem short_toJson : ∀ n : Node, (toJson n).Short ↔ n.All TokenShort ValueShort
  | .absent => by simp
  | .list items => by simp [short_toJsons items]
  | .literal v => by simp [ValueShort]
  | .grouping e | .expression e | .print e => by simp [short_toJson e]
  | .unary o e | .assign o e | .var o e => by simp [short_toJson e]
  | .binary a o b | .logical a o b => by simp [short_toJson a, short_toJson b]
  | .reference n => by simp
  | .call f p as => by simp [short_toJson f, short_toJsons as]
  | .block ss => by simp [short_toJsons ss]
  | .branch c t e => by simp [short_toJson c, short_toJson t, short_toJson e]
  | .loop c b => by simp [short_toJson c, short_toJson b]

/-- The same for a list of nodes. -/
theorem short_toJsons : ∀ ns : List Node,
    Json.ShortItems (toJsons ns) ↔ AllOf TokenShort ValueShort ns
  | [] => Iff.rfl
  | n :: ns => and_congr (short_toJson n) (short_toJsons ns)

end

end Short

end Node

end NovaLang
