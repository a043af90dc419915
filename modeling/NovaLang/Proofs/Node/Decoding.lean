import Mathlib.Logic.Relation
import NovaLang.Proofs.Node.RoundTrip

namespace NovaLang

/-! # Trees read from any JSON

Much more is read as a tree than is ever written for one: keys that nothing asks for, children
that are missing or null, lists in the place of a node. Whatever tree comes of it is written
in the strict form and read back from that as it is, since each of its literals was itself read from
JSON. And an object is read at the keys of its own form alone.
-/

section Except

variable {ε α β : Type}

/-- Two steps succeed if each of them does. -/
theorem bind_eq_ok {x : Except ε α} {f : α → Except ε β} {b : β} :
    x >>= f = .ok b ↔ ∃ a, x = .ok a ∧ f a = .ok b := by
  cases x <;> simp [bind, Except.bind]

/-- The last step succeeds with its own value. -/
theorem pure_eq_ok {a b : α} : (pure a : Except ε α) = .ok b ↔ a = b :=
  Except.ok.injEq a b ▸ Iff.rfl

end Except

namespace Node

/-! ## What is read is read back -/

/-- A value that was decoded is restored. -/
theorem restores_ofJson (j : Json) : (Value.ofJson j).Restores := by
  cases j <;> rfl

/-- So is the literal of a token that was decoded. -/
theorem restores_tokenOfJson {j : Json} {t : Token} (h : tokenOfJson j = .ok t) :
    t.literal.Restores := by
  cases j with
  | obj fields =>
    simp only [tokenOfJson, bind_eq_ok, pure_eq_ok] at h
    obtain ⟨kind, -, kind', -, lexeme, -, line, -, rfl⟩ := h
    exact restores_ofJson _
  | _ => cases h

section Fields

/-- Every node among the fields is read back. -/
def Fields.Restore (fields : Fields) : Prop := ∀ e ∈ fields, ∀ n, e.2.2 = .ok n → n.Restores

variable {fields : Fields} {key : String} {n : Node} {ns : List Node} {t : Token}

/-- A node under a key is restored. -/
theorem Fields.Restore.at (hf : fields.Restore) {e : Json × Except ReadError Node}
    (he : Keyed.get? fields key = some e) (h : e.2 = .ok n) : n.Restores := by
  simp only [Keyed.get?, Option.map_eq_some_iff] at he
  obtain ⟨field, hfield, rfl⟩ := he
  exact hf field (List.mem_of_find?_eq_some hfield) n h

/-- The same for a node that is required ... -/
theorem Fields.Restore.node (hf : fields.Restore) (h : fields.node key = .ok n) : n.Restores := by
  obtain ⟨e, he, hn⟩ := bind_eq_ok.mp h
  unfold field at he
  split at he
  · cases he
    exact hf.at ‹_› hn
  · cases he

/-- ... and for one that may be missing. -/
theorem Fields.Restore.optional (hf : fields.Restore) (h : fields.optional key = .ok n) :
    n.Restores := by
  unfold Fields.optional at h
  split at h
  · exact hf.at ‹_› h
  · cases h
    trivial

/-- The literal of a token under a key is restored. -/
theorem Fields.restores_token (h : fields.token key = .ok t) : t.literal.Restores := by
  obtain ⟨e, -, ht⟩ := bind_eq_ok.mp h
  exact restores_tokenOfJson ht

/-- Without elements there are no nodes. -/
theorem noNodes_eq_ok {elements : List String} (h : noNodes elements = .ok ns) : ns = [] := by
  cases elements <;> cases h
  rfl

/-- Each node of a list is restored. -/
theorem allRestore_listOf {j : Json} {whole : Except ReadError Node}
    (hwhole : ∀ n, whole = .ok n → n.Restores) (h : listOf j whole = .ok ns) : AllRestore ns := by
  unfold listOf at h
  split at h
  · obtain ⟨n, hn, h⟩ := bind_eq_ok.mp h
    cases n with
    | list items =>
      cases h
      exact hwhole _ hn
    | _ => cases h
  · cases noNodes_eq_ok h
    trivial
  · cases noNodes_eq_ok h
    trivial
  · cases h

/-- The same for a list under a key. -/
theorem Fields.Restore.nodes (hf : fields.Restore) (h : fields.nodes key = .ok ns) :
    AllRestore ns := by
  unfold Fields.nodes at h
  split at h
  · exact allRestore_listOf (fun n => hf.at ‹_›) h
  · cases h
    trivial

/-- A node is read back if the nodes among its fields are. -/
theorem Fields.Restore.ofFields (hf : fields.Restore) (h : ofFields fields = .ok n) :
    n.Restores := by
  simp only [Node.ofFields] at h
  -- one case for each type of node: its fields are read in this order
  split at h <;> try simp only [bind_eq_ok, pure_eq_ok] at h
  · exact h ▸ restores_ofJson _
  · obtain ⟨e, he, rfl⟩ := h
    exact (hf.node he : e.Restores)
  · obtain ⟨o, ho, e, he, rfl⟩ := h
    exact ⟨restores_token ho, hf.node he⟩
  · obtain ⟨a, ha, o, ho, b, hb, rfl⟩ := h
    exact ⟨hf.node ha, restores_token ho, hf.node hb⟩
  · obtain ⟨a, ha, o, ho, b, hb, rfl⟩ := h
    exact ⟨hf.node ha, restores_token ho, hf.node hb⟩
  · obtain ⟨name, hname, rfl⟩ := h
    exact restores_token hname
  · obtain ⟨name, hname, e, he, rfl⟩ := h
    exact ⟨restores_token hname, hf.node he⟩
  · obtain ⟨f, hcallee, p, hp, as, has, rfl⟩ := h
    exact ⟨hf.node hcallee, restores_token hp, hf.nodes has⟩
  · obtain ⟨e, he, rfl⟩ := h
    exact (hf.node he : e.Restores)
  · obtain ⟨e, he, rfl⟩ := h
    exact (hf.node he : e.Restores)
  · obtain ⟨name, hname, e, he, rfl⟩ := h
    exact ⟨restores_token hname, hf.optional he⟩
  · obtain ⟨ss, hss, rfl⟩ := h
    exact hf.nodes hss
  · obtain ⟨c, hc, a, ha, b, hb, rfl⟩ := h
    exact ⟨hf.node hc, hf.node ha, hf.optional hb⟩
  · obtain ⟨c, hc, b, hb, rfl⟩ := h
    exact ⟨hf.node hc, hf.node hb⟩
  · cases h

end Fields

mutual

/-- Whatever is read as a tree is read back. -/
theorem ofJson_restores : ∀ (j : Json) (n : Node), ofJson j = .ok n → n.Restores
  | .null, n, h => by
    cases h
    trivial
  | .arr items, n, h => by
    obtain ⟨ns, hns, hn⟩ := bind_eq_ok.mp h
    cases hn
    exact ofJsons_restores items ns hns
  | .obj fields, n, h => (readFields_restore fields).ofFields h
  | .bool _, _, h | .int _, _, h | .float _, _, h | .str _, _, h => by cases h

/-- Each node of an array is restored. -/
theorem ofJsons_restores :
    ∀ (js : List Json) (ns : List Node), ofJsons js = .ok ns → AllRestore ns
  | [], ns, h => by
    cases h
    trivial
  | j :: js, ns, h => by
    simp only [ofJsons, bind_eq_ok] at h
    obtain ⟨n, hn, rest, hrest, h⟩ := h
    cases h
    exact ⟨ofJson_restores j n hn, ofJsons_restores js rest hrest⟩

/-- Each node in the fields of an object is restored. -/
theorem readFields_restore : ∀ fields : List (String × Json), (readFields fields).Restore
  | [] => by simp [Fields.Restore, readFields]
  | (_, j) :: rest => by
    simp only [Fields.Restore, readFields, List.forall_mem_cons]
    exact ⟨ofJson_restores j, readFields_restore rest⟩

end

/-! ## Keys that nothing is read at -/

/-- What the JSON under a key is read as. -/
inductive Role where
  | node | nodes | token
  /-- As it is. -/
  | plain

/-- The keys at which a node of a type is read. -/
def roles : Json → List (String × Role)
  | .str "Literal" => [("value", .plain)]
  | .str "Grouping" => [("expression", .node)]
  | .str "Unary" => [("operator", .token), ("right", .node)]
  | .str "Binary" => [("left", .node), ("operator", .token), ("right", .node)]
  | .str "Logical" => [("left", .node), ("operator", .token), ("right", .node)]
  | .str "Variable" => [("name", .token)]
  | .str "Assign" => [("name", .token), ("value", .node)]
  | .str "Call" => [("callee", .node), ("paren", .token), ("arguments", .nodes)]
  | .str "Expression" => [("expression", .node)]
  | .str "Print" => [("expression", .node)]
  | .str "Var" => [("name", .token), ("initializer", .node)]
  | .str "Block" => [("statements", .nodes)]
  | .str "If" => [("condition", .node), ("then_branch", .node), ("else_branch", .node)]
  | .str "While" => [("condition", .node), ("body", .node)]
  | _ => []

/-- The keys at which an object of a role is read. -/
def Role.keys (fields : List (String × Json)) : Role → List (String × Role)
  | .node => ("type", .plain) :: roles ((Keyed.get? fields "type").getD .null)
  | .token => [("kind", .plain), ("lexeme", .plain), ("literal", .plain), ("line", .plain)]
  | .nodes | .plain => []

/-- An object of the role is a node or a token. -/
def Role.IsObject (p : Role) : Prop := p = .node ∨ p = .token

/-- `Grows p j k`: in the role `p`, the JSON `k` is `j` with one key more in some node or
token of it, at which that is not read, or with something else under such a key. What stands as it
is does not grow: a literal or a lexeme is no node, whatever it looks like. -/
inductive Grows : Role → Json → Json → Prop
  | key {p : Role} (before after : List (String × Json)) {key : String} {value : Json} :
      p.IsObject → key ∉ Keyed.names (p.keys (before ++ after)) →
      Grows p (.obj (before ++ after)) (.obj (before ++ (key, value) :: after))
  | aside {p : Role} (before after : List (String × Json)) {key : String} {a b : Json} :
      p.IsObject → key ∉ Keyed.names (p.keys (before ++ (key, a) :: after)) →
      Grows p (.obj (before ++ (key, a) :: after)) (.obj (before ++ (key, b) :: after))
  | part {p q : Role} (before after : List (String × Json)) {key : String} {a b : Json} :
      p.IsObject → Keyed.get? (p.keys (before ++ (key, a) :: after)) key = some q → Grows q a b →
      Grows p (.obj (before ++ (key, a) :: after)) (.obj (before ++ (key, b) :: after))
  | item {p : Role} (before after : List Json) {a b : Json} :
      p = .node ∨ p = .nodes → Grows .node a b →
      Grows p (.arr (before ++ a :: after)) (.arr (before ++ b :: after))

/-- The two are read alike in the role. -/
def Role.Agree : Role → Json → Json → Prop
  | .node, a, b => ofJson a = ofJson b
  | .nodes, a, b => listOf a (ofJson a) = listOf b (ofJson b)
  | .token, a, b => tokenOfJson a = tokenOfJson b
  | .plain, a, b => a = b

/-- Every value agrees with itself. -/
theorem Role.Agree.refl (p : Role) (j : Json) : p.Agree j j := by
  cases p <;> rfl

section Lookups

variable {fields fields' : List (String × Json)} {key : String} {p q : Role}

/-- The field under a key is the value under it, read. -/
theorem get?_readFields : ∀ fields : List (String × Json),
    Keyed.get? (readFields fields) key = (Keyed.get? fields key).map fun j => (j, ofJson j)
  | [] => rfl
  | (k, j) :: rest => by
    by_cases h : k = key
    · subst h
      rw [readFields, get?_head, get?_head, Option.map_some]
    · rw [readFields, get?_tail h, get?_tail h, get?_readFields rest]

/-- A key for the role gives the same in both objects. -/
def Role.ReadAlike (fields fields' : List (String × Json)) (key : String) : Role → Prop
  | .node => (readFields fields).node key = (readFields fields').node key ∧
      (readFields fields).optional key = (readFields fields').optional key
  | .nodes => (readFields fields).nodes key = (readFields fields').nodes key
  | .token => (readFields fields).token key = (readFields fields').token key
  | .plain => Keyed.get? fields key = Keyed.get? fields' key

/-- Values that agree under a key are read alike there. -/
theorem readAlike_of_rel
    (h : Option.Rel q.Agree (Keyed.get? fields key) (Keyed.get? fields' key)) :
    q.ReadAlike fields fields' key := by
  cases ha : Keyed.get? fields key with
  | none =>
    cases hb : Keyed.get? fields' key with
    | none =>
      cases q <;> simp [Role.ReadAlike, Fields.node, Fields.optional, Fields.nodes, Fields.token,
        field, get?_readFields, ha, hb]
    | some b =>
      rw [ha, hb] at h
      cases h
  | some a =>
    cases hb : Keyed.get? fields' key with
    | none =>
      rw [ha, hb] at h
      cases h
    | some b =>
      rw [ha, hb] at h
      cases h with
      -- under the key there is a value on both sides, and the role says how it is read
      | some hab =>
        cases q with
        | plain => exact ha.trans ((congrArg some hab).trans hb.symm)
        | _ =>
          simpa [Role.ReadAlike, Fields.node, Fields.optional, Fields.nodes, Fields.token, field,
            get?_readFields, ha, hb, bind, Except.bind, Role.Agree] using hab

/-- A node is read at the keys of its type alone. -/
theorem ofFields_congr
    (h : ∀ key q, Keyed.get? (Role.node.keys fields) key = some q →
      q.ReadAlike fields fields' key) :
    ofFields (readFields fields) = ofFields (readFields fields') := by
  have htype : Keyed.get? fields "type" = Keyed.get? fields' "type" := h "type" .plain rfl
  simp only [ofFields, get?_readFields, Option.map_map, Function.comp_def, Option.map_id', ← htype]
  simp only [Role.keys] at h
  generalize (Keyed.get? fields "type").getD .null = type at h ⊢
  -- what is read under a key depends on its role
  have hnode := fun key hkey => (h key .node hkey).1
  have hoptional := fun key hkey => (h key .node hkey).2
  have hnodes : ∀ key, _ → _ = _ := fun key hkey => h key .nodes hkey
  have htoken : ∀ key, _ → _ = _ := fun key hkey => h key .token hkey
  have hplain : ∀ key, _ → _ = _ := fun key hkey => h key .plain hkey
  split
  · rw [hplain "value" rfl]
  · rw [hnode "expression" rfl]
  · rw [htoken "operator" rfl, hnode "right" rfl]
  · rw [hnode "left" rfl, htoken "operator" rfl, hnode "right" rfl]
  · rw [hnode "left" rfl, htoken "operator" rfl, hnode "right" rfl]
  · rw [htoken "name" rfl]
  · rw [htoken "name" rfl, hnode "value" rfl]
  · rw [hnode "callee" rfl, htoken "paren" rfl, hnodes "arguments" rfl]
  · rw [hnode "expression" rfl]
  · rw [hnode "expression" rfl]
  · rw [htoken "name" rfl, hoptional "initializer" rfl]
  · rw [hnodes "statements" rfl]
  · rw [hnode "condition" rfl, hnode "then_branch" rfl, hoptional "else_branch" rfl]
  · rw [hnode "condition" rfl, hnode "body" rfl]
  · rfl

/-- An object is read at the keys of its role alone. -/
theorem agree_obj (hp : p.IsObject)
    (h : ∀ key q, Keyed.get? (p.keys fields) key = some q →
      Option.Rel q.Agree (Keyed.get? fields key) (Keyed.get? fields' key)) :
    p.Agree (.obj fields) (.obj fields') := by
  have halike := fun key q hq => readAlike_of_rel (h key q hq)
  obtain rfl | rfl := hp
  · exact ofFields_congr halike
  · have hplain : ∀ key, _ → _ = _ := fun key hkey => halike key .plain hkey
    simp only [Role.Agree, tokenOfJson, field, hplain "kind" rfl, hplain "lexeme" rfl,
      hplain "literal" rfl, hplain "line" rfl]

end Lookups

section Grows

variable {before after fields : List (String × Json)} {key l : String} {a b j k : Json}
  {p q : Role}

/-- Another key may be left out, ... -/
theorem get?_append (h : l ≠ key) :
    Keyed.get? (before ++ (l, a) :: after) key = Keyed.get? (before ++ after) key := by
  simp [Keyed.get?, List.find?_append, h]

/-- ... and its value may be changed. -/
theorem get?_change (h : l ≠ key) :
    Keyed.get? (before ++ (l, a) :: after) key = Keyed.get? (before ++ (l, b) :: after) key := by
  rw [get?_append h, get?_append h]

/-- What is under a key agrees with itself. -/
theorem rel_refl (q : Role) (o : Option Json) : Option.Rel q.Agree o o := by
  cases o with
  | none => exact .none
  | some j => exact .some (.refl q j)

/-- Two fields in the same place of two objects are found together. -/
theorem rel_change (h : q.Agree a b) :
    Option.Rel q.Agree (Keyed.get? (before ++ (key, a) :: after) key)
      (Keyed.get? (before ++ (key, b) :: after) key) := by
  simp only [Keyed.get?, List.find?_append]
  cases before.find? fun e => e.1 == key with
  | none => simpa using Option.Rel.some h
  | some e => exact rel_refl q _

/-- A key that is not read is none of those that are. -/
theorem ne_of_not_mem (h : key ∉ Keyed.names (p.keys fields))
    (hl : Keyed.get? (p.keys fields) l = some q) : key ≠ l := by
  rintro rfl
  simp only [Keyed.get?, Option.map_eq_some_iff] at hl
  obtain ⟨e, he, -⟩ := hl
  exact h (List.mem_map.mpr ⟨e, List.mem_of_find?_eq_some he, by simpa using List.find?_some he⟩)

/-- An item may be replaced by one that is decoded alike. -/
theorem ofJsons_congr (h : ofJson a = ofJson b) (after : List Json) :
    ∀ before : List Json, ofJsons (before ++ a :: after) = ofJsons (before ++ b :: after)
  | [] => by simp only [List.nil_append, ofJsons, h]
  | _ :: before => by simp only [List.cons_append, ofJsons, ofJsons_congr h after before]

/-- What nothing is read at makes no difference. -/
theorem Grows.agree (h : Grows p j k) : p.Agree j k := by
  -- a key that is not read, a value that is not read, or growth further inside
  induction h with
  | key _ _ hp hkey =>
    refine agree_obj hp fun l q hl => ?_
    rw [get?_append (ne_of_not_mem hkey hl)]
    exact rel_refl q _
  | aside _ _ hp hkey =>
    refine agree_obj hp fun l q hl => ?_
    rw [get?_change (ne_of_not_mem hkey hl)]
    exact rel_refl q _
  | @part _ q _ _ key _ _ hp hq _ ih =>
    refine agree_obj hp fun l q' hl => ?_
    by_cases hkl : key = l
    · subst hkl
      cases hq.symm.trans hl
      exact rel_change ih
    · rw [get?_change hkl]
      exact rel_refl q' _
  | item before after hp _ ih =>
    have hitems := ofJsons_congr ih after before
    obtain rfl | rfl := hp
    · simp only [Role.Agree, ofJson, hitems]
    · simp only [Role.Agree, listOf, ofJson, hitems]

end Grows

/-! ## Decoding -/

/-- The strict form of what is read. -/
def reencode (j : Json) : Except ReadError Json := toJson <$> ofJson j

/-- **Decoding is stable.** Whatever JSON a tree is read from, the tree is written in a form that it
is read from again; so to read and write twice is to do it once; and with more keys in its nodes
and tokens, at which these are not read, the JSON gives the same tree. -/
theorem decoding_stable {j : Json} {n : Node} (h : ofJson j = .ok n) :
    ofJson (toJson n) = .ok n ∧ (∃ k, reencode j = .ok k ∧ reencode k = .ok k) ∧
      ∀ k, Relation.ReflTransGen (Grows .node) j k → ofJson k = .ok n := by
  have hback : ofJson (toJson n) = .ok n := ofJson_toJson n (ofJson_restores j n h)
  refine ⟨hback, ⟨toJson n, ?_, ?_⟩, fun k hk => ?_⟩
  · rw [reencode, h]
    rfl
  · rw [reencode, hback]
    rfl
  · induction hk with
    | refl => exact h
    | tail _ hgrows ih => exact hgrows.agree.symm.trans ih

/-- A list for a condition, a call without arguments under a token that is no token of any text,
and no `else`; then with a key more in the token and another in the whole. -/
theorem sloppy_branch_stable :
    let paren := [("line", .null), ("kind", .str "RIGHT_PAREN"), ("lexeme", .int 7)]
    let call (paren : List (String × Json)) : Json :=
      .obj [("type", .str "Call"), ("paren", .obj paren),
        ("callee", .obj [("type", .str "Literal"), ("value", .obj [])])]
    let branch (paren : List (String × Json)) : List (String × Json) :=
      [("type", .str "If"), ("condition", .arr [.null, .arr []]), ("then_branch", call paren)]
    let n : Node := .branch (.list [.absent, .list []])
      (.call (.literal (.data (.obj []))) ⟨.rightParen, .int 7, .nil, .null⟩ []) .absent
    ofJson (.obj (branch paren)) = .ok n ∧ ofJson (toJson n) = .ok n ∧
      ofJson (.obj (branch (("column", .int 3) :: paren) ++ [("right", .str "none")])) = .ok n := by
  intro paren call branch n
  have hread : ofJson (.obj (branch paren)) = .ok n := rfl
  obtain ⟨hback, -, hgrown⟩ := decoding_stable hread
  refine ⟨hread, hback, hgrown _ ?_⟩
  have hcolumn : Grows .token (.obj paren) (.obj (("column", .int 3) :: paren)) :=
    .key [] paren (.inr rfl) (by decide)
  have hcall : Grows .node (call paren) (call (("column", .int 3) :: paren)) :=
    .part [("type", .str "Call")] _ (.inl rfl) rfl hcolumn
  have hbranch : Grows .node (.obj (branch paren)) (.obj (branch (("column", .int 3) :: paren))) :=
    .part [("type", .str "If"), ("condition", .arr [.null, .arr []])] [] (.inl rfl) rfl hcall
  exact (Relation.ReflTransGen.single hbranch).tail (.key (branch _) [] (.inl rfl) (by decide))

end Node

end NovaLang
