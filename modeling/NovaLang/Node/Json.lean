import NovaLang.Node

namespace NovaLang.Node

/-! # Trees as JSON

A node is an object whose `type` names its form; a token is an object of its
four parts. Reading is lenient where writing is strict: unknown keys are ignored,
a missing optional child is absent, null and lists may stand for nodes.
-/

/-- A token as a JSON object. -/
def tokenToJson (t : Token) : Json :=
  .obj [("kind", .str t.kind.name), ("lexeme", t.lexeme), ("literal", t.literal.toJson),
    ("line", t.line)]

/-- An object that stands for a node of a form. -/
def formToJson (f : Form) (fields : List (String × Json)) : Json :=
  .obj (("type", .str f.name) :: fields)

mutual

/-- A tree as JSON. -/
def toJson : Node → Json
  | .absent => .null
  | .list items => .arr (toJsons items)
  | .literal v => formToJson .literal [("value", v.toJson)]
  | .grouping e => formToJson .grouping [("expression", toJson e)]
  | .unary o e => formToJson .unary [("operator", tokenToJson o), ("right", toJson e)]
  | .binary a o b =>
    formToJson .binary [("left", toJson a), ("operator", tokenToJson o), ("right", toJson b)]
  | .logical a o b =>
    formToJson .logical [("left", toJson a), ("operator", tokenToJson o), ("right", toJson b)]
  | .reference n => formToJson .reference [("name", tokenToJson n)]
  | .assign n e => formToJson .assign [("name", tokenToJson n), ("value", toJson e)]
  | .call f p as =>
    formToJson .call
      [("callee", toJson f), ("paren", tokenToJson p), ("arguments", .arr (toJsons as))]
  | .expression e => formToJson .expression [("expression", toJson e)]
  | .print e => formToJson .print [("expression", toJson e)]
  | .var n e => formToJson .var [("name", tokenToJson n), ("initializer", toJson e)]
  | .block ss => formToJson .block [("statements", .arr (toJsons ss))]
  | .branch c t e =>
    formToJson .branch
      [("condition", toJson c), ("then_branch", toJson t), ("else_branch", toJson e)]
  | .loop c b => formToJson .loop [("condition", toJson c), ("body", toJson b)]

/-- Several trees as JSON. -/
def toJsons : List Node → List Json
  | [] => []
  | n :: ns => toJson n :: toJsons ns

end

/-- A program as JSON. -/
def programToJson (program : List Node) : Json :=
  .obj [("type", .str "Program"), ("body", .arr (toJsons program))]

/-- Why a JSON value is no tree. -/
inductive ReadError where
  /-- Neither null nor a list nor an object stands where a node belongs. -/
  | notNode (found : Json)
  /-- An object names no form of nodes. -/
  | unknownForm (found : Json)
  | missingKey (key : String)
  /-- A token's kind is not one of the kinds. -/
  | unknownKind (found : Json)
  /-- What stands for a token is no object, or its kind has parts. -/
  | notToken
  /-- What stands for a list of nodes is no list. -/
  | notList
  /-- The whole is an object, but not a program. -/
  | notProgram
  /-- The whole is no object. -/
  | notObject
  deriving DecidableEq, Repr

/-- The wording of a reading error, for those that have one. -/
def ReadError.message? : ReadError → Option String
  | .notNode found => some ("Invalid AST JSON fragment: " ++ found.inline)
  | .unknownForm found => some ("Unknown AST node type: " ++ found.plain)
  | .missingKey key => some key
  | .unknownKind found => some found.plain
  | .notProgram => some "AST JSON root must be a Program"
  | .notToken | .notList | .notObject => none

/-- The value of a key that has to be there. -/
def field {α : Type} (fields : List (String × α)) (key : String) : Except ReadError α :=
  match Keyed.get? fields key with
  | some value => .ok value
  | none => .error (.missingKey key)

/-- A kind of token from its name. -/
def kindOfJson (j : Json) : Except ReadError Kind :=
  match j with
  | .str name =>
    match Kind.ofName? name with
    | some kind => .ok kind
    | none => .error (.unknownKind j)
  | .arr _ | .obj _ => .error .notToken
  | _ => .error (.unknownKind j)

/-- A token from its parts; the literal may be missing. -/
def tokenOfJson (j : Json) : Except ReadError Token :=
  match j with
  | .obj fields => do
    let kind ← kindOfJson (← field fields "kind")
    let lexeme ← field fields "lexeme"
    let literal := Value.ofJson ((Keyed.get? fields "literal").getD .null)
    let line ← field fields "line"
    return ⟨kind, lexeme, literal, line⟩
  | _ => .error .notToken

/-- What each key of an object was read as: its plain JSON, and the node it stands for. -/
abbrev Fields := List (String × Json × Except ReadError Node)

/-- The node under a key that has to be there. -/
def Fields.node (fields : Fields) (key : String) : Except ReadError Node := do
  (← field fields key).2

/-- The node under a key, or none. -/
def Fields.optional (fields : Fields) (key : String) : Except ReadError Node :=
  match Keyed.get? fields key with
  | some (_, node) => node
  | none => .ok .absent

/-- The token under a key that has to be there. -/
def Fields.token (fields : Fields) (key : String) : Except ReadError Token := do
  tokenOfJson (← field fields key).1

/-- The nodes a text or an object would yield element by element: none, since a
text is no node. -/
def noNodes (elements : List String) : Except ReadError (List Node) :=
  match elements with
  | [] => .ok []
  | s :: _ => .error (.notNode (.str s))

/-- The nodes of a list: the reading of the whole list, if it is one. -/
def listOf (j : Json) (whole : Except ReadError Node) : Except ReadError (List Node) :=
  match j with
  | .arr _ => do
    match ← whole with
    | .list items => .ok items
    | _ => .error .notList
  | .str s => noNodes (s.toList.map (String.ofList [·]))
  | .obj fields => noNodes (fields.map (·.1))
  | _ => .error .notList

/-- The list of nodes under a key, empty when the key is missing. -/
def Fields.nodes (fields : Fields) (key : String) : Except ReadError (List Node) :=
  match Keyed.get? fields key with
  | some (j, whole) => listOf j whole
  | none => .ok []

/-- A node from the fields of its object. -/
def ofFields (fields : Fields) : Except ReadError Node := do
  let type := (Keyed.get? fields "type").map (·.1) |>.getD .null
  match type with
  | .str "Literal" =>
    return .literal (Value.ofJson (((Keyed.get? fields "value").map (·.1)).getD .null))
  | .str "Grouping" => return .grouping (← fields.node "expression")
  | .str "Unary" => return .unary (← fields.token "operator") (← fields.node "right")
  | .str "Binary" =>
    return .binary (← fields.node "left") (← fields.token "operator") (← fields.node "right")
  | .str "Logical" =>
    return .logical (← fields.node "left") (← fields.token "operator") (← fields.node "right")
  | .str "Variable" => return .reference (← fields.token "name")
  | .str "Assign" => return .assign (← fields.token "name") (← fields.node "value")
  | .str "Call" =>
    return .call (← fields.node "callee") (← fields.token "paren") (← fields.nodes "arguments")
  | .str "Expression" => return .expression (← fields.node "expression")
  | .str "Print" => return .print (← fields.node "expression")
  | .str "Var" => return .var (← fields.token "name") (← fields.optional "initializer")
  | .str "Block" => return .block (← fields.nodes "statements")
  | .str "If" =>
    return .branch (← fields.node "condition") (← fields.node "then_branch")
      (← fields.optional "else_branch")
  | .str "While" => return .loop (← fields.node "condition") (← fields.node "body")
  | type => .error (.unknownForm type)

mutual

/-- The tree a JSON value stands for. -/
def ofJson : Json → Except ReadError Node
  | .null => .ok .absent
  | .arr items => do return .list (← ofJsons items)
  | .obj fields => ofFields (readFields fields)
  | j => .error (.notNode j)

/-- The trees some JSON values stand for. -/
def ofJsons : List Json → Except ReadError (List Node)
  | [] => .ok []
  | j :: js => do return (← ofJson j) :: (← ofJsons js)

/-- Each field together with the node it would stand for. -/
def readFields : List (String × Json) → Fields
  | [] => []
  | (k, j) :: rest => (k, j, ofJson j) :: readFields rest

end

/-- The program a JSON value stands for. -/
def programOfJson (j : Json) : Except ReadError (List Node) :=
  match j with
  | .obj fields =>
    if Keyed.get? fields "type" = some (.str "Program") then
      match Keyed.get? fields "body" with
      | some body => listOf body (ofJson body)
      | none => .ok []
    else .error .notProgram
  | _ => .error .notObject

/-! ## Values have no tree form -/

/-- The name of a value's type in messages about what has no tree form. -/
def valueTypeName : Value → String
  | .nil => "NoneType"
  | .bool _ => "bool"
  | .number _ => "float"
  | .text _ => "str"
  | .native _ => "NativeFunction"
  | .int _ => "int"
  | .data (.arr _) => "list"
  | .data _ => "dict"

/-- The message about a value that has no tree form. -/
def noTreeForm (v : Value) : String :=
  "Unsupported node for serialization: " ++ valueTypeName v

end NovaLang.Node
