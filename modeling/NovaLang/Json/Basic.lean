import NovaLang.Decimal.Text
import NovaLang.Keyed
import NovaLang.Text.Quoted

namespace NovaLang

/-! # JSON data

JSON as the tree files use it: whole numbers are kept apart from doubles, and an
object keeps the order of its keys.
-/

/-- A JSON value. -/
inductive Json where
  | null
  | bool (b : Bool)
  | int (n : Int)
  | float (x : Float)
  | str (s : String)
  | arr (items : List Json)
  | obj (fields : List (String × Json))
  deriving Repr, Inhabited

namespace Json

/-- The most digits that a whole number may have in a text. -/
def maxDigits : Nat := 4300

/-- Why a text is not read, or data not written. -/
inductive Error where
  /-- The text is not JSON. -/
  | malformed
  /-- A whole number has more digits than it may have in a text. Of a text that is read it is told
  how many there are. -/
  | tooManyDigits (count : Option Nat)
  deriving DecidableEq, Repr

mutual

/-- Equality of JSON values; doubles are compared bit by bit. -/
def same : Json → Json → Bool
  | .null, .null => true
  | .bool a, .bool b => a == b
  | .int a, .int b => a == b
  | .float a, .float b => decide (a = b)
  | .str a, .str b => a == b
  | .arr a, .arr b => sameItems a b
  | .obj a, .obj b => sameFields a b
  | _, _ => false

/-- Equality of lists of JSON values. -/
def sameItems : List Json → List Json → Bool
  | [], [] => true
  | a :: as, b :: bs => same a b && sameItems as bs
  | _, _ => false

/-- Equality of lists of fields. -/
def sameFields : List (String × Json) → List (String × Json) → Bool
  | [], [] => true
  | (k, a) :: as, (l, b) :: bs => k == l && same a b && sameFields as bs
  | _, _ => false

end

mutual

theorem same_iff : ∀ a b : Json, same a b = true ↔ a = b
  | .null, b => by cases b <;> simp [same]
  | .bool _, b => by cases b <;> simp [same]
  | .int _, b => by cases b <;> simp [same]
  | .float _, b => by cases b <;> simp [same]
  | .str _, b => by cases b <;> simp [same]
  | .arr xs, b => by
    cases b with
    | arr ys => simp [same, sameItems_iff xs ys]
    | _ => simp [same]
  | .obj xs, b => by
    cases b with
    | obj ys => simp [same, sameFields_iff xs ys]
    | _ => simp [same]

theorem sameItems_iff : ∀ as bs : List Json, sameItems as bs = true ↔ as = bs
  | [], bs => by cases bs <;> simp [sameItems]
  | a :: as, bs => by
    cases bs with
    | nil => simp [sameItems]
    | cons b bs => simp [sameItems, same_iff a b, sameItems_iff as bs]

theorem sameFields_iff : ∀ as bs : List (String × Json), sameFields as bs = true ↔ as = bs
  | [], bs => by cases bs <;> simp [sameFields]
  | (k, a) :: as, bs => by
    cases bs with
    | nil => simp [sameFields]
    | cons b bs => simp [sameFields, same_iff a b.2, sameFields_iff as bs, Prod.ext_iff]

end

instance : DecidableEq Json := fun a b => decidable_of_iff _ (same_iff a b)

/-- The data has no parts. -/
def isScalar : Json → Bool
  | .arr _ | .obj _ => false
  | _ => true

/-! ## Data as a program compares it -/

/-- The whole number a number equals; `false` counts as zero and `true` as one. -/
def whole? : Json → Option Int
  | .bool b => some (if b then 1 else 0)
  | .int n => some n
  | .float x => Decimal.whole? x
  | _ => none

mutual

/-- Equality as a program sees it: numbers are equal when their values are, an
undefined one to any undefined one, and objects when they have the same keys and
equal values under them, in any order. -/
def equal : Json → Json → Bool
  | .null, .null => true
  | .float a, .float b => a == b || (a.isNaN && b.isNaN)
  | .str a, .str b => a == b
  | .arr as, .arr bs => equalItems as bs
  | .obj as, .obj bs => as.length == bs.length && equalFields as bs
  | a, b =>
    match a.whole?, b.whole? with
    | some m, some n => m == n
    | _, _ => false

/-- The lists are equal element by element. -/
def equalItems : List Json → List Json → Bool
  | [], [] => true
  | a :: as, b :: bs => equal a b && equalItems as bs
  | _, _ => false

/-- Each field has an equal one among the others. -/
def equalFields : List (String × Json) → List (String × Json) → Bool
  | [], _ => true
  | (k, a) :: as, bs =>
    (match Keyed.get? bs k with
      | some b => equal a b
      | none => false) && equalFields as bs

end

/-! ## Data in messages -/

mutual

/-- JSON data as it is named in messages: on one line, texts quoted, and the
three constants capitalised. -/
def inline : Json → String
  | .null => "None"
  | .bool b => if b then "True" else "False"
  | .int n => toString n
  | .float x => Decimal.exact x
  | .str s => Text.quoted s
  | .arr items => "[" ++ ", ".intercalate (inlineItems items) ++ "]"
  | .obj fields => "\x7b" ++ ", ".intercalate (inlineFields fields) ++ "\x7d"

/-- Each element as it is named in messages. -/
def inlineItems : List Json → List String
  | [] => []
  | a :: as => inline a :: inlineItems as

/-- Each field as it is named in messages. -/
def inlineFields : List (String × Json) → List String
  | [] => []
  | (k, a) :: as => (Text.quoted k ++ ": " ++ inline a) :: inlineFields as

end

/-- JSON data as text: a string stands for itself, all else as in messages. -/
def plain : Json → String
  | .str s => s
  | j => inline j

end Json

end NovaLang
