import NovaLang.Json.Basic

namespace NovaLang

/-! # Run-time values

The values a program computes with: nil, booleans, doubles, texts and native
functions. A tree read from JSON may also hold whole numbers and lists or
objects as literals, and a function of the host may return them; these are values
too, but no operator takes them.
-/

/-- The native functions. `clock` is always there, those after it are an optional library,
and the host of a program may define more. -/
inductive Native where
  /-- The time in seconds. -/
  | clock
  /-- The argument itself. -/
  | identity
  /-- The name of the argument's type. -/
  | typeName
  /-- The display text of the argument. -/
  | display
  /-- Prints the argument and returns it. -/
  | emit
  /-- The second of two arguments. -/
  | second
  /-- The third of three arguments. -/
  | third
  /-- A function of the host, which the host tells from its others by a key. -/
  | host (key : Nat) (name : String) (arity : Nat)
  deriving DecidableEq, Repr, Inhabited

namespace Native

/-- The name a native function is defined under. -/
def name : Native → String
  | .clock => "clock"
  | .identity => "id"
  | .typeName => "typeof"
  | .display => "str"
  | .emit => "emit"
  | .second => "second"
  | .third => "third"
  | .host _ name _ => name

/-- The number of arguments a native function takes. -/
def arity : Native → Nat
  | .clock => 0
  | .identity | .typeName | .display | .emit => 1
  | .second => 2
  | .third => 3
  | .host _ _ arity => arity

/-- The functions every program starts with. -/
def standard : List Native := [.clock]

/-- The functions of the optional library. -/
def library : List Native := [.identity, .typeName, .display, .emit, .second, .third]

/-- The native function of a name. -/
def ofName? (name : String) : Option Native :=
  (standard ++ library).find? fun f => f.name == name

/-- The text that stands for a native function. -/
def text (f : Native) : String := "<native fn " ++ f.name ++ ">"

end Native

/-- A value. -/
inductive Value where
  | nil
  | bool (b : Bool)
  | number (x : Float)
  | text (s : String)
  | native (f : Native)
  /-- A whole number from JSON. -/
  | int (n : Int)
  /-- A list or an object from JSON. -/
  | data (j : Json)
  deriving DecidableEq, Repr, Inhabited

namespace Value

/-- The value of a JSON literal. -/
def ofJson : Json → Value
  | .null => .nil
  | .bool b => .bool b
  | .float x => .number x
  | .str s => .text s
  | .int n => .int n
  | j => .data j

/-- A value as a JSON literal; a native function is represented by its text. -/
def toJson : Value → Json
  | .nil => .null
  | .bool b => .bool b
  | .number x => .float x
  | .text s => .str s
  | .native f => .str f.text
  | .int n => .int n
  | .data j => j

/-- The value is a double. -/
def isNumber : Value → Bool
  | .number _ => true
  | _ => false

/-- Only nil and `false` are not truthy. -/
def isTruthy : Value → Bool
  | .nil => false
  | .bool b => b
  | _ => true

/-- Equality as a program sees it: values of different kinds are never equal,
and doubles are equal as IEEE 754 has it. -/
def equal : Value → Value → Bool
  | .nil, .nil => true
  | .bool a, .bool b => a == b
  | .number a, .number b => a == b
  | .text a, .text b => a == b
  | .native a, .native b => a == b
  | .int a, .int b => a == b
  | .data a, .data b => a.equal b
  | _, _ => false

/-- Division as IEEE 754 has it: a zero divisor gives an infinity, or no number. -/
def divide (x y : Float) : Float := x / y

/-- The name of a value's type. -/
def typeName : Value → String
  | .nil => "nil"
  | .bool _ => "boolean"
  | .number _ => "number"
  | .text _ => "string"
  | .native _ | .int _ | .data _ => "callable"

/-- The text a program prints for a value. -/
def display : Value → String
  | .nil => "nil"
  | .bool b => if b then "true" else "false"
  | .number x => Decimal.display x
  | .text s => s
  | .native f => f.text
  | .int n => toString n
  | .data j => j.inline

/-- The text of a literal in a token listing. -/
def listing : Value → String
  | .nil => "nil"
  | .bool b => if b then "True" else "False"
  | .number x => Decimal.exact x
  | v => v.display

end Value

end NovaLang
