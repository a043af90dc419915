import NovaLang.Eval.Interrupt

namespace NovaLang.Eval

/-! # Operators

What the unary and binary operators compute. An operator that the language does
not have can only come from a tree that was read from a file.
-/

/-- A run-time error at a token. -/
def failAt (t : Token) (cause : RuntimeCause) : Except Interrupt Value :=
  .error (.runtime ⟨t, cause⟩)

/-- The value of a unary operation. -/
def unary (operator : Token) (v : Value) : Except Interrupt Value :=
  match operator.kind with
  | .bang => .ok (.bool !v.isTruthy)
  | .minus =>
    match v with
    | .number x => .ok (.number (-x))
    | _ => failAt operator .operandNotNumber
  | _ => .error (.fault (.unsupportedUnary operator.text))

/-- The value of a binary operation on numbers. -/
def arithmetic (operator : Token) (x y : Float) : Except Interrupt Value :=
  match operator.kind with
  | .minus => .ok (.number (x - y))
  | .star => .ok (.number (x * y))
  | .slash => .ok (.number (Value.divide x y))
  | .greater => .ok (.bool (x > y))
  | .greaterEqual => .ok (.bool (x ≥ y))
  | .less => .ok (.bool (x < y))
  | .lessEqual => .ok (.bool (x ≤ y))
  | _ => .error (.fault (.unsupportedBinary operator.text))

/-- The value of a binary operation: `+` joins two numbers or two texts, equality
takes any values, everything else two numbers. -/
def binary (operator : Token) (left right : Value) : Except Interrupt Value :=
  match operator.kind with
  | .plus =>
    match left, right with
    | .number x, .number y => .ok (.number (x + y))
    | .text s, .text t => .ok (.text (s ++ t))
    | _, _ => failAt operator .operandsNotAddable
  | .bangEqual => .ok (.bool !left.equal right)
  | .equalEqual => .ok (.bool (left.equal right))
  | _ =>
    match left, right with
    | .number x, .number y => arithmetic operator x y
    | _, _ => failAt operator .operandsNotNumbers

end NovaLang.Eval
