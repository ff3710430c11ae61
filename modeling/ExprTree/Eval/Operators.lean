import ExprTree.Eval.Error

/-! # Operators on values

Integers wrap around at 64 bits; a number meeting a float is taken as a float. -/

namespace ExprTree

def Operation.refuse {α : Type} (operation : Operation) (expected : Expectation)
    (found : Literal) : Except EvalError α :=
  .error (.mismatch operation expected found.kind)

/-- The truth value of an operand that has to be boolean. -/
def Operation.expectBool (operation : Operation) (operand : Literal) : Except EvalError Bool :=
  match operand with
  | .bool b => .ok b
  | other => operation.refuse .bool other

def UnaryOp.eval (op : UnaryOp) (operand : Literal) : Except EvalError Literal :=
  match op, operand with
  | .not, .bool b => .ok (.bool !b)
  | .not, other => (Operation.unary op).refuse .bool other
  | .negate, .int n => .ok (.int (-n))
  | .negate, .float x => .ok (.float (-x))
  | .negate, other => (Operation.unary op).refuse .number other
  | .plus, .int n => .ok (.int n)
  | .plus, .float x => .ok (.float x)
  | .plus, other => (Operation.unary op).refuse .number other
  | .complement, .int n => .ok (.int (~~~n))
  | .complement, other => (Operation.unary op).refuse .int other
  | _, _ => .error (.unsupportedUnary op)

/-- Two numbers of which at least one is a float, both as floats. -/
def floats? : Literal → Literal → Option (Float × Float)
  | .float a, .float b => some (a, b)
  | .int a, .float b => some (a.toFloat, b)
  | .float a, .int b => some (a, b.toFloat)
  | _, _ => none

/-- The remainder of a division that truncates, with the sign of the dividend. It is exact. -/
def floatRemainder (x y : Float) : Float :=
  match Binary64.ofFloat x, Binary64.ofFloat y with
  | .finite negative a, .finite _ b =>
    if b.mantissa = 0 then 0.0 / 0.0
    else
      let r := (a.remainder b).toFloat
      if negative then -r else r
  | .finite _ _, .infinite _ => x
  | _, _ => 0.0 / 0.0

def Arithmetic.onInts (op : Arithmetic) (a b : Int64) : Except EvalError Literal :=
  match op with
  | .add => .ok (.int (a + b))
  | .sub => .ok (.int (a - b))
  | .mul => .ok (.int (a * b))
  | .div => if b = 0 then .error .divisionByZero else .ok (.int (a / b))
  | .mod => if b = 0 then .error .divisionByZero else .ok (.int (a % b))
  | .power => .ok (.float (a.toFloat.pow b.toFloat))

def Arithmetic.onFloats (op : Arithmetic) (a b : Float) : Float :=
  match op with
  | .add => a + b
  | .sub => a - b
  | .mul => a * b
  | .div => a / b
  | .mod => floatRemainder a b
  | .power => a.pow b

/-- An arithmetic operator on two values. A mismatch is laid to the right operand when the left
one is a number. -/
def Arithmetic.eval (op : Arithmetic) (left right : Literal) : Except EvalError Literal :=
  match op, left, right with
  | _, .int a, .int b => op.onInts a b
  | .add, .string a, .string b => .ok (.string (a ++ b))
  | _, _, _ =>
    match floats? left right with
    | some (a, b) => .ok (.float (op.onFloats a b))
    | none =>
      let bad := match left with
        | .int _ | .float _ => right
        | _ => left
      (Operation.binary (.arithmetic op)).refuse .number bad

def Bitwise.onInts (op : Bitwise) (a b : Int64) : Int64 :=
  match op with
  | .and => a &&& b
  | .or => a ||| b
  | .xor => a ^^^ b

def Bitwise.onBools (op : Bitwise) (a b : Bool) : Bool :=
  match op with
  | .and => a && b
  | .or => a || b
  | .xor => a ^^ b

/-- A bitwise operator on two values. A mismatch is laid to the right operand when the left one is
an integer or a boolean. -/
def Bitwise.eval (op : Bitwise) (left right : Literal) : Except EvalError Literal :=
  match left, right with
  | .int a, .int b => .ok (.int (op.onInts a b))
  | .bool a, .bool b => .ok (.bool (op.onBools a b))
  | .int _, other | .bool _, other | other, _ =>
    (Operation.binary (.bitwise op)).refuse .intOrBool other

/-- A shift by the lowest six bits of the right operand; to the right it keeps the sign. -/
def Shift.eval (direction : Shift) (left right : Literal) : Except EvalError Literal :=
  match left, right with
  | .int a, .int count =>
    .ok (.int (match direction with
      | .left => a <<< count
      | .right => a >>> count))
  | .int _, other | other, _ => (Operation.binary (.shift direction)).refuse .int other

def Equality.eval (op : Equality) (left right : Literal) : Bool :=
  match op with
  | .equal => left.sameValue right
  | .notEqual => !left.sameValue right

def Order.accepts (op : Order) (found : Ordering) : Bool :=
  match op with
  | .less => found.isLT
  | .lessEqual => found.isLE
  | .greater => found.isGT
  | .greaterEqual => found.isGE

/-- The order of two floats; a NaN has none. -/
def floatOrder? (a b : Float) : Option Ordering :=
  if a < b then some .lt
  else if a == b then some .eq
  else if b < a then some .gt
  else none

/-- The order of two integers, two strings (by code point) or two numbers; no order when a NaN is
among them. The outer `none` says that the values cannot be compared. -/
def Literal.order? (left right : Literal) : Option (Option Ordering) :=
  match left, right with
  | .int a, .int b => some (some (compareOfLessAndEq a b))
  | .string a, .string b => some (some (compareOfLessAndEq a b))
  | _, _ => (floats? left right).map fun (a, b) => floatOrder? a b

/-- A comparison by order. A mismatch is laid to the right operand when the left one could be
compared with something. -/
def Order.eval (op : Order) (left right : Literal) : Except EvalError Literal :=
  match left.order? right with
  | some found => .ok (.bool (found.any op.accepts))
  | none =>
    let bad := match left with
      | .int _ | .float _ | .string _ => right
      | _ => left
    (Operation.binary (.order op)).refuse .comparable bad

end ExprTree
