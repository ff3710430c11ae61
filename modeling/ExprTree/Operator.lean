/-! # Operators

Unary and binary operators, grouped by family, with the symbols they are written with. -/

namespace ExprTree

inductive UnaryOp where
  | not | negate | plus | complement | increment | decrement
  | isTrue | isFalse | length | quote | throw
  deriving DecidableEq

inductive Connective where
  | and | or
  deriving DecidableEq

/-- Arithmetic on numbers; `add` also joins strings. -/
inductive Arithmetic where
  | add | sub | mul | div | mod | power
  deriving DecidableEq

/-- Bitwise operators, on integers and on booleans. -/
inductive Bitwise where
  | and | or | xor
  deriving DecidableEq

inductive Shift where
  | left | right
  deriving DecidableEq

inductive Equality where
  | equal | notEqual
  deriving DecidableEq

inductive Order where
  | less | lessEqual | greater | greaterEqual
  deriving DecidableEq

inductive BinaryOp where
  | arithmetic (op : Arithmetic)
  | bitwise (op : Bitwise)
  | shift (direction : Shift)
  | equality (op : Equality)
  | order (op : Order)
  | logical (op : Connective)
  | coalesce
  | arrayIndex
  | assign
  deriving DecidableEq

def UnaryOp.name : UnaryOp → String
  | .not => "Not"
  | .negate => "Negate"
  | .plus => "Plus"
  | .complement => "OnesComplement"
  | .increment => "Increment"
  | .decrement => "Decrement"
  | .isTrue => "IsTrue"
  | .isFalse => "IsFalse"
  | .length => "ArrayLength"
  | .quote => "Quote"
  | .throw => "Throw"

def UnaryOp.symbol : UnaryOp → String
  | .not => "!"
  | .negate => "-"
  | .plus => "+"
  | .complement => "~"
  | .increment => "increment"
  | .decrement => "decrement"
  | .isTrue => "is_true"
  | .isFalse => "is_false"
  | .length => "len"
  | .quote => "quote"
  | .throw => "throw"

/-- The operator is a sign in front of its operand; the others are written as functions. -/
def UnaryOp.isSign : UnaryOp → Bool
  | .not | .negate | .plus | .complement => true
  | _ => false

def UnaryOp.applied (op : UnaryOp) (operand : String) : String :=
  if op.isSign then op.symbol ++ operand else op.symbol ++ "(" ++ operand ++ ")"

namespace Connective

def dual : Connective → Connective
  | .and => .or
  | .or => .and

/-- The arm that decides: false for a conjunction, true for a disjunction. -/
def zero : Connective → Bool
  | .and => false
  | .or => true

/-- The arm that drops out. -/
def unit (c : Connective) : Bool := !c.zero

def symbol : Connective → String
  | .and => "&&"
  | .or => "||"

@[simp] theorem dual_dual (c : Connective) : c.dual.dual = c := by cases c <;> rfl

@[simp] theorem zero_dual (c : Connective) : c.dual.zero = !c.zero := by cases c <;> rfl

theorem eq_unit_iff {c : Connective} {b : Bool} : b = c.unit ↔ b ≠ c.zero := by
  cases c <;> cases b <;> decide

end Connective

def Arithmetic.symbol : Arithmetic → String
  | .add => "+"
  | .sub => "-"
  | .mul => "*"
  | .div => "/"
  | .mod => "%"
  | .power => "**"

def Bitwise.symbol : Bitwise → String
  | .and => "&"
  | .or => "|"
  | .xor => "^"

def Shift.symbol : Shift → String
  | .left => "<<"
  | .right => ">>"

def Equality.symbol : Equality → String
  | .equal => "=="
  | .notEqual => "!="

def Order.symbol : Order → String
  | .less => "<"
  | .lessEqual => "<="
  | .greater => ">"
  | .greaterEqual => ">="

namespace BinaryOp

def symbol : BinaryOp → String
  | .arithmetic op => op.symbol
  | .bitwise op => op.symbol
  | .shift direction => direction.symbol
  | .equality op => op.symbol
  | .order op => op.symbol
  | .logical op => op.symbol
  | .coalesce => "??"
  | .arrayIndex => "[]"
  | .assign => "="

/-- The operator may leave its right operand unevaluated because the left one decides. -/
def isShortCircuit : BinaryOp → Bool
  | .logical _ => true
  | _ => false

def isComparison : BinaryOp → Bool
  | .equality _ | .order _ => true
  | _ => false

end BinaryOp

end ExprTree
