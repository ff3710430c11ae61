import ExprTree.Node

/-! # Why an evaluation fails -/

namespace ExprTree

inductive Operation where
  | unary (op : UnaryOp)
  | binary (op : BinaryOp)
  | conditional
  deriving DecidableEq

def Operation.symbol : Operation → String
  | .unary op => op.symbol
  | .binary op => op.symbol
  | .conditional => "?:"

inductive Expectation where
  | bool | int | number | comparable | intOrBool
  deriving DecidableEq

def Expectation.name : Expectation → String
  | .bool => "bool"
  | .int => "int"
  | .number => "number"
  | .comparable => "comparable values"
  | .intOrBool => "int or bool"

inductive EvalError where
  | unbound (name : String)
  | mismatch (operation : Operation) (expected : Expectation) (found : Kind)
  | divisionByZero
  | unsupportedUnary (op : UnaryOp)
  | unsupportedBinary (op : BinaryOp)
  | unsupportedNode (category : Category)
  deriving DecidableEq

def EvalError.message : EvalError → String
  | .unbound name => "unbound parameter: " ++ name
  | .mismatch operation expected found =>
    "type error in `" ++ operation.symbol ++ "`: expected " ++ expected.name ++
      ", got " ++ found.name
  | .divisionByZero => "division by zero"
  | .unsupportedUnary op => "cannot evaluate unary " ++ op.name
  | .unsupportedBinary op => "cannot evaluate binary `" ++ op.symbol ++ "`"
  | .unsupportedNode category => "cannot evaluate " ++ category.name ++ " node"

end ExprTree
