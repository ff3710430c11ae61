import ExprTree.Expr

/-! # Rules about constants and parameters

These rules look at a node and its children only. Each answers what replaces the node, or nothing
if it does not apply. -/

namespace ExprTree

/-- `!!x` is `x`. -/
def doubleNegation? : Expr → Option Expr
  | .not (.not inner) => some inner
  | _ => none

/-- The truth of an operator between two literals, where it is known. A comparison `!=` with null
stays: it asks for the presence of a value. A connective is decided by its left literal where that
suffices. -/
def BinaryOp.decide? (op : BinaryOp) (left right : Literal) : Option Bool :=
  match op with
  | .equality .equal => some (left.sameValue right)
  | .equality .notEqual =>
    if left.isNull || right.isNull then none else some (!left.sameValue right)
  | .logical op => do
    let decided ← left.bool?
    if decided = op.zero then return decided else right.bool?
  | _ => none

/-- Conditionals with a constant test, negations of constants, and operators between two literals
whose truth is known. -/
def constantFolding? : Expr → Option Expr
  | .conditional test ifTrue ifFalse =>
    test.bool?.map fun value => if value then ifTrue else ifFalse
  | .not operand => operand.bool?.map fun value => .bool !value
  | .binary op (.constant left) (.constant right) => (op.decide? left right).map .bool
  | _ => none

/-- A parameter equals itself. -/
def selfComparison? : Expr → Option Expr
  | .binary (.equality op) (.parameter left) (.parameter right) =>
    if left = right then some (.bool (op = .equal)) else none
  | _ => none

/-- A constant arm of a connective decides it or drops out. -/
def shortCircuit? : Expr → Option Expr
  | .logical op left right =>
    if left.isBool op.zero || right.isBool op.zero then some (.bool op.zero)
    else if left.isBool op.unit then some right
    else if right.isBool op.unit then some left
    else none
  | _ => none

end ExprTree
