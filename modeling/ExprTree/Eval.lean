import ExprTree.Eval.Operators
import ExprTree.Expr

/-! # Evaluation

Constants, parameters, operators, conditionals and lambdas have values; nodes with control flow,
side effects or types of their own have none. -/

namespace ExprTree

abbrev Environment := String → Option Literal

namespace Expr

/-- The value of an expression. `&&`, `||`, `??` and conditionals leave the operands they skip
unevaluated; a lambda has the value of its body. -/
def eval (env : Environment) : Expr → Except EvalError Literal
  | constant value => .ok value
  | parameter name =>
    match env name with
    | some value => .ok value
    | none => .error (.unbound name)
  | unary op operand => do
    op.eval (← eval env operand)
  | logical op left right => do
    let decided ← (Operation.binary (.logical op)).expectBool (← eval env left)
    if decided = op.zero then
      return .bool decided
    else
      return .bool (← (Operation.binary (.logical op)).expectBool (← eval env right))
  | binary .coalesce left right => do
    let value ← eval env left
    if value.isNull then eval env right else return value
  | binary (.arithmetic op) left right => do
    op.eval (← eval env left) (← eval env right)
  | binary (.bitwise op) left right => do
    op.eval (← eval env left) (← eval env right)
  | binary (.shift direction) left right => do
    direction.eval (← eval env left) (← eval env right)
  | binary (.equality op) left right => do
    return .bool (op.eval (← eval env left) (← eval env right))
  | binary (.order op) left right => do
    op.eval (← eval env left) (← eval env right)
  | binary op left right => do
    let _ ← eval env left
    let _ ← eval env right
    .error (.unsupportedBinary op)
  | conditional test ifTrue ifFalse => do
    if ← Operation.conditional.expectBool (← eval env test) then eval env ifTrue
    else eval env ifFalse
  | lambda _ _ _ body => eval env body
  | node other => .error (.unsupportedNode other.category)
termination_by structural e => e

end Expr

end ExprTree
