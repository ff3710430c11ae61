import ExprTree.Transformer

/-! # Transformers that lower one category to others -/

namespace ExprTree.Transformer

/-- `l != r` becomes `!(l == r)`. -/
def expandNotEqual : Transformer := .ofFun fun
  | .notEqual left right => some (.not (.equal left right))
  | _ => none

/-- `!!e` becomes `e`. -/
def unwrapDoubleNegation : Transformer := .ofFun fun
  | .not (.not inner) => some inner
  | _ => none

/-- The negation of an integer constant becomes the negated constant; it wraps around. -/
def foldNegation : Transformer := .ofFun fun
  | .negate (.constant (.int n)) => some (.constant (.int (-n)))
  | _ => none

/-- An object construction becomes the name of its type. -/
def eraseConstructions : Transformer := .ofFun fun
  | .new construct => some (.constant (.string construct.type))
  | _ => none

/-- An extension becomes an operation bound at run time, of its name and with its operands. -/
def lowerExtensions : Transformer := .ofFun fun
  | .extension name operands => some (.node (.dynamic name operands))
  | _ => none

/-- `t ? a : b` becomes the simplified form of `(t && a) || (!t && b)`. -/
def expandConditionals : Transformer where
  rule
    | .conditional test ifTrue ifFalse =>
      return some (← Query.ask (.or (.and test ifTrue) (.and (.not test) ifFalse)))
    | _ => return none

/-- `t ? a : b` becomes `a` where `a` and `b` are equivalent. -/
def mergeConditionals : Transformer where
  rule
    | .conditional _ ifTrue ifFalse => do
      if ← Query.equivalent ifTrue ifFalse then return some ifTrue else return none
    | _ => return none

end ExprTree.Transformer
