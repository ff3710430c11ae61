import ExprTree.Transformer

/-! # Transformers of leaves

Transformers that look at a single constant or parameter. -/

namespace ExprTree.Transformer

/-- Renames a parameter. -/
def rename (source target : String) : Transformer := .ofFun fun
  | .parameter name => if name = source then some (.parameter target) else none
  | _ => none

/-- Exchanges two parameters. -/
def swap (a b : String) : Transformer := .ofFun fun
  | .parameter name =>
    if name = a then some (.parameter b)
    else if name = b then some (.parameter a)
    else none
  | _ => none

/-- Turns `true` into `false`. -/
def flipTrue : Transformer := .ofFun fun
  | .bool true => some (.bool false)
  | _ => none

/-- Turns every parameter `p` into `!p`. -/
def negateParameters : Transformer := .ofFun fun
  | .parameter name => some (.not (.parameter name))
  | _ => none

/-- Turns every parameter `p` into `p + 1`. -/
def incrementParameters : Transformer := .ofFun fun
  | .parameter name =>
    some (.binary (.arithmetic .add) (.parameter name) (.constant (.int 1)))
  | _ => none

/-- Turns every parameter into `true`. -/
def eraseParameters : Transformer := .ofFun fun
  | .parameter _ => some (.bool true)
  | _ => none

end ExprTree.Transformer
