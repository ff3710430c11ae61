import ExprTree.Node

/-! # The children of a node

All children in the order in which they are written, and the variables that a node declares.
Replacing the children replaces them in this list and leaves the variables alone. -/

namespace ExprTree

variable {α β ε : Type}

def Handler.children (h : Handler ε) : List ε := h.filter.toList ++ [h.body]

def Case.children (c : Case ε) : List ε := c.values ++ [c.body]

/-- The children of a node in the order in which they are written. -/
def Node.children : Node ε → List ε
  | .unary _ operand => [operand]
  | .binary _ left right => [left, right]
  | .conditional test ifTrue ifFalse => [test, ifTrue, ifFalse]
  | .block _ expressions => expressions
  | .loop body _ _ => [body]
  | .goto _ _ value => value.toList
  | .label _ value => value.toList
  | .tryCatch body handlers finallyBody faultBody =>
    body :: handlers.flatMap (·.children) ++ finallyBody.toList ++ faultBody.toList
  | .switch value cases fallback => value :: cases.flatMap (·.children) ++ fallback.toList
  | .new construct => construct.arguments
  | .newArray _ _ expressions => expressions
  | .listInit construct elements => construct.arguments ++ elements.flatMap (·.arguments)
  | .memberInit construct bindings => construct.arguments ++ bindings.map (·.value)
  | .invocation target arguments => target :: arguments
  | .methodCall object _ arguments => object.toList ++ arguments
  | .member object _ => object.toList
  | .index object _ arguments => object :: arguments
  | .typeTest _ operand _ => [operand]
  | .dynamic _ arguments => arguments
  | .lambda _ _ _ body => [body]
  | .extension _ operands => operands
  | .constant _ | .parameter _ | .runtimeVariables _ | .default _ => []

/-- The variables that a node declares or lists by name. -/
def Node.declared : Node ε → List String
  | .block names _ | .runtimeVariables names => names
  | .tryCatch _ handlers _ _ => handlers.flatMap (·.binder.toList)
  | .lambda _ _ parameters _ => parameters
  | _ => []

@[simp] theorem Node.children_map (f : α → β) (n : Node α) :
    (n.map f).children = n.children.map f := by
  cases n <;>
    simp [children, map, Function.comp_def, List.map_flatMap, List.flatMap_map, Handler.children,
      Handler.map, Case.children, Case.map, ElementInit.map, Binding.map, Construct.map,
      Option.toList_map]

@[simp] theorem Node.declared_map (f : α → β) (n : Node α) : (n.map f).declared = n.declared := by
  cases n <;> simp [declared, map, List.flatMap_map, Handler.map]

end ExprTree
