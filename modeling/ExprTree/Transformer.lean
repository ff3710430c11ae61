import ExprTree.Query

/-! # Transformers

What a pass applies at every node, once the children of the node are done. -/

namespace ExprTree

/-- A named rule. It answers `none` for a node it leaves alone. -/
structure Transformer where
  name : String := "anonymous"
  rule : Expr → Query (Option Expr)

namespace Transformer

/-- A transformer that asks nothing. -/
def ofFun (rule : Expr → Option Expr) : Transformer where
  rule e := .done (rule e)

def step (t : Transformer) : Expr → Query (Option Expr) := Query.named t.name t.rule

end Transformer

end ExprTree
