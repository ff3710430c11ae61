import ExprTree.Expr.Size
import ExprTree.Node.Rebuild
import ExprTree.Registry
import ExprTree.Run
import ExprTree.Transformer

/-! # The simplifier

One pass rebuilds a tree from the leaves up: a node is lowered if it is an extension with a
reducer, then its children are simplified, then the transformers are applied to it in turn. The
rules may ask the simplifier in their turn, so a pass is given a depth it may not exceed; the depth
allowed for a tree grows with its size and is out of reach of rules that only ask about smaller
trees. -/

namespace ExprTree

/-- Transformers in order of application, and the reducers of extensions. -/
structure Simplifier where
  transformers : List Transformer
  registry : Registry := {}

namespace Simplifier

def names (s : Simplifier) : List String := s.transformers.map (·.name)

/-- The transformers applied in turn to one node. -/
def transform (s : Simplifier) (e : Expr) : Query Expr := do
  return (← Query.inTurn (s.transformers.map (·.step)) e).getD e

/-- Simplifies what stands in each kind of position; a declared variable and the construction
below an initialiser are simplified as nodes and have to keep their category. -/
def visitor (simplify : Expr → Run Expr) : Visitor Run Expr where
  expression := simplify
  parameter name := do
    Run.expect .parameter Expr.parameter? (← simplify (.parameter name))
  construct c := do
    Run.expect .new Expr.construct? (← simplify (.new c))

/-- A pass that is nested at most `depth` deep. -/
def simplifyWithin (s : Simplifier) : Nat → Expr → Run Expr
  | 0, _ => throw .tooDeep
  | depth + 1, e => do
    let lowered ← liftM (s.registry.reduce e)
    let root ← lowered.root.rebuild (visitor (s.simplifyWithin depth))
    (s.transform (.node root)).run (s.simplifyWithin depth) Run.report

/-- The depth a pass over a tree may use. -/
def depthFor (e : Expr) : Nat := 2 * e.size + 10000

def simplify (s : Simplifier) (e : Expr) : Run Expr := s.simplifyWithin (depthFor e) e

/-- One pass over a node that has to stay fit for its position. -/
def simplifyAs (s : Simplifier) (slot : Slot) (e : Expr) : Run Expr := do
  let result ← s.simplify e
  if slot.admits result then return result else throw (.misplaced slot result)

/-- One pass over each tree, in order. -/
def simplifyAll (s : Simplifier) (es : List Expr) : Run (List Expr) := es.mapM s.simplify

/-- The question that a rule asks, put to the simplifier. -/
def answer {α : Type} (s : Simplifier) (question : Query α) : Run α :=
  question.run s.simplify Run.report

/-- Both expressions have the same text once simplified, the left one first. -/
def isEquivalent (s : Simplifier) (left right : Expr) : Run Bool :=
  s.answer (Query.equivalent left right)

end Simplifier

end ExprTree
