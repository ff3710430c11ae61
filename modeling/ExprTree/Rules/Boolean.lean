import ExprTree.Rules.Arms
import ExprTree.Rules.Constant
import ExprTree.Rules.Group
import ExprTree.Simplifier

/-! # The boolean rules as a transformer -/

namespace ExprTree

def RuleGroup.rule : RuleGroup → Expr → Query (Option Expr)
  | .doubleNegation, e => return doubleNegation? e
  | .constantFolding, e => return constantFolding? e
  | .selfComparison, e => return selfComparison? e
  | .shortCircuit, e => return shortCircuit? e
  | .complement, e => collapseComplement e
  | .armElimination, e => eliminateArm e

namespace RuleSet

/-- The enabled groups, each applied once to what the group before it left. -/
def rule (r : RuleSet) : Expr → Query (Option Expr) :=
  Query.inTurn (r.groups.map fun g => Query.named g.name g.rule)

def transformer (r : RuleSet) : Transformer where
  name := "boolean"
  rule := r.rule

end RuleSet

/-- The simplifier with all boolean rules and no reducers. -/
def Simplifier.boolean : Simplifier where
  transformers := [RuleSet.full.transformer]

end ExprTree
