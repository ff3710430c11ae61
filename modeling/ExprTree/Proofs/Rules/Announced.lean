import ExprTree.Proofs.Messages
import ExprTree.Proofs.Rules.Alteration

/-!
# Every rewriting is reported

The rules report nothing themselves; it is their group that reports a change of the text. As every
rewriting changes the text of its node, none goes unreported, and a pass over a tree that it does
not change is silent, the comparisons of arms included.
-/

namespace ExprTree

open ExprTree.Expr Query

section Rules

variable {answer : Expr → Expr}

private theorem messages_negates (a b : Expr) : (negates a b).messages answer = [] := by
  unfold negates
  split <;> rfl

private theorem messages_complementary (a b : Expr) :
    (complementary a b).messages answer = [] :=
  messages_or_eq_nil (messages_negates a b) (messages_negates b a)

private theorem messages_absorbs (op : Connective) (arm other : Expr) :
    (absorbs op arm other).messages answer = [] := by
  unfold absorbs
  split
  · exact messages_or_eq_nil (messages_equivalent _ _) (messages_equivalent _ _)
  · rfl

private theorem messages_resolvent (l r : Expr) : (resolvent l r).messages answer = [] := by
  unfold resolvent
  split
  · refine messages_bind_eq_nil (messages_findM_eq_nil ?_ _) fun _ => rfl
    exact fun _ => messages_and_eq_nil (messages_equivalent _ _) (messages_complementary _ _)
  · rfl

private theorem messages_collapseComplement (e : Expr) :
    (collapseComplement e).messages answer = [] := by
  unfold collapseComplement
  split
  · exact messages_bind_bool_eq_nil (messages_complementary _ _) rfl rfl
  · rfl

private theorem messages_eliminateArm (e : Expr) : (eliminateArm e).messages answer = [] := by
  unfold eliminateArm
  split
  · -- equivalent arms, the right arm absorbed, the left arm absorbed, a shared side
    refine messages_bind_bool_eq_nil (messages_equivalent _ _) rfl ?_
    refine messages_bind_bool_eq_nil (messages_absorbs _ _ _) rfl ?_
    refine messages_bind_bool_eq_nil (messages_absorbs _ _ _) rfl ?_
    simp only [Bool.false_eq_true, ↓reduceIte]
    split
    · exact messages_resolvent _ _
    · rfl
  · rfl

theorem RuleGroup.messages_rule (g : RuleGroup) (e : Expr) : (g.rule e).messages answer = [] := by
  cases g with
  | doubleNegation | constantFolding | selfComparison | shortCircuit => rfl
  | complement => exact messages_collapseComplement e
  | armElimination => exact messages_eliminateArm e

end Rules

theorem RuleGroup.announces (g : RuleGroup) : Announces (named g.name g.rule) := by
  apply Announces.named_of_text_ne fun _ e => g.messages_rule e
  intro answer e r hr
  have halters : Alters e r := .inl (rewrites_of_value hr).openers_lt
  exact halters.text_ne.symm

theorem RuleSet.announces (r : RuleSet) : Announces r.rule :=
  Announces.inTurn_named fun g _ => g.announces

/-- A pass of boolean rules reports nothing at all, neither itself nor in the passes that compare
arms, exactly when it leaves the tree as it is. -/
theorem Simplifier.simplify_silent_iff (rs : List RuleSet) (e : Expr) :
    ((ofRules rs).simplify e).log = [] ↔ ((ofRules rs).simplify e).outcome = .ok e := by
  have h := collapsing_ofRules rs
  have hannounces : ∀ t ∈ (ofRules rs).transformers, Announces t.rule :=
    List.forall_mem_map.mpr fun r _ => r.announces
  rw [h.outcome_simplify, simplify,
    h.log_simplifyWithin_eq_nil_iff hannounces (size_le_depthFor e), Except.ok.injEq, Stable]

end ExprTree
