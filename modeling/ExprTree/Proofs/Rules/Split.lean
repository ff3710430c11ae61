import ExprTree.Proofs.Rules.Pipeline

/-!
# Rule sets and single groups

At a node, a rule set does what its groups do one after the other, so a pipeline of rule sets
applies the same groups as the pipeline that has a rule set of its own for each of them. What the
groups ask is put to either pipeline, but about smaller trees, on which both agree already.
-/

namespace ExprTree

open ExprTree.Expr

/-- One rule set for each enabled group, in order of application. -/
def RuleSet.split (r : RuleSet) : List RuleSet := r.groups.map .singleton

theorem RuleSet.groups_singleton (g : RuleGroup) : (RuleSet.singleton g).groups = [g] := by
  cases g <;> rfl

theorem RuleSet.flatMap_groups_split (r : RuleSet) : r.split.flatMap groups = r.groups := by
  rw [split, List.flatMap_map]
  simp only [groups_singleton, List.flatMap_singleton']

namespace Simplifier

/-- Pipelines with the same groups in the same order leave the same tree. -/
theorem result_eq_of_groups_eq {rs rs' : List RuleSet}
    (h : rs.flatMap RuleSet.groups = rs'.flatMap RuleSet.groups) (e : Expr) :
    (ofRules rs).result e = (ofRules rs').result e := by
  have hc := collapsing_ofRules rs
  have hc' := collapsing_ofRules rs'
  induction hk : e.size using Nat.strongRecOn generalizing e with
  | ind k ih =>
    obtain ⟨n⟩ := e
    have hsmaller (d : Expr) (hd : d.size < (node n).size) :
        (ofRules rs).result d = (ofRules rs').result d := ih _ (by omega) d rfl
    have hchildren : n.mapReached (ofRules rs).result = n.mapReached (ofRules rs').result :=
      Node.mapReached_congr fun c hc => hsmaller c (size_lt_of_mem_reached hc)
    rw [hc.result_node, hc'.result_node, hchildren, value_transform_ofRules rs', ← h,
      ← value_transform_ofRules rs]
    apply Query.Asks.value_congr
    rw [asks_transform]
    apply (hc.rule.asks _ _).mono
    intro x hx
    have hrebuilt : (node (n.mapReached (ofRules rs').result)).size ≤ (node n).size :=
      size_mapReached_le fun c _ => hc'.size_result_le c
    have := hx.size_lt
    exact hsmaller x (by omega)

/-- A pipeline of rule sets simplifies as the pipeline of their single groups. So all rules at once
are the six groups as six transformers, and the empty rule set is no transformer at all. -/
theorem simplify_split (rs : List RuleSet) (e : Expr) :
    (∃ r, ((ofRules rs).simplify e).outcome = .ok r ∧
      ((ofRules (rs.flatMap RuleSet.split)).simplify e).outcome = .ok r) ∧
    (Simplifier.boolean.simplify e).outcome =
      ((ofRules (RuleGroup.all.map RuleSet.singleton)).simplify e).outcome ∧
    ((ofRules [.empty]).simplify e).outcome = ((ofRules []).simplify e).outcome := by
  have hsame {rs rs' : List RuleSet} (h : rs.flatMap RuleSet.groups = rs'.flatMap RuleSet.groups) :
      ((ofRules rs).simplify e).outcome = ((ofRules rs').simplify e).outcome := by
    rw [(collapsing_ofRules rs).outcome_simplify, (collapsing_ofRules rs').outcome_simplify,
      result_eq_of_groups_eq h]
  have hsplit : rs.flatMap RuleSet.groups = (rs.flatMap RuleSet.split).flatMap RuleSet.groups := by
    simp only [List.flatMap_assoc, RuleSet.flatMap_groups_split]
  have hfull : [RuleSet.full].flatMap RuleSet.groups =
      (RuleGroup.all.map RuleSet.singleton).flatMap RuleSet.groups := by decide
  have hempty : [RuleSet.empty].flatMap RuleSet.groups = [].flatMap RuleSet.groups := by decide
  refine ⟨⟨_, (collapsing_ofRules rs).outcome_simplify e, ?_⟩, ?_, hsame hempty⟩
  · rw [← hsame hsplit]
    exact (collapsing_ofRules rs).outcome_simplify e
  · rw [boolean_eq_ofRules]
    exact hsame hfull

end Simplifier

end ExprTree
