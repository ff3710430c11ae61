import ExprTree.Proofs.Stable

/-!
# Pipelines of boolean rules

Pipelines made of rule sets collapse, so their passes never fail and their results are stable.
Among stable arms, being equivalent is having the same text; at each node of a pass the first group
that applies decides, and it compares texts.
-/

namespace ExprTree

open ExprTree.Expr

/-- The two expressions have the same text. -/
def Expr.SameText (a b : Expr) : Prop := a.text = b.text

theorem Expr.Opposed.mono {same same' : Expr → Expr → Prop} {a b : Expr} (h : Opposed same a b)
    {e : Expr} (ha : Below e a) (hb : Below e b)
    (hs : ∀ x y, Below e x → Below e y → same x y → same' x y) : Opposed same' a b := by
  cases h with
  | left h => exact .left (hs _ _ hb (ha.trans (below_unary _ _)) h)
  | right h => exact .right (hs _ _ ha (hb.trans (below_unary _ _)) h)

theorem RuleGroup.Rewrites.mono {same same' : Expr → Expr → Prop} {g : RuleGroup} {e r : Expr}
    (h : g.Rewrites same e r) (hs : ∀ x y, Below e x → Below e y → same x y → same' x y) :
    g.Rewrites same' e r := by
  cases h with
  | doubleNegation => exact .doubleNegation _
  | constantTest => exact .constantTest _ _ _
  | constantNegation => exact .constantNegation _
  | constantOperands hb => exact .constantOperands hb
  | selfComparison => exact .selfComparison _ _
  | zeroArm hj => exact .zeroArm hj
  | unitArm hj => exact .unitArm hj
  | opposedArms ho => exact .opposedArms (ho.mono (below_left _ _ _) (below_right _ _ _) hs)
  | repeatedArm h => exact .repeatedArm (hs _ _ (below_left _ _ _) (below_right _ _ _) h)
  | absorbedArm hj hj' h =>
    exact .absorbedArm hj hj' (hs _ _ hj.below_first (hj.below_second.trans hj'.below_first) h)
  | @resolvedArms l r _ _ _ _ hl hr h ho =>
    have hleft {x : Expr} (hx : Below l x) : Below (.and l r) x := (below_left _ _ _).trans hx
    have hright {x : Expr} (hx : Below r x) : Below (.and l r) x := (below_right _ _ _).trans hx
    exact .resolvedArms hl hr (hs _ _ (hleft hl.below_first) (hright hr.below_first) h)
      (ho.mono (hleft hl.below_second) (hright hr.below_second) hs)

namespace Simplifier

/-- The simplifier whose transformers are the given choices of boolean rules, without reducers. -/
def ofRules (rs : List RuleSet) : Simplifier where
  transformers := rs.map RuleSet.transformer

theorem boolean_eq_ofRules : Simplifier.boolean = ofRules [.full] := rfl

theorem collapsing_ofRules (rs : List RuleSet) : (ofRules rs).Collapsing where
  registry := rfl
  transformers t ht := by
    obtain ⟨r, -, rfl⟩ := List.mem_map.mp ht
    exact r.collapsing

theorem value_transform_ofRules (rs : List RuleSet) (answer : Expr → Expr) (e : Expr) :
    ((ofRules rs).transform e).value answer =
      (rs.flatMap RuleSet.groups).foldl (fun d g => ((g.rule d).value answer).getD d) e := by
  have hset (r : RuleSet) (d : Expr) : ((r.transformer.rule d).value answer).getD d =
      r.groups.foldl (fun d g => ((g.rule d).value answer).getD d) d := by
    change ((r.rule d).value answer).getD d = _
    rw [RuleSet.rule, Query.getD_value_inTurn, List.foldl_map]
    simp only [Query.value_named]
  rw [value_transform_eq_foldl, ofRules, List.foldl_map, List.foldl_flatMap]
  simp only [hset]

variable {rs : List RuleSet}

theorem Stable.same_iff {s : Simplifier} {a b : Expr} (ha : s.Stable a) (hb : s.Stable b) :
    Query.Same s.result a b ↔ SameText a b := by
  rw [Query.Same, ha, hb, SameText]

theorem Stable.group_eq_none {e : Expr} (hs : (ofRules rs).Stable e) {g : RuleGroup}
    (hg : g ∈ rs.flatMap RuleSet.groups) : (g.rule e).value (ofRules rs).result = none := by
  obtain ⟨r, hr, hgroup⟩ := List.mem_flatMap.mp hg
  have hset := hs.transformer_eq_none (collapsing_ofRules rs) (List.mem_map_of_mem hr)
  exact (Query.value_inTurn_named_eq_none _ _ _ _ _).mp hset g hgroup

/-- A pass rebuilds a node from the results of its children, and then the first of the enabled
groups that applies to it decides. -/
theorem result_ofRules_node (rs : List RuleSet) (n : Node Expr) :
    (ofRules rs).result (node n) =
      ((rs.flatMap RuleSet.groups).findSome? fun g =>
        (g.rule (node (n.mapReached (ofRules rs).result))).value (ofRules rs).result).getD
        (node (n.mapReached (ofRules rs).result)) := by
  have h := collapsing_ofRules rs
  rw [h.result_node, value_transform_ofRules]
  apply CollapsingRule.foldl_eq_findSome? fun g _ => g.collapsing
  intro d hd g hg
  exact (h.stable_of_collapses (h.stable_rebuilt n) hd).group_eq_none hg

theorem rewrites_rebuilt {g : RuleGroup} {n : Node Expr} {d : Expr}
    (hg : (g.rule (node (n.mapReached (ofRules rs).result))).value (ofRules rs).result = some d) :
    g.Rewrites SameText (node (n.mapReached (ofRules rs).result)) d := by
  have h := collapsing_ofRules rs
  have hbelow {x : Expr} (hx : Below (node (n.mapReached (ofRules rs).result)) x) :
      (ofRules rs).Stable x := by
    obtain ⟨c, hc, hreaches⟩ := hx
    exact (h.stable_rebuilt n c hc).reaches h hreaches
  apply (RuleGroup.rewrites_of_value hg).mono
  intro x y hx hy hs
  exact ((hbelow hx).same_iff (hbelow hy)).mp hs

/-- A pass rebuilds a node from the results of its children, and then at most one of the enabled
groups rewrites it, by comparing texts. -/
theorem result_ofRules_cases (rs : List RuleSet) (n : Node Expr) :
    (ofRules rs).result (node n) = node (n.mapReached (ofRules rs).result) ∨
      ∃ r ∈ rs, ∃ g ∈ r.groups, g.Rewrites SameText (node (n.mapReached (ofRules rs).result))
        ((ofRules rs).result (node n)) := by
  rw [result_ofRules_node]
  cases hv : (rs.flatMap RuleSet.groups).findSome? fun g =>
      (g.rule (node (n.mapReached (ofRules rs).result))).value (ofRules rs).result with
  | none => exact .inl rfl
  | some d =>
    obtain ⟨g, hmem, hg⟩ := List.exists_of_findSome?_eq_some hv
    obtain ⟨r, hr, hgroup⟩ := List.mem_flatMap.mp hmem
    exact .inr ⟨r, hr, g, hgroup, rewrites_rebuilt hg⟩

theorem Stable.not_rewrites {e x : Expr} (hs : (ofRules rs).Stable e) {r : RuleSet} (hr : r ∈ rs)
    {g : RuleGroup} (hg : g ∈ r.groups) : ¬ g.Rewrites SameText e x := by
  have h := collapsing_ofRules rs
  intro hrewrites
  have hsame : g.Rewrites (Query.Same (ofRules rs).result) e x := by
    apply hrewrites.mono
    intro a b ha hb
    exact ((hs.reaches h ha.reaches).same_iff (hs.reaches h hb.reaches)).mpr
  exact hsame.value_ne_none (hs.group_eq_none (List.mem_flatMap_of_mem hr hg))

theorem not_rewrites_result {g : RuleGroup} (h : ∃ r ∈ rs, r.enabled g = true) (e x : Expr) :
    ¬ g.Rewrites SameText ((ofRules rs).result e) x := by
  obtain ⟨r, hr, henabled⟩ := h
  have hstable := (collapsing_ofRules rs).stable_result e
  exact hstable.not_rewrites hr (RuleSet.mem_groups.mpr henabled)

/-- A second pass changes nothing, whatever the rule sets and their order. -/
theorem simplify_idempotent (rs : List RuleSet) (e : Expr) :
    ∃ r, ((ofRules rs).simplify e).outcome = .ok r ∧ ((ofRules rs).simplify r).outcome = .ok r := by
  have h := collapsing_ofRules rs
  refine ⟨(ofRules rs).result e, h.outcome_simplify e, ?_⟩
  rw [h.outcome_simplify, h.stable_result e]

end Simplifier

end ExprTree
