import ExprTree.Proofs.Collapse
import ExprTree.Proofs.Rebuild

/-!
# Passes of collapsing rules

A pass with collapsing rules and no reducers never fails: every question is about a smaller tree,
so the depth allowed for a tree is never exceeded. Its result obeys one equation, which speaks
neither of depth nor of messages: the transformers are applied to the node of the results.
-/

namespace ExprTree

open ExprTree.Expr

namespace Registry

theorem reduce_empty (e : Expr) : reduce {} e = pure e := by
  have h : step? {} e = none := by
    unfold step?
    split <;> rfl
  rw [reduce, maxSteps, reduceWithin, h]

end Registry

namespace Simplifier

/-- There are no reducers, and all transformers collapse. -/
structure Collapsing (s : Simplifier) : Prop where
  registry : s.registry = {}
  transformers : ∀ t ∈ s.transformers, CollapsingRule t.rule

/-- The tree that a pass leaves, or the tree itself if the pass fails. -/
def result (s : Simplifier) (e : Expr) : Expr :=
  match (s.simplify e).outcome with
  | .ok r => r
  | .error _ => e

theorem size_le_depthFor (e : Expr) : e.size ≤ depthFor e := by
  unfold depthFor
  omega

def rule (s : Simplifier) : Expr → Query (Option Expr) :=
  Query.inTurn (s.transformers.map (·.step))

theorem value_transform (s : Simplifier) (answer : Expr → Expr) (e : Expr) :
    (s.transform e).value answer = ((s.rule e).value answer).getD e := by
  change ((s.rule e).bind _).value answer = _
  rw [Query.value_bind]
  rfl

theorem value_transform_eq_foldl (s : Simplifier) (answer : Expr → Expr) (e : Expr) :
    (s.transform e).value answer =
      s.transformers.foldl (fun d t => ((t.rule d).value answer).getD d) e := by
  rw [value_transform, rule, Query.getD_value_inTurn, List.foldl_map]
  simp only [Transformer.step, Query.value_named]

theorem asks_transform {s : Simplifier} {answer : Expr → Expr} {p : Expr → Prop} {e : Expr} :
    (s.transform e).Asks answer p ↔ (s.rule e).Asks answer p := by
  change ((s.rule e).bind _).Asks answer p ↔ _
  rw [Query.asks_bind]
  exact ⟨fun h => h.1, fun h => ⟨h, trivial⟩⟩

namespace Collapsing

variable {s : Simplifier}

theorem rule (h : s.Collapsing) : CollapsingRule s.rule :=
  CollapsingRule.inTurn_named h.transformers

theorem transform_cases (h : s.Collapsing) (answer : Expr → Expr) (e : Expr) :
    (s.transform e).value answer = e ∨ Collapses e ((s.transform e).value answer) := by
  rw [value_transform]
  cases hv : (s.rule e).value answer with
  | none => exact .inl rfl
  | some r => exact .inr (h.rule.leaves answer e r hv)

theorem transform_eq_self (h : s.Collapsing) (answer : Expr → Expr) {e : Expr}
    (he : e.category.isOperation = false) : (s.transform e).value answer = e := by
  rcases h.transform_cases answer e with heq | hc
  · exact heq
  · exact absurd hc.operation (by simp [he])

theorem size_transform_le (h : s.Collapsing) (answer : Expr → Expr) (e : Expr) :
    ((s.transform e).value answer).size ≤ e.size := by
  rcases h.transform_cases answer e with heq | hc
  · exact Nat.le_of_eq (congrArg size heq)
  · exact Nat.le_of_lt hc.size_lt

end Collapsing

/-- At any sufficient depth a pass over the tree leaves its result, which the transformers make of
the node of the results, and which is not larger than the tree. -/
structure Settles (s : Simplifier) (e : Expr) : Prop where
  outcome : ∀ depth, e.size ≤ depth → (s.simplifyWithin depth e).outcome = .ok (s.result e)
  result : s.result e = (s.transform (.node (e.root.mapReached s.result))).value s.result
  size : (s.result e).size ≤ e.size

variable {s : Simplifier}

private theorem Settles.parameter (h : s.Collapsing) {name : String}
    (hs : s.Settles (.parameter name)) : s.result (.parameter name) = .parameter name := by
  rw [hs.result]
  exact h.transform_eq_self _ rfl

private theorem Settles.new (h : s.Collapsing) {c : Construct Expr} (hs : s.Settles (.new c)) :
    s.result (.new c) = .new (c.map s.result) := by
  rw [hs.result]
  exact h.transform_eq_self _ rfl

theorem follows_visitor {simplify : Expr → Run Expr} {f : Expr → Expr} {n : Node Expr}
    (he : ∀ e ∈ n.reached, (simplify e).outcome = .ok (f e))
    (hp : ∀ name ∈ n.declared, (simplify (.parameter name)).outcome = .ok (.parameter name))
    (hc : ∀ c ∈ n.initialised, (simplify (.new c)).outcome = .ok (.new (c.map f))) :
    (visitor simplify).Follows f n where
  expression := he
  parameter name hn := by
    change (simplify (.parameter name) >>= _).outcome = _
    rw [Run.outcome_bind_of_ok (hp name hn)]
    rfl
  construct c hn := by
    change (simplify (.new c) >>= _).outcome = _
    rw [Run.outcome_bind_of_ok (hc c hn)]
    rfl

/-- When all that is nested in a pass ends in trees, the pass lowers the node, replaces what it
enters and applies the transformers. -/
theorem outcome_simplifyWithin_succ {e : Expr} {n : Node Expr} {depth : Nat}
    {f answer : Expr → Expr}
    (hreduce : (s.registry.reduce e).value = node n)
    (hvisits : (visitor (s.simplifyWithin depth)).Follows f n)
    (hasks : (s.transform (node (n.mapReached f))).Asks answer
      fun x => (s.simplifyWithin depth x).outcome = .ok (answer x)) :
    (s.simplifyWithin (depth + 1) e).outcome =
      .ok ((s.transform (node (n.mapReached f))).value answer) := by
  have hlower : (liftM (s.registry.reduce e) : Run Expr).outcome = .ok (node n) :=
    congrArg Except.ok hreduce
  rw [simplifyWithin, Run.outcome_bind_of_ok hlower, root_node,
    Run.outcome_bind_of_ok hvisits.outcome_rebuild]
  exact hasks.outcome_run

private theorem follows_of_settles (h : s.Collapsing) {n : Node Expr}
    {simplify : Expr → Run Expr} (ih : ∀ e, e.size < (node n).size → s.Settles e)
    (hs : ∀ e, e.size < (node n).size → (simplify e).outcome = .ok (s.result e)) :
    (visitor simplify).Follows s.result n := by
  apply follows_visitor
  · exact fun e he => hs e (size_lt_of_mem_reached he)
  · intro name hn
    have hlt := size_parameter_lt hn
    rw [hs _ hlt, (ih _ hlt).parameter h]
  · intro c hc
    have hlt := size_new_lt hc
    rw [hs _ hlt, (ih _ hlt).new h]

private theorem settles_node (h : s.Collapsing) (n : Node Expr)
    (ih : ∀ e, e.size < (node n).size → s.Settles e) : s.Settles (node n) := by
  let rebuilt : Expr := node (n.mapReached s.result)
  have hsize : rebuilt.size ≤ (node n).size :=
    size_mapReached_le fun e he => (ih e (size_lt_of_mem_reached he)).size
  have houtcome (depth : Nat) (hd : (node n).size ≤ depth) :
      (s.simplifyWithin depth (node n)).outcome =
        .ok ((s.transform rebuilt).value s.result) := by
    cases depth with
    | zero =>
      have := (node n).size_pos
      omega
    | succ depth =>
      have hreduce : (s.registry.reduce (node n)).value = node n := by
        rw [h.registry, Registry.reduce_empty]
        rfl
      have hvisits : (visitor (s.simplifyWithin depth)).Follows s.result n := by
        apply follows_of_settles h ih
        intro e hlt
        exact (ih e hlt).outcome depth (by omega)
      apply outcome_simplifyWithin_succ hreduce hvisits
      rw [asks_transform]
      apply (h.rule.asks s.result rebuilt).mono
      intro e he
      have hlt := he.size_lt
      exact (ih e (by omega)).outcome depth (by omega)
  have hresult : s.result (node n) = (s.transform rebuilt).value s.result := by
    rw [result, simplify, houtcome _ (size_le_depthFor _)]
  refine ⟨fun depth hd => ?_, hresult, ?_⟩
  · rw [houtcome depth hd, hresult]
  · rw [hresult]
    exact Nat.le_trans (h.size_transform_le _ _) hsize

theorem Collapsing.settles (h : s.Collapsing) (e : Expr) : s.Settles e := by
  induction hk : e.size using Nat.strongRecOn generalizing e with
  | ind k ih =>
    obtain ⟨n⟩ := e
    apply settles_node h
    intro d hd
    exact ih d.size (by omega) d rfl

theorem Collapsing.outcome_simplify (h : s.Collapsing) (e : Expr) :
    (s.simplify e).outcome = .ok (s.result e) :=
  (h.settles e).outcome _ (size_le_depthFor e)

theorem Collapsing.result_node (h : s.Collapsing) (n : Node Expr) :
    s.result (node n) = (s.transform (node (n.mapReached s.result))).value s.result :=
  (h.settles (node n)).result

theorem Collapsing.result_parameter (h : s.Collapsing) (name : String) :
    s.result (.parameter name) = .parameter name :=
  (h.settles _).parameter h

theorem Collapsing.result_new (h : s.Collapsing) (c : Construct Expr) :
    s.result (.new c) = .new (c.map s.result) :=
  (h.settles _).new h

theorem Collapsing.follows_visitor (h : s.Collapsing) {n : Node Expr} {depth : Nat}
    (hd : (node n).size ≤ depth + 1) : (visitor (s.simplifyWithin depth)).Follows s.result n := by
  apply follows_of_settles h fun e _ => h.settles e
  intro e hlt
  exact (h.settles e).outcome depth (by omega)

theorem Collapsing.outcome_rebuild (h : s.Collapsing) (n : Node Expr) :
    (n.rebuild (visitor s.simplify)).outcome = .ok (n.mapReached s.result) :=
  (follows_of_settles h (fun e _ => h.settles e) fun e _ => h.outcome_simplify e).outcome_rebuild

theorem Collapsing.size_result_le (h : s.Collapsing) (e : Expr) : (s.result e).size ≤ e.size :=
  (h.settles e).size

/-- Two expressions are found equivalent exactly when their results have the same text. -/
theorem Collapsing.outcome_isEquivalent (h : s.Collapsing) (a b : Expr) :
    (s.isEquivalent a b).outcome = .ok (decide ((s.result a).text = (s.result b).text)) := by
  have hasks : (Query.equivalent a b).Asks s.result
      fun e => (s.simplify e).outcome = .ok (s.result e) := by
    rw [Query.asks_equivalent]
    exact ⟨h.outcome_simplify a, h.outcome_simplify b⟩
  rw [isEquivalent, answer, hasks.outcome_run, Query.value_equivalent]

end Simplifier

end ExprTree
