import ExprTree.Proofs.Pass

/-!
# Stable trees

A tree is stable when a pass leaves it as it is. A stable tree is stable wherever a pass enters
it, and the transformers leave it alone; conversely these two make a tree stable. So whatever a
collapsing rule leaves of a node with stable children is stable: at most one rule applies at a
node, and the result of a pass is stable.
-/

namespace ExprTree

open ExprTree.Expr

namespace Simplifier

variable {s : Simplifier}

/-- A pass leaves the tree as it is. -/
def Stable (s : Simplifier) (e : Expr) : Prop := s.result e = e

private theorem reached_eq_of_map_eq {f : Expr → Expr} {es : List Expr} (h : es.map f = es) :
    ∀ e ∈ es, f e = e := by
  induction es with
  | nil => exact fun e he => nomatch he
  | cons e es ih =>
    obtain ⟨he, hes⟩ := List.cons.inj h
    exact List.forall_mem_cons.mpr ⟨he, ih hes⟩

theorem Collapsing.stable_node_iff (h : s.Collapsing) {n : Node Expr} :
    s.Stable (node n) ↔
      (∀ e ∈ n.reached, s.Stable e) ∧ (s.rule (node n)).value s.result = none := by
  let rebuilt : Expr := node (n.mapReached s.result)
  constructor
  · intro hstable
    have hresult := h.result_node n
    rw [hstable] at hresult
    -- a collapse would make the node smaller
    have hrebuilt : (s.transform rebuilt).value s.result = rebuilt := by
      rcases h.transform_cases s.result rebuilt with heq | hc
      · exact heq
      · have hlt := hc.size_lt
        have hle : rebuilt.size ≤ (node n).size :=
          size_mapReached_le fun e _ => h.size_result_le e
        rw [← hresult] at hlt
        omega
    have hnode : n.mapReached s.result = n := node.inj (hrebuilt.symm.trans hresult.symm)
    constructor
    · apply reached_eq_of_map_eq
      rw [← Node.reached_mapReached, hnode]
    · cases hv : (s.rule (node n)).value s.result with
      | none => rfl
      | some r =>
        have hr := h.rule.leaves s.result (node n) r hv
        rw [hnode, value_transform, hv] at hresult
        exact absurd hresult.symm hr.ne
  · intro h
    obtain ⟨hchildren, hrule⟩ := h
    rw [Stable, h.result_node, Node.mapReached_eq_self hchildren, value_transform, hrule]
    rfl

theorem Stable.rule_eq_none {e : Expr} (hs : s.Stable e) (h : s.Collapsing) :
    (s.rule e).value s.result = none := by
  obtain ⟨n⟩ := e
  exact (h.stable_node_iff.mp hs).2

theorem Collapsing.stable_of_not_operation (h : s.Collapsing) {n : Node Expr}
    (hn : n.category.isOperation = false) (hchildren : ∀ e ∈ n.reached, s.Stable e) :
    s.Stable (node n) := by
  refine h.stable_node_iff.mpr ⟨hchildren, ?_⟩
  cases hv : (s.rule (node n)).value s.result with
  | none => rfl
  | some r =>
    have hop := (h.rule.leaves s.result (node n) r hv).operation
    exact absurd hop (by rw [show (node n).category = n.category from rfl, hn]; decide)

theorem Collapsing.stable_constant (h : s.Collapsing) (v : Literal) : s.Stable (.constant v) :=
  h.stable_of_not_operation rfl fun _ he => nomatch he

theorem Stable.reaches {e d : Expr} (hs : s.Stable e) (h : s.Collapsing) (hr : Reaches e d) :
    s.Stable d := by
  induction hr with
  | refl => exact hs
  | child hd _ ih => exact ih ((h.stable_node_iff.mp hs).1 _ hd)
  | declared => exact h.stable_of_not_operation rfl fun _ he => nomatch he
  | construct hc =>
    apply h.stable_of_not_operation rfl
    intro e he
    exact (h.stable_node_iff.mp hs).1 e (Node.mem_reached_of_initialised hc he)

theorem Collapsing.stable_of_collapses (h : s.Collapsing) {e r : Expr}
    (hchildren : ∀ c ∈ e.root.reached, s.Stable c) (hr : Collapses e r) : s.Stable r := by
  rcases hr.result with ⟨c, hc, hcr⟩ | ⟨b, rfl⟩
  · exact (hchildren c hc).reaches h hcr
  · exact h.stable_constant _

private theorem stable_reached {n : Node Expr} (h : ∀ e ∈ n.reached, s.Stable (s.result e)) :
    ∀ c ∈ (node (n.mapReached s.result)).root.reached, s.Stable c := by
  intro c hc
  rw [root_node, Node.reached_mapReached] at hc
  obtain ⟨e, he, rfl⟩ := List.mem_map.mp hc
  exact h e he

/-- The result of a pass is stable. -/
theorem Collapsing.stable_result (h : s.Collapsing) (e : Expr) : s.Stable (s.result e) := by
  induction e using Expr.induct with
  | node n ih =>
    have hchildren := stable_reached fun e he => ih e (Node.mem_children_of_mem_reached he)
    rw [h.result_node, value_transform]
    cases hv : (s.rule (node (n.mapReached s.result))).value s.result with
    | none => exact h.stable_node_iff.mpr ⟨hchildren, hv⟩
    | some r => exact h.stable_of_collapses hchildren (h.rule.leaves _ _ r hv)

theorem Collapsing.stable_rebuilt (h : s.Collapsing) (n : Node Expr) :
    ∀ c ∈ (node (n.mapReached s.result)).root.reached, s.Stable c :=
  stable_reached fun e _ => h.stable_result e

end Simplifier

private theorem foldl_eq_self {ι : Type} {xs : List ι} {f : ι → Expr → Option Expr} {e : Expr}
    (h : ∀ x ∈ xs, f x e = none) : xs.foldl (fun d x => (f x d).getD d) e = e := by
  induction xs with
  | nil => rfl
  | cons x xs ih =>
    rw [List.forall_mem_cons] at h
    rw [List.foldl_cons, h.1]
    exact ih h.2

/-- When every collapse of a node is left alone by all the rules, the first one that applies
decides. -/
theorem CollapsingRule.foldl_eq_findSome? {ι : Type} {xs : List ι}
    {rule : ι → Expr → Query (Option Expr)} (h : ∀ x ∈ xs, CollapsingRule (rule x))
    {answer : Expr → Expr} {e : Expr}
    (hfinal : ∀ d, Collapses e d → ∀ x ∈ xs, (rule x d).value answer = none) :
    xs.foldl (fun d x => ((rule x d).value answer).getD d) e =
      (xs.findSome? fun x => (rule x e).value answer).getD e := by
  induction xs with
  | nil => rfl
  | cons x xs ih =>
    rw [List.forall_mem_cons] at h
    have hrest (d : Expr) (hd : Collapses e d) (y : ι) (hy : y ∈ xs) :=
      hfinal d hd y (List.mem_cons_of_mem x hy)
    rw [List.foldl_cons, List.findSome?_cons]
    cases hv : (rule x e).value answer with
    | none => exact ih h.2 hrest
    | some after =>
      have hafter := hrest after (h.1.leaves answer e after hv)
      exact foldl_eq_self (f := fun y d => (rule y d).value answer) hafter

theorem Simplifier.Stable.transformer_eq_none {s : Simplifier} {e : Expr} (hs : s.Stable e)
    (h : s.Collapsing) {t : Transformer} (ht : t ∈ s.transformers) :
    (t.rule e).value s.result = none :=
  (Query.value_inTurn_named_eq_none _ _ _ _ _).mp (hs.rule_eq_none h) t ht

end ExprTree
