import ExprTree.Proofs.Rules.Pipeline

/-!
# Boolean rules shrink trees

What the rules ask at a node is always about a tree with fewer nodes, so a pass over a tree nests
no deeper than the tree has nodes. The result is the tree itself or has fewer nodes, and mentions
no variable that the tree does not mention.
-/

namespace ExprTree

open ExprTree.Expr

def Node.used {ε : Type} : Node ε → List String
  | .parameter name => [name]
  | _ => []

@[simp] theorem Node.used_map {α β : Type} (f : α → β) (n : Node α) : (n.map f).used = n.used := by
  cases n <;> rfl

/-- The names of all parameters in a tree, used or declared. -/
def Expr.variables : Expr → List String := fold fun n => n.used ++ n.declared ++ n.children.flatten

namespace Expr

theorem mem_variables {n : Node Expr} {x : String} :
    x ∈ (node n).variables ↔
      x ∈ n.used ∨ x ∈ n.declared ∨ ∃ c ∈ n.children, x ∈ c.variables := by
  unfold Expr.variables
  rw [fold_node, Node.used_map, Node.declared_map, Node.children_map, ← List.flatMap_def,
    List.mem_append, List.mem_append, List.mem_flatMap, or_assoc]

theorem Reaches.variables_subset {e d : Expr} (h : Reaches e d) : d.variables ⊆ e.variables := by
  induction h with
  | refl => exact List.Subset.refl _
  | child hd _ ih =>
    intro x hx
    exact mem_variables.mpr (.inr (.inr ⟨_, Node.mem_children_of_mem_reached hd, ih hx⟩))
  | @declared n name hn =>
    intro x hx
    rcases mem_variables.mp hx with hused | hdeclared | ⟨c, hc, -⟩
    · cases List.mem_singleton.mp hused
      exact mem_variables.mpr (.inr (.inl hn))
    · cases hdeclared
    · cases hc
  | construct hc =>
    intro x hx
    rcases mem_variables.mp hx with hused | hdeclared | ⟨c, hmem, hx⟩
    · cases hused
    · cases hdeclared
    · have hreached := Node.mem_reached_of_initialised hc hmem
      exact mem_variables.mpr (.inr (.inr ⟨c, Node.mem_children_of_mem_reached hreached, hx⟩))

theorem Collapses.variables_subset {e r : Expr} (h : Collapses e r) :
    r.variables ⊆ e.variables := by
  rcases h.result with hb | ⟨b, rfl⟩
  · exact hb.reaches.variables_subset
  · intro x hx
    rcases mem_variables.mp hx with hused | hdeclared | ⟨c, hc, -⟩
    · cases hused
    · cases hdeclared
    · cases hc

end Expr

@[simp] theorem Node.used_mapReached {ε : Type} (f : ε → ε) (n : Node ε) :
    (n.mapReached f).used = n.used := by
  cases n <;> rfl

theorem Expr.variables_mapReached_subset {f : Expr → Expr} {n : Node Expr}
    (h : ∀ c ∈ n.reached, (f c).variables ⊆ c.variables) :
    (node (n.mapReached f)).variables ⊆ (node n).variables := by
  intro x hx
  rw [mem_variables] at hx ⊢
  rcases hx with hused | hdeclared | ⟨c, hc, hx⟩
  · rw [Node.used_mapReached] at hused
    exact .inl hused
  · rw [Node.declared_mapReached] at hdeclared
    exact .inr (.inl hdeclared)
  · rw [Node.children_eq_append, Node.reached_mapReached, Node.kept_mapReached, List.mem_append,
      List.mem_map] at hc
    right; right
    rcases hc with ⟨d, hd, rfl⟩ | hkept
    · exact ⟨d, Node.mem_children_of_mem_reached hd, h d hd hx⟩
    · exact ⟨c, by rw [Node.children_eq_append]; exact List.mem_append_right _ hkept, hx⟩

namespace Simplifier

variable {s : Simplifier}

theorem Collapsing.variables_result_subset (h : s.Collapsing) (e : Expr) :
    (s.result e).variables ⊆ e.variables := by
  induction e using Expr.induct with
  | node n ih =>
    have hrebuilt : (node (n.mapReached s.result)).variables ⊆ (node n).variables :=
      variables_mapReached_subset fun c hc => ih c (Node.mem_children_of_mem_reached hc)
    rw [h.result_node]
    rcases h.transform_cases s.result (node (n.mapReached s.result)) with heq | hc
    · rw [heq]
      exact hrebuilt
    · exact List.Subset.trans hc.variables_subset hrebuilt

theorem mapReached_eq_or_size_lt {f : Expr → Expr} {n : Node Expr}
    (h : ∀ c ∈ n.reached, f c = c ∨ (f c).size < c.size) :
    n.mapReached f = n ∨ (node (n.mapReached f)).size < (node n).size := by
  by_cases hall : ∀ c ∈ n.reached, f c = c
  · exact .inl (Node.mapReached_eq_self hall)
  · right
    simp only [not_forall] at hall
    obtain ⟨c, hc, hne⟩ := hall
    have hle : ∀ d ∈ n.reached, (f d).size ≤ d.size := by
      intro d hd
      rcases h d hd with heq | hlt
      · rw [heq]
      · exact Nat.le_of_lt hlt
    have hlt := List.sum_lt_sum _ _ hle ⟨c, hc, (h c hc).resolve_left hne⟩
    simp only [size_node, Node.weight_mapReached, Node.children_eq_append, Node.reached_mapReached,
      Node.kept_mapReached, List.map_append, List.sum_append_nat, List.map_map]
    exact Nat.add_lt_add_right (Nat.add_lt_add_right hlt _) _

/-- A pass leaves a tree as it is or makes it smaller. -/
theorem Collapsing.result_eq_or_size_lt (h : s.Collapsing) (e : Expr) :
    s.result e = e ∨ (s.result e).size < e.size := by
  induction e using Expr.induct with
  | node n ih =>
    have hrebuilt := mapReached_eq_or_size_lt fun c hc =>
      ih c (Node.mem_children_of_mem_reached hc)
    rw [h.result_node]
    rcases h.transform_cases s.result (node (n.mapReached s.result)) with heq | hc
    · rw [heq]
      exact hrebuilt.imp (congrArg node) id
    · right
      rcases hrebuilt with heq | hlt
      · rw [heq] at hc ⊢
        exact hc.size_lt
      · exact Nat.lt_trans hc.size_lt hlt

/-- A pass of boolean rules terminates: it nests at most as deep as the tree has nodes, since
whatever the rules ask at a node, whichever answers they have got, is about fewer nodes. The result
is the tree itself or has fewer nodes, and mentions only variables of the tree. -/
theorem simplify_shrinks (rs : List RuleSet) (e : Expr) :
    ∃ root r, (e.root.rebuild (visitor (ofRules rs).simplify)).outcome = .ok root ∧
      (∀ answer, ((ofRules rs).transform (node root)).Asks answer fun x => x.size < e.size) ∧
      (∀ depth, e.size ≤ depth → ((ofRules rs).simplifyWithin depth e).outcome = .ok r) ∧
      ((ofRules rs).simplify e).outcome = .ok r ∧
      (r = e ∨ r.size < e.size) ∧ r.variables ⊆ e.variables := by
  have h := collapsing_ofRules rs
  obtain ⟨n⟩ := e
  refine ⟨n.mapReached (ofRules rs).result, (ofRules rs).result (node n), h.outcome_rebuild n, ?_,
    (h.settles (node n)).outcome, h.outcome_simplify _, h.result_eq_or_size_lt _,
    h.variables_result_subset _⟩
  intro answer
  have hsize : (node (n.mapReached (ofRules rs).result)).size ≤ (node n).size :=
    size_mapReached_le fun c _ => h.size_result_le c
  rw [asks_transform]
  apply (h.rule.asks answer _).mono
  intro x hx
  have := hx.size_lt
  omega

end Simplifier

end ExprTree
