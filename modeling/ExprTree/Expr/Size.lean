import ExprTree.Expr
import ExprTree.Node.Children

/-! # The size of an expression

Every expression counts as one node, and so does each of the nodes that a position of fixed
category holds: a declared variable, the construction below an initialiser. A child is smaller than
its node, which makes the size a measure to recurse and to induct on. -/

namespace ExprTree

/-- The nodes of one layer: the node itself and what stands in its positions of fixed category. -/
def Node.weight {ε : Type} (n : Node ε) : Nat :=
  1 + n.declared.length +
    match n with
    | .listInit .. | .memberInit .. => 1
    | _ => 0

@[simp] theorem Node.weight_map {α β : Type} (f : α → β) (n : Node α) :
    (n.map f).weight = n.weight := by
  cases n <;> simp [weight, map, declared, Handler.map, List.flatMap_map]

theorem Node.weight_pos {ε : Type} (n : Node ε) : 0 < n.weight := by
  unfold weight; omega

namespace Expr

-- the zero is written out, so that no other one is found where more is imported
def size : Expr → Nat := fold fun n => @List.sum Nat _ ⟨0⟩ n.children + n.weight

theorem size_node (n : Node Expr) :
    (node n).size = @List.sum Nat _ ⟨0⟩ (n.children.map size) + n.weight := by
  unfold size
  rw [fold_node, Node.weight_map, Node.children_map]

theorem weight_le_size (n : Node Expr) : n.weight ≤ (node n).size := by
  rw [size_node]
  exact Nat.le_add_left _ _

theorem size_pos (e : Expr) : 0 < e.size := by
  obtain ⟨n⟩ := e
  exact Nat.lt_of_lt_of_le n.weight_pos (weight_le_size n)

theorem size_lt_of_mem_children {n : Node Expr} {e : Expr} (h : e ∈ n.children) :
    e.size < (node n).size := by
  obtain ⟨before, after, hchildren⟩ := List.append_of_mem h
  have := n.weight_pos
  rw [size_node, hchildren, List.map_append, List.map_cons, List.sum_append_nat, List.sum_cons]
  omega

/-- Induction on expressions: a property that a node inherits from all its children holds of every
expression. -/
theorem induct {motive : Expr → Prop}
    (node : ∀ n : Node Expr, (∀ e ∈ n.children, motive e) → motive (node n)) (e : Expr) :
    motive e :=
  match e with
  | .node n => node n fun child _ => induct node child
termination_by e.size
decreasing_by exact size_lt_of_mem_children ‹_›

end Expr

end ExprTree
