import ExprTree.Expr.Equality
import Mathlib.Algebra.Order.BigOperators.Group.List
import Mathlib.Algebra.Order.Ring.Nat

/-!
# Reached positions

A pass enters every child of a node except the operands of an extension and the values of a
member initialiser. This module says which children these are and what replacing them keeps.
Nothing reached is larger than the tree itself.
-/

namespace ExprTree

variable {α β ε : Type}

namespace Node

/-- The children that a pass enters. -/
def reached : Node ε → List ε
  | .memberInit construct _ => construct.arguments
  | .extension _ _ => []
  | n => n.children

/-- The children that a pass carries over as they are. -/
def kept : Node ε → List ε
  | .memberInit _ bindings => bindings.map (·.value)
  | .extension _ operands => operands
  | _ => []

/-- The object construction below an initialiser. -/
def initialised : Node ε → Option (Construct ε)
  | .listInit construct _ | .memberInit construct _ => some construct
  | _ => none

/-- Replaces the children that a pass enters. -/
def mapReached (f : ε → ε) : Node ε → Node ε
  | .memberInit construct bindings => .memberInit (construct.map f) bindings
  | .extension name operands => .extension name operands
  | n => n.map f

theorem children_eq_append (n : Node ε) : n.children = n.reached ++ n.kept := by
  cases n <;> simp [reached, kept, children]

theorem mem_children_of_mem_reached {n : Node ε} {e : ε} (h : e ∈ n.reached) :
    e ∈ n.children := by
  rw [children_eq_append]
  exact List.mem_append_left _ h

theorem mem_reached_of_initialised {n : Node ε} {c : Construct ε} {e : ε}
    (hc : n.initialised = some c) (he : e ∈ c.arguments) : e ∈ n.reached := by
  cases n <;> simp [initialised] at hc <;> subst hc <;> simp [reached, children, he]

@[simp] theorem shape_mapReached (f : ε → ε) (n : Node ε) : (n.mapReached f).shape = n.shape := by
  cases n
  case memberInit => simp [mapReached, shape, map, Construct.map, Function.comp_def]
  case extension => rfl
  all_goals simp only [mapReached, shape_map]

@[simp] theorem reached_mapReached (f : ε → ε) (n : Node ε) :
    (n.mapReached f).reached = n.reached.map f := by
  cases n
  case memberInit | extension => rfl
  all_goals simp only [mapReached, reached, map, ← children_map]

@[simp] theorem kept_mapReached (f : ε → ε) (n : Node ε) : (n.mapReached f).kept = n.kept := by
  cases n <;> rfl

@[simp] theorem reached_map (f : α → β) (n : Node α) : (n.map f).reached = n.reached.map f := by
  cases n
  case memberInit | extension => rfl
  all_goals simp only [map, reached, ← children_map]

@[simp] theorem kept_map (f : α → β) (n : Node α) : (n.map f).kept = n.kept.map f := by
  cases n <;> simp [map, kept, Binding.map]

@[simp] theorem weight_mapReached (f : ε → ε) (n : Node ε) :
    (n.mapReached f).weight = n.weight := by
  cases n
  case memberInit | extension => rfl
  all_goals simp only [mapReached, weight_map]

@[simp] theorem declared_mapReached (f : ε → ε) (n : Node ε) :
    (n.mapReached f).declared = n.declared := by
  cases n
  case memberInit | extension => rfl
  all_goals simp only [mapReached, declared_map]

@[simp] theorem initialised_mapReached (f : ε → ε) (n : Node ε) :
    (n.mapReached f).initialised = n.initialised.map (·.map f) := by
  cases n <;> rfl

theorem mapReached_congr {f g : ε → ε} {n : Node ε} (h : ∀ e ∈ n.reached, f e = g e) :
    n.mapReached f = n.mapReached g := by
  apply eq_of_shape_eq
  · simp only [shape_mapReached]
  · simp only [children_eq_append, reached_mapReached, kept_mapReached, List.map_congr_left h]

theorem mapReached_map_comm {f g : ε → ε} {n : Node ε} (h : ∀ e ∈ n.reached, f (g e) = g (f e)) :
    (n.map g).mapReached f = (n.mapReached f).map g := by
  apply eq_of_shape_eq
  · simp only [shape_map, shape_mapReached]
  · simp only [children_eq_append, reached_map, kept_map, reached_mapReached, kept_mapReached,
      List.map_map]
    exact congrArg (· ++ n.kept.map g) (List.map_congr_left h)

theorem mapReached_eq_map {n : Node ε} (h : n.kept = []) (f : ε → ε) :
    n.mapReached f = n.map f := by
  apply eq_of_shape_eq
  · simp only [shape_mapReached, shape_map]
  · simp only [children_eq_append, reached_mapReached, kept_mapReached, reached_map, kept_map, h,
      List.map_nil]

/-- Replacing the children that a pass enters goes unnoticed where `f` does not tell them from what
replaces them. -/
theorem map_mapReached {f : ε → β} {g : ε → ε} {n : Node ε} (h : ∀ e ∈ n.reached, f (g e) = f e) :
    (n.mapReached g).map f = n.map f := by
  apply eq_of_shape_eq
  · simp only [shape_map, shape_mapReached]
  · simp only [children_eq_append, reached_map, kept_map, reached_mapReached, kept_mapReached,
      List.map_map]
    exact congrArg (· ++ n.kept.map f) (List.map_congr_left h)

@[simp] theorem mapReached_mapReached (f g : ε → ε) (n : Node ε) :
    (n.mapReached f).mapReached g = n.mapReached fun e => g (f e) := by
  apply eq_of_shape_eq
  · simp only [shape_mapReached]
  · simp only [children_eq_append, reached_mapReached, kept_mapReached, List.map_map,
      Function.comp_def]

theorem mapReached_eq_self {f : ε → ε} {n : Node ε} (h : ∀ e ∈ n.reached, f e = e) :
    n.mapReached f = n := by
  apply eq_of_shape_eq (shape_mapReached f n)
  simp only [children_eq_append, reached_mapReached, kept_mapReached]
  rw [List.map_congr_left h, List.map_id']

end Node

namespace Expr

/-- A pass over the first expression enters the second one, at whatever depth. Declared variables
and the construction below an initialiser are entered as nodes of their own. -/
inductive Reaches : Expr → Expr → Prop where
  | refl (e : Expr) : Reaches e e
  | child {n : Node Expr} {d e : Expr} : d ∈ n.reached → Reaches d e → Reaches (node n) e
  | declared {n : Node Expr} {name : String} : name ∈ n.declared →
      Reaches (node n) (parameter name)
  | construct {n : Node Expr} {c : Construct Expr} : n.initialised = some c →
      Reaches (node n) (new c)

/-- The second expression is entered strictly below the first. -/
def Below (e d : Expr) : Prop := ∃ c ∈ e.root.reached, Reaches c d

theorem Reaches.trans {a b c : Expr} (hab : Reaches a b) (hbc : Reaches b c) : Reaches a c := by
  induction hab with
  | refl => exact hbc
  | child hd _ ih => exact .child hd (ih hbc)
  | declared hn =>
    cases hbc with
    | refl => exact .declared hn
    | child hd => cases hd
    | declared hd => cases hd
    | construct hd => cases hd
  | construct hc =>
    cases hbc with
    | refl => exact .construct hc
    | child hd hr => exact .child (Node.mem_reached_of_initialised hc hd) hr
    | declared hd => cases hd
    | construct hd => cases hd

theorem Below.reaches {e d : Expr} (h : Below e d) : Reaches e d := by
  obtain ⟨n⟩ := e
  obtain ⟨c, hc, hd⟩ := h
  exact .child hc hd

theorem Below.trans {a b c : Expr} (hab : Below a b) (hbc : Below b c) : Below a c := by
  obtain ⟨d, hd, hb⟩ := hab
  exact ⟨d, hd, hb.trans hbc.reaches⟩

theorem below_of_mem {n : Node Expr} {e : Expr} (h : e ∈ n.reached) : Below (node n) e :=
  ⟨e, h, .refl e⟩

theorem below_unary (op : UnaryOp) (e : Expr) : Below (unary op e) e :=
  below_of_mem List.mem_cons_self

theorem below_left (op : BinaryOp) (l r : Expr) : Below (binary op l r) l :=
  below_of_mem List.mem_cons_self

theorem below_right (op : BinaryOp) (l r : Expr) : Below (binary op l r) r :=
  below_of_mem (List.mem_cons_of_mem l List.mem_cons_self)

theorem below_branch (t a b : Expr) (c : Bool) :
    Below (conditional t a b) (if c then a else b) := by
  apply below_of_mem
  cases c <;> simp [Node.reached, Node.children]

@[simp] theorem size_constant (value : Literal) : (constant value).size = 1 := by
  simp [size_node, Node.weight, Node.declared, Node.children]

@[simp] theorem size_parameter (name : String) : (parameter name).size = 1 := by
  simp [size_node, Node.weight, Node.declared, Node.children]

@[simp] theorem size_unary (op : UnaryOp) (e : Expr) : (unary op e).size = e.size + 1 := by
  simp [size_node, Node.weight, Node.declared, Node.children]

@[simp] theorem size_binary (op : BinaryOp) (l r : Expr) :
    (binary op l r).size = l.size + r.size + 1 := by
  simp [size_node, Node.weight, Node.declared, Node.children, Nat.add_assoc]

@[simp] theorem size_conditional (t a b : Expr) :
    (conditional t a b).size = t.size + a.size + b.size + 1 := by
  simp [size_node, Node.weight, Node.declared, Node.children, Nat.add_assoc]

theorem size_lt_of_mem_reached {n : Node Expr} {e : Expr} (h : e ∈ n.reached) :
    e.size < (node n).size :=
  size_lt_of_mem_children (Node.mem_children_of_mem_reached h)

theorem size_parameter_lt {n : Node Expr} {name : String} (h : name ∈ n.declared) :
    (parameter name).size < (node n).size := by
  have := List.length_pos_of_mem h
  have := weight_le_size n
  unfold Node.weight at this
  rw [size_parameter]
  omega

theorem size_new_lt {n : Node Expr} {c : Construct Expr} (h : n.initialised = some c) :
    (new c).size < (node n).size := by
  have happend (others : List Expr) :
      (c.arguments.map size).sum + 1 < ((c.arguments ++ others).map size).sum + 2 := by
    rw [List.map_append, List.sum_append_nat]
    omega
  rw [size_node, size_node]
  cases n with
  | listInit construct elements =>
    cases h
    exact happend _
  | memberInit construct bindings =>
    cases h
    exact happend _
  | _ => cases h

theorem Reaches.size_le {e d : Expr} (h : Reaches e d) : d.size ≤ e.size := by
  induction h with
  | refl => exact Nat.le_refl _
  | child hd _ ih =>
    have := size_lt_of_mem_reached hd
    omega
  | declared hn => exact Nat.le_of_lt (size_parameter_lt hn)
  | construct hc => exact Nat.le_of_lt (size_new_lt hc)

theorem Below.size_lt {e d : Expr} (h : Below e d) : d.size < e.size := by
  obtain ⟨n⟩ := e
  obtain ⟨c, hc, hd⟩ := h
  exact Nat.lt_of_le_of_lt hd.size_le (size_lt_of_mem_reached hc)

theorem size_mapReached_le {f : Expr → Expr} {n : Node Expr}
    (h : ∀ e ∈ n.reached, (f e).size ≤ e.size) : (node (n.mapReached f)).size ≤ (node n).size := by
  simp only [size_node, Node.weight_mapReached, Node.children_eq_append, Node.reached_mapReached,
    Node.kept_mapReached, List.map_append, List.sum_append_nat, List.map_map]
  exact Nat.add_le_add_right (Nat.add_le_add_right (List.sum_le_sum h) _) _

end Expr

end ExprTree
