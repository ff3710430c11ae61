import ExprTree.Expr.Size
import ExprTree.Node.Shape

/-! # Comparing expressions

Two trees are equal when their outermost nodes have the same shape and their children are equal in
turn. The comparison of literals is left open: floats can be told apart by their bits or compared as
numbers. -/

namespace ExprTree

variable {α β ε : Type}

/-- The nodes have the same shape, up to literals that are the `same`. -/
def Node.alike (same : Literal → Literal → Bool) (n : Node α) (m : Node β) : Bool :=
  match n, m with
  | .constant a, .constant b => same a b
  | n, m => n.shape = m.shape

/-- There are as many tests as items, and each test accepts the item in its place. -/
def allAccept : List (ε → Bool) → List ε → Bool
  | [], [] => true
  | test :: tests, item :: items => test item && allAccept tests items
  | _, _ => false

@[simp] theorem Node.shape_map (f : α → β) (n : Node α) : (n.map f).shape = n.shape := by
  cases n <;>
    simp [shape, map, Function.comp_def, Handler.map, Case.map, ElementInit.map, Binding.map,
      Construct.map]

theorem Node.map_map {γ : Type} (f : α → β) (g : β → γ) (n : Node α) :
    (n.map f).map g = n.map fun e => g (f e) := by
  apply eq_of_shape_eq
  · simp only [shape_map]
  · simp only [children_map, List.map_map, Function.comp_def]

theorem Node.map_congr {f g : α → β} {n : Node α} (h : ∀ e ∈ n.children, f e = g e) :
    n.map f = n.map g := by
  apply eq_of_shape_eq
  · simp only [shape_map]
  · simp only [children_map]
    exact List.map_congr_left h

@[simp] theorem Node.alike_map (same : Literal → Literal → Bool) (f : α → β) (n : Node α)
    (m : Node ε) : (n.map f).alike same m = n.alike same m := by
  cases n
  case constant => cases m <;> rfl
  all_goals exact congrArg (fun shape => decide (shape = m.shape)) (shape_map f _)

theorem Node.alike_eq_iff (n : Node α) (m : Node β) :
    n.alike (fun a b => a = b) m = true ↔ n.shape = m.shape := by
  cases n
  case constant => cases m <;> simp [alike, shape, map]
  all_goals exact decide_eq_true_iff

namespace Expr

/-- The two trees are built alike from literals that are the `same`. -/
def agreesBy (same : Literal → Literal → Bool) : Expr → Expr → Bool :=
  fold fun n e => n.alike same e.root && allAccept n.children e.root.children

/-- Equality of trees in which floats are compared as numbers: a tree with a NaN does not even
equal itself. -/
def agrees : Expr → Expr → Bool := agreesBy Literal.agrees

theorem agreesBy_node (same : Literal → Literal → Bool) (n m : Node Expr) :
    agreesBy same (node n) (node m) =
      (n.alike same m && allAccept (n.children.map (agreesBy same)) m.children) := by
  unfold agreesBy
  rw [fold_node, Node.alike_map, Node.children_map, root_node]

private theorem allAccept_map_iff {p : Expr → Expr → Bool} {es fs : List Expr}
    (h : ∀ e ∈ es, ∀ f, p e f = true ↔ e = f) : allAccept (es.map p) fs = true ↔ es = fs := by
  induction es generalizing fs with
  | nil => cases fs <;> simp [allAccept]
  | cons e es ih =>
    cases fs with
    | nil => simp [allAccept]
    | cons f fs =>
      simp [allAccept, h e (by simp), ih fun e he => h e (by simp [he])]

theorem agreesBy_eq_iff (e f : Expr) : agreesBy (fun a b => a = b) e f = true ↔ e = f := by
  induction e using induct generalizing f with
  | node n ih =>
    obtain ⟨m⟩ := f
    rw [agreesBy_node, Bool.and_eq_true, Node.alike_eq_iff, allAccept_map_iff ih, node.injEq]
    exact ⟨fun h => Node.eq_of_shape_eq h.1 h.2, fun h => by rw [h]; exact ⟨rfl, rfl⟩⟩

instance : DecidableEq Expr := fun e f => decidable_of_iff _ (agreesBy_eq_iff e f)

end Expr

end ExprTree
