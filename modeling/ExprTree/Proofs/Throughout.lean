import ExprTree.Proofs.Pass

/-!
# Properties of the positions that a pass enters

Some properties of a node can be seen from its outermost layer, and do not forbid variables,
constructions or truth values. When such a property holds wherever a pass enters a tree, it does so
in whatever collapsing rules make of the tree.
-/

namespace ExprTree

open ExprTree.Expr

namespace Expr

/-- The property holds wherever a pass over the tree enters. -/
def Throughout (p : Expr → Prop) (e : Expr) : Prop := ∀ d, Reaches e d → p d

/-- The property does not depend on what a pass enters, and variables, constructions and truth
values have it. -/
structure Superficial (p : Expr → Prop) : Prop where
  mapReached : ∀ (f : Expr → Expr) (n : Node Expr), p (node (n.mapReached f)) ↔ p (node n)
  parameter : ∀ name, p (.parameter name)
  new : ∀ c, p (.new c)
  bool : ∀ b, p (.bool b)

theorem Throughout.reaches {p : Expr → Prop} {e d : Expr} (h : Throughout p e)
    (hr : Reaches e d) : Throughout p d :=
  fun c hc => h c (hr.trans hc)

theorem Throughout.child {p : Expr → Prop} {e c : Expr} (h : Throughout p e)
    (hc : c ∈ e.root.reached) : Throughout p c :=
  fun d hd => h d (Below.reaches ⟨c, hc, hd⟩)

namespace Superficial

variable {p : Expr → Prop} (hp : Superficial p)
include hp

theorem throughout_node_iff {n : Node Expr} :
    Throughout p (node n) ↔ p (node n) ∧ ∀ c ∈ n.reached, Throughout p c := by
  constructor
  · intro h
    exact ⟨h _ (.refl _), fun c => h.child⟩
  · intro h d hd
    cases hd with
    | refl => exact h.1
    | child hc hr => exact h.2 _ hc d hr
    | declared => exact hp.parameter _
    | construct => exact hp.new _

theorem throughout_parameter (name : String) : Throughout p (.parameter name) :=
  hp.throughout_node_iff.mpr ⟨hp.parameter name, fun _ hc => nomatch hc⟩

theorem throughout_new {n : Node Expr} (h : ∀ c ∈ n.reached, Throughout p c) {c : Construct Expr}
    (hc : n.initialised = some c) : Throughout p (.new c) :=
  hp.throughout_node_iff.mpr
    ⟨hp.new c, fun d hd => h d (Node.mem_reached_of_initialised hc hd)⟩

theorem throughout_of_collapses {e d : Expr} (h : ∀ c ∈ e.root.reached, Throughout p c)
    (hd : Collapses e d) : Throughout p d := by
  rcases hd.result with ⟨c, hc, hreaches⟩ | ⟨b, rfl⟩
  · exact (h c hc).reaches hreaches
  · exact hp.throughout_node_iff.mpr ⟨hp.bool b, fun _ hc => nomatch hc⟩

theorem throughout_mapReached {n : Node Expr} (h : Throughout p (node n)) {f : Expr → Expr}
    (hf : ∀ c ∈ n.reached, Throughout p c → Throughout p (f c)) :
    Throughout p (node (n.mapReached f)) := by
  obtain ⟨hroot, hchildren⟩ := hp.throughout_node_iff.mp h
  refine hp.throughout_node_iff.mpr ⟨(hp.mapReached f n).mpr hroot, ?_⟩
  rw [Node.reached_mapReached, List.forall_mem_map]
  exact fun c hc => hf c hc (hchildren c hc)

end Superficial

end Expr

/-- A pass keeps the property wherever a pass enters. -/
theorem Simplifier.Collapsing.throughout_result {s : Simplifier} (h : s.Collapsing)
    {p : Expr → Prop} (hp : Superficial p) {e : Expr} (he : Throughout p e) :
    Throughout p (s.result e) := by
  induction e using Expr.induct with
  | node n ih =>
    have hrebuilt := hp.throughout_mapReached he fun c hc =>
      ih c (Node.mem_children_of_mem_reached hc)
    rw [h.result_node]
    rcases h.transform_cases s.result (node (n.mapReached s.result)) with heq | hc
    · rw [heq]
      exact hrebuilt
    · exact hp.throughout_of_collapses (fun c => hrebuilt.child) hc

end ExprTree
