import ExprTree.Proofs.Everywhere
import ExprTree.Transformers.Leaves
import Mathlib.Data.List.Forall2

/-!
# Transformers of leaves

A transformer of leaves replaces the values of constants and the names of parameters. A pass with
such transformers replaces these in every position that it enters, once, and keeps everything else;
so it does as many passes with one of the transformers each.
-/

namespace ExprTree

open ExprTree.Expr

/-- What becomes of the value of a constant and of the name of a variable. -/
structure LeafMap where
  literal : Literal → Literal
  name : String → String

/-- Replaces the value of a constant, the name of a parameter or the variables that a node
declares. -/
def Node.relabel {ε : Type} (g : LeafMap) : Node ε → Node ε
  | .constant v => .constant (g.literal v)
  | .parameter x => .parameter (g.name x)
  | n => n.mapDeclared g.name

namespace LeafMap

/-- Does nothing to nodes that are no leaves. -/
def apply (g : LeafMap) : Expr → Expr
  | .constant v => .constant (g.literal v)
  | .parameter x => .parameter (g.name x)
  | e => e

protected def id : LeafMap := ⟨fun v => v, fun x => x⟩

/-- First `h` and then `g`. -/
def comp (g h : LeafMap) : LeafMap := ⟨fun v => g.literal (h.literal v), fun x => g.name (h.name x)⟩

/-- All of them, the first one first. -/
def compAll (gs : List LeafMap) : LeafMap := gs.foldl (fun h g => g.comp h) .id

theorem apply_comp (g h : LeafMap) (e : Expr) : (g.comp h).apply e = g.apply (h.apply e) := by
  obtain ⟨n⟩ := e
  cases n <;> rfl

theorem apply_mapDeclared {n : Node Expr} (g : LeafMap) :
    g.apply (node (n.mapDeclared g.name)) = node (n.relabel g) := by
  cases n <;> rfl

theorem fits (g : LeafMap) : Fits g.apply g.name where
  parameter _ _ := rfl
  new _ _ := rfl

end LeafMap

/-- Replaces the leaves in every position that a pass enters. -/
def Expr.relabelReached (g : LeafMap) : Expr → Expr := everywhere g.apply g.name

theorem Expr.relabelReached_node (g : LeafMap) (n : Node Expr) :
    (node n).relabelReached g = node ((n.mapReached (relabelReached g)).relabel g) := by
  rw [relabelReached, everywhere_node, LeafMap.apply_mapDeclared]

namespace Node

variable {α β ε : Type}

theorem relabel_map (g : LeafMap) (f : α → β) (n : Node α) :
    (n.map f).relabel g = (n.relabel g).map f := by
  cases n with
  | tryCatch => simp [map, relabel, mapDeclared, Handler.map, Handler.mapBinder]
  | _ => rfl

theorem relabel_mapReached (g : LeafMap) (f : ε → ε) (n : Node ε) :
    (n.mapReached f).relabel g = (n.relabel g).mapReached f := by
  cases n with
  | tryCatch body handlers finallyBody faultBody =>
    exact relabel_map g f (.tryCatch body handlers finallyBody faultBody)
  | _ => rfl

theorem relabel_relabel (g h : LeafMap) (n : Node ε) :
    (n.relabel h).relabel g = n.relabel (g.comp h) := by
  cases n <;>
    simp [relabel, mapDeclared, LeafMap.comp, Handler.mapBinder, Function.comp_def]

theorem relabel_id (n : Node ε) : n.relabel .id = n := by
  cases n <;> simp [relabel, mapDeclared, LeafMap.id, Handler.mapBinder]

end Node

namespace Expr

theorem relabelReached_comp (g h : LeafMap) (e : Expr) :
    (e.relabelReached h).relabelReached g = e.relabelReached (g.comp h) := by
  induction e using induct with
  | node n ih =>
    have hchildren : n.mapReached (fun c => (c.relabelReached h).relabelReached g) =
        n.mapReached (relabelReached (g.comp h)) :=
      Node.mapReached_congr fun c hc => ih c (Node.mem_children_of_mem_reached hc)
    rw [relabelReached_node, relabelReached_node, relabelReached_node, ← Node.relabel_mapReached,
      Node.relabel_relabel, Node.mapReached_mapReached, hchildren]

theorem relabelReached_id (e : Expr) : e.relabelReached .id = e := by
  induction e using induct with
  | node n ih =>
    have hchildren : n.mapReached (relabelReached .id) = n :=
      Node.mapReached_eq_self fun c hc => ih c (Node.mem_children_of_mem_reached hc)
    rw [relabelReached_node, hchildren, Node.relabel_id]

/-- Replaces the leaves at every position, also where a pass does not enter. -/
def relabel (g : LeafMap) : Expr → Expr := fold fun n => node (n.relabel g)

theorem relabel_node (g : LeafMap) (n : Node Expr) :
    (node n).relabel g = node ((n.map (relabel g)).relabel g) := by
  rw [relabel, fold_node]

theorem relabel_relabel (g h : LeafMap) (e : Expr) :
    (e.relabel h).relabel g = e.relabel (g.comp h) := by
  induction e using induct with
  | node n ih =>
    rw [relabel_node, relabel_node, relabel_node, ← Node.relabel_map, Node.relabel_relabel,
      Node.map_map, Node.map_congr ih]

theorem relabel_id (e : Expr) : e.relabel .id = e := by
  induction e using induct with
  | node n ih =>
    have hchildren : n.map (relabel .id) = n := by
      apply Node.eq_of_shape_eq (Node.shape_map _ n)
      rw [Node.children_map, List.map_congr_left ih, List.map_id']
    rw [relabel_node, hchildren, Node.relabel_id]

/-- The tree without the values of its constants and the names of its variables. -/
def skeleton : Expr → Expr := relabel ⟨fun _ => .null, fun _ => ""⟩

theorem skeleton_relabelReached (g : LeafMap) (e : Expr) :
    (e.relabelReached g).skeleton = e.skeleton := by
  induction e using induct with
  | node n ih =>
    have hchildren : (n.mapReached (relabelReached g)).map skeleton = n.map skeleton :=
      Node.map_mapReached fun c hc => ih c (Node.mem_children_of_mem_reached hc)
    rw [relabelReached_node, skeleton, relabel_node, relabel_node, ← skeleton, ← Node.relabel_map,
      Node.relabel_relabel, hchildren]
    rfl

/-- Where a pass enters every child, it replaces the leaves at every position. -/
theorem relabelReached_eq_relabel (g : LeafMap) {e : Expr}
    (h : ∀ d, Reaches e d → d.root.kept = []) : e.relabelReached g = e.relabel g := by
  induction e using induct with
  | node n ih =>
    have hkept : n.kept = [] := h _ (.refl _)
    have hchildren : n.mapReached (relabelReached g) = n.mapReached (relabel g) := by
      apply Node.mapReached_congr
      intro c hc
      exact ih c (Node.mem_children_of_mem_reached hc) fun d hd => h d (.child hc hd)
    rw [relabelReached_node, relabel_node, hchildren, Node.mapReached_eq_map hkept]

end Expr

namespace Transformer

theorem actsAs_rename (source target : String) :
    (rename source target).ActsAs
      (LeafMap.mk (fun v => v) fun x => if x = source then target else x).apply := by
  apply actsAs_ofFun
  rintro ⟨n⟩
  cases n with
  | parameter x =>
    by_cases hx : x = source <;> simp [LeafMap.apply, hx]
  | _ => rfl

theorem actsAs_swap (a b : String) : (swap a b).ActsAs
    (LeafMap.mk (fun v => v) fun x => if x = a then b else if x = b then a else x).apply := by
  apply actsAs_ofFun
  rintro ⟨n⟩
  cases n with
  | parameter x =>
    change Option.getD (if x = a then some (parameter b)
      else if x = b then some (parameter a) else none) (parameter x) =
        parameter (if x = a then b else if x = b then a else x)
    split
    · rfl
    · split <;> rfl
  | _ => rfl

theorem actsAs_flipTrue : flipTrue.ActsAs
    (LeafMap.mk (fun | .bool true => .bool false | v => v) fun x => x).apply := by
  apply actsAs_ofFun
  rintro ⟨n⟩
  cases n with
  | constant v =>
    cases v with
    | bool b => cases b <;> rfl
    | _ => rfl
  | _ => rfl

end Transformer

namespace Simplifier

variable {ts : List Transformer} {gs : List LeafMap}

theorem foldl_actsAs (h : List.Forall₂ (fun t g => t.ActsAs g.apply) ts gs)
    (answer : Expr → Expr) (start : LeafMap) (e : Expr) :
    ts.foldl (fun d t => ((t.rule d).value answer).getD d) (start.apply e) =
      (gs.foldl (fun h g => g.comp h) start).apply e := by
  induction h generalizing start with
  | nil => rfl
  | @cons t g ts gs ht _ ih =>
    rw [List.foldl_cons, List.foldl_cons, ht.value, ← LeafMap.apply_comp]
    exact ih (g.comp start)

private theorem asks_actsAs (h : List.Forall₂ (fun t g => t.ActsAs g.apply) ts gs)
    (answer : Expr → Expr) (e : Expr) :
    (Query.inTurn (ts.map (·.step)) e).Asks answer fun _ => False := by
  induction h generalizing e with
  | nil => trivial
  | cons ht _ ih =>
    rw [List.map_cons, Query.asks_inTurn_cons]
    exact ⟨(Query.asks_named ..).mpr (ht.asks answer e), ih _⟩

theorem actsAs_compAll (h : List.Forall₂ (fun t g => t.ActsAs g.apply) ts gs) :
    (ofTransformers ts).ActsAs (LeafMap.compAll gs).apply where
  registry := rfl
  asks answer e := by
    rw [asks_transform]
    exact asks_actsAs h answer e
  value answer e := by
    rw [value_transform_eq_foldl]
    have hid : LeafMap.id.apply e = e := by
      obtain ⟨n⟩ := e
      cases n <;> rfl
    have hfold := foldl_actsAs h answer .id e
    rwa [hid] at hfold

theorem misfits_relabelReached (g : LeafMap) (p : Position Expr) :
    p.slot.misfits (p.toExpr.relabelReached g) = [] := by
  cases p with
  | expression e => rfl
  | parameter x =>
    change Slot.misfits _ ((parameter x).relabelReached g) = []
    rw [relabelReached_node]
    rfl
  | construct c =>
    change Slot.misfits _ ((new c).relabelReached g) = []
    rw [relabelReached_node]
    rfl

theorem outcome_simplify_leaves (h : List.Forall₂ (fun t g => t.ActsAs g.apply) ts gs) (e : Expr) :
    ((ofTransformers ts).simplify e).outcome = .ok (e.relabelReached (.compAll gs)) := by
  have hfails (n : Node Expr) : [] = n.positions.flatMap fun p =>
      [] ++ p.slot.misfits (p.toExpr.relabelReached (.compAll gs)) := by
    rw [eq_comm, List.flatMap_eq_nil_iff]
    intro p _
    exact misfits_relabelReached _ p
  exact (actsAs_compAll h).endsIn (fun _ => []) (LeafMap.compAll gs).fits hfails
    (size_le_depthFor e)

theorem outcome_foldlM_leaves (h : List.Forall₂ (fun t g => t.ActsAs g.apply) ts gs)
    (start : LeafMap) (e : Expr) :
    (ts.foldlM (fun d t => (ofTransformers [t]).simplify d)
      (e.relabelReached start) : Run Expr).outcome =
        .ok (e.relabelReached (gs.foldl (fun h g => g.comp h) start)) := by
  induction h generalizing start with
  | nil => rfl
  | @cons t g ts gs ht _ ih =>
    have hpass := outcome_simplify_leaves (.cons ht .nil) (e.relabelReached start)
    rw [relabelReached_comp] at hpass
    rw [List.foldlM_cons, Run.outcome_bind_of_ok hpass]
    exact ih (g.comp start)

/-- A pass of transformers of leaves replaces, by all of them in turn, every leaf at the positions
that it enters. It keeps the rest of the tree, and one pass with each of them leaves the same. -/
theorem simplify_leaves (h : List.Forall₂ (fun t g => t.ActsAs g.apply) ts gs) (e : Expr) :
    let r := e.relabelReached (.compAll gs)
    ((ofTransformers ts).simplify e).outcome = .ok r ∧
      r.skeleton = e.skeleton ∧
      ((∀ d, Reaches e d → d.root.kept = []) → r = e.relabel (.compAll gs)) ∧
      (ts.foldlM (fun d t => (ofTransformers [t]).simplify d) e : Run Expr).outcome = .ok r := by
  intro r
  have hpasses := outcome_foldlM_leaves h .id e
  rw [relabelReached_id] at hpasses
  exact ⟨outcome_simplify_leaves h e, skeleton_relabelReached _ e, relabelReached_eq_relabel _,
    hpasses⟩

/-- Exchanging `a` and `b`, turning `true` into `false` and then renaming `b` to `c` reaches the
parameter of the lambda, the condition and the branch, but not the operand of the extension. -/
theorem simplify_leaves_lambda :
    let gs : List LeafMap :=
      [⟨fun v => v, fun x => if x = "a" then "b" else if x = "b" then "a" else x⟩,
        ⟨fun | .bool true => .bool false | v => v, fun x => x⟩,
        ⟨fun v => v, fun x => if x = "b" then "c" else x⟩]
    let ts := [Transformer.swap "a" "b", Transformer.flipTrue, Transformer.rename "b" "c"]
    let e : Expr := .lambda none false ["a"]
      (.conditional (.bool true) (.parameter "b") (.extension "x" [.parameter "a"]))
    let r := e.relabelReached (.compAll gs)
    List.Forall₂ (fun t g => t.ActsAs g.apply) ts gs ∧
      r = .lambda none false ["c"]
        (.conditional (.bool false) (.parameter "a") (.extension "x" [.parameter "a"])) ∧
      ((ofTransformers ts).simplify e).outcome = .ok r ∧
      r.skeleton = e.skeleton ∧
      ((∀ d, Reaches e d → d.root.kept = []) → r = e.relabel (.compAll gs)) ∧
      (ts.foldlM (fun d t => (ofTransformers [t]).simplify d) e : Run Expr).outcome = .ok r := by
  intro gs ts e r
  have h : List.Forall₂ (fun t g => t.ActsAs g.apply) ts gs :=
    .cons (Transformer.actsAs_swap "a" "b")
      (.cons Transformer.actsAs_flipTrue (.cons (Transformer.actsAs_rename "b" "c") .nil))
  exact ⟨h, rfl, simplify_leaves h e⟩

end Simplifier

end ExprTree
