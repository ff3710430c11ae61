import ExprTree.Proofs.Depth
import ExprTree.Proofs.Reduction
import ExprTree.Proofs.Rules.Pipeline
import ExprTree.Proofs.Throughout

/-!
# Lowering while simplifying

A tree lowers to another when every node that a pass enters is replaced by what the reducers make of
it, from the root down. A pass with collapsing rules that lowers on its way leaves what a pass
without reducers leaves of the lowered tree: the results of a pass hold nothing reducible, so the
questions of the rules, which lower again, find nothing to do.
-/

namespace ExprTree

open ExprTree.Expr

namespace Registry

variable {r : Registry}

/-- Lowering each node that a pass enters, before its children, turns the first tree into the
second one, and every chain of replacements on the way comes to an end. The choice of `f` says what
the children become; variables and the constructions below initialisers are no extensions. -/
inductive Lowers (r : Registry) : Expr → Expr → Prop where
  | node {e : Expr} {n : Node Expr} (f : Expr → Expr) : (r.reduce e).value = node n →
      r.step? (node n) = none → (∀ c ∈ n.reached, Lowers r c (f c)) →
      Lowers r e (node (n.mapReached f))

/-- No position that a pass enters holds a reducible extension. -/
def Normal (r : Registry) (e : Expr) : Prop := ∀ d, Reaches e d → r.step? d = none

theorem value_reduce_of_step? {e : Expr} (h : r.step? e = none) : (r.reduce e).value = e := by
  rw [reduce_of_not_reducible (step?_eq_none_iff.mp h)]
  rfl

theorem superficial_step? (r : Registry) : Superficial fun e => r.step? e = none where
  mapReached _ n := by cases n <;> exact Iff.rfl
  parameter _ := rfl
  new _ := rfl
  bool _ := rfl

theorem normal_node_iff {n : Node Expr} :
    r.Normal (node n) ↔ r.step? (node n) = none ∧ ∀ c ∈ n.reached, r.Normal c :=
  r.superficial_step?.throughout_node_iff

theorem Normal.reaches {e d : Expr} (h : r.Normal e) (hr : Reaches e d) : r.Normal d :=
  Throughout.reaches h hr

theorem Lowers.normal {e e' : Expr} (h : r.Lowers e e') : r.Normal e' := by
  induction h with
  | node f _ hstep _ ih =>
    refine normal_node_iff.mpr ⟨(r.superficial_step?.mapReached f _).mpr hstep, ?_⟩
    rw [Node.reached_mapReached, List.forall_mem_map]
    exact ih

theorem Normal.lowers {e : Expr} (h : r.Normal e) : r.Lowers e e := by
  induction e using Expr.induct with
  | node n ih =>
    obtain ⟨hstep, hchildren⟩ := normal_node_iff.mp h
    have hlowers := Lowers.node id (value_reduce_of_step? hstep) hstep fun c hc =>
      ih c (Node.mem_children_of_mem_reached hc) (hchildren c hc)
    rwa [Node.mapReached_eq_self (f := id) fun _ _ => rfl] at hlowers

theorem lowers_parameter (r : Registry) (name : String) :
    r.Lowers (.parameter name) (.parameter name) :=
  Normal.lowers (r.superficial_step?.throughout_parameter name)

theorem lowers_new {c : Construct Expr} {f : Expr → Expr}
    (h : ∀ e ∈ c.arguments, r.Lowers e (f e)) : r.Lowers (.new c) (.new (c.map f)) :=
  .node (n := .new c) f rfl rfl h

end Registry

namespace Simplifier

variable {s : Simplifier} {r : Registry}

/-- The same transformers, with the given reducers. -/
def withRegistry (s : Simplifier) (r : Registry) : Simplifier := { s with registry := r }

private theorem follows_of_lowers (h : s.Collapsing) {n : Node Expr} {f : Expr → Expr}
    (hchildren : ∀ c ∈ n.reached, r.Lowers c (f c)) {simplify : Expr → Run Expr}
    (hs : ∀ d d', d'.size < (node (n.mapReached f)).size → r.Lowers d d' →
      (simplify d).outcome = .ok (s.result d')) :
    (visitor simplify).Follows (fun c => s.result (f c)) n := by
  apply follows_visitor
  · intro c hc
    have hmem : f c ∈ (n.mapReached f).reached := by
      rw [Node.reached_mapReached]
      exact List.mem_map_of_mem hc
    exact hs c (f c) (size_lt_of_mem_reached hmem) (hchildren c hc)
  · intro name hn
    rw [← Node.declared_mapReached f n] at hn
    rw [hs _ _ (size_parameter_lt hn) (Registry.lowers_parameter r name), h.result_parameter]
  · intro c hc
    have hlowers : r.Lowers (.new c) (.new (c.map f)) :=
      Registry.lowers_new fun e he => hchildren e (Node.mem_reached_of_initialised hc he)
    have hinit : (n.mapReached f).initialised = some (c.map f) := by
      rw [Node.initialised_mapReached, hc]
      rfl
    rw [hs _ _ (size_new_lt hinit) hlowers, h.result_new]
    simp only [Construct.map, List.map_map, Function.comp_def]

/-- At any depth of at least the size of the lowered tree, a pass that lowers on its way leaves the
result of the lowered tree. -/
theorem Collapsing.outcome_simplifyWithin_of_lowers (h : s.Collapsing) {e e' : Expr}
    (hl : r.Lowers e e') {depth : Nat} (hd : e'.size ≤ depth) :
    ((s.withRegistry r).simplifyWithin depth e).outcome = .ok (s.result e') := by
  induction hk : e'.size using Nat.strongRecOn generalizing e e' depth with
  | ind k ih =>
    subst hk
    have hnormal := hl.normal
    obtain @⟨_, n, f, hreduce, hstep, hchildren⟩ := hl
    cases depth with
    | zero =>
      have := (node (n.mapReached f)).size_pos
      omega
    | succ depth =>
      have hbelow (d d' : Expr) (hlt : d'.size < (node (n.mapReached f)).size)
          (hdd : r.Lowers d d') :
          ((s.withRegistry r).simplifyWithin depth d).outcome = .ok (s.result d') :=
        ih _ hlt hdd (by omega) rfl
      have hvisits := follows_of_lowers h hchildren hbelow
      rw [h.result_node, Node.mapReached_mapReached]
      apply outcome_simplifyWithin_succ hreduce hvisits
      rw [← Node.mapReached_mapReached]
      -- what the rules ask about is lowered already, and lowering it again changes nothing
      have hrebuilt : r.Normal (node ((n.mapReached f).mapReached s.result)) :=
        r.superficial_step?.throughout_mapReached hnormal fun _ _ hc =>
          h.throughout_result r.superficial_step? hc
      have hsize : (node ((n.mapReached f).mapReached s.result)).size ≤
          (node (n.mapReached f)).size := size_mapReached_le fun c _ => h.size_result_le c
      rw [asks_transform]
      apply (h.rule.asks s.result _).mono
      intro x hx
      have hlt := hx.size_lt
      exact hbelow x x (by omega) (hrebuilt.reaches hx.reaches).lowers

/-- Lowering while simplifying leaves what a pass without reducers leaves of the lowered tree, at
every depth of at least the size of the lowered tree. A pass that is allowed less may run out of
depth, as the lowered tree can be of any size, but it leaves no other tree. -/
theorem simplify_lowers (rs : List RuleSet) {r : Registry} {e e' : Expr} (h : r.Lowers e e') :
    ∃ t, ((ofRules rs).simplify e').outcome = .ok t ∧
      (∀ depth, e'.size ≤ depth →
        (((ofRules rs).withRegistry r).simplifyWithin depth e).outcome = .ok t) ∧
      ((((ofRules rs).withRegistry r).simplify e).outcome = .ok t ∨
        (((ofRules rs).withRegistry r).simplify e).outcome = .error .tooDeep) := by
  have hc := collapsing_ofRules rs
  have hdeep (depth : Nat) (hd : e'.size ≤ depth) :=
    hc.outcome_simplifyWithin_of_lowers h hd
  refine ⟨(ofRules rs).result e', hc.outcome_simplify e', hdeep, ?_⟩
  have hrefines := ((ofRules rs).withRegistry r).refines_simplifyWithin
    (Nat.le_max_left (depthFor e) e'.size) e
  rw [← hdeep _ (Nat.le_max_right (depthFor e) e'.size)]
  exact hrefines.outcome_cases

/-- With `@both(x)` for `x && x` and `@flag()` for `a`, `!@both(@flag())` lowers to `!(a && a)`, in
which the operand of the outer extension has been lowered twice. -/
theorem simplify_lowers_repeated :
    let r : Registry := (Registry.empty.register "flag" fun _ => .parameter "a").register "both"
      fun | [x] => .and x x | _ => .bool true
    let e : Expr := .not (.extension "both" [.extension "flag" []])
    let e' : Expr := .not (.and (.parameter "a") (.parameter "a"))
    r.Lowers e e' ∧ ∃ t, ((ofRules [.full]).simplify e').outcome = .ok t ∧
      (∀ depth, e'.size ≤ depth →
        (((ofRules [.full]).withRegistry r).simplifyWithin depth e).outcome = .ok t) ∧
      ((((ofRules [.full]).withRegistry r).simplify e).outcome = .ok t ∨
        (((ofRules [.full]).withRegistry r).simplify e).outcome = .error .tooDeep) := by
  intro r e e'
  have hflag : r.Lowers (.extension "flag" []) (.parameter "a") :=
    .node (n := .parameter "a") id rfl rfl fun _ hc => nomatch hc
  have hboth : r.Lowers (.extension "both" [.extension "flag" []])
      (.and (.parameter "a") (.parameter "a")) := by
    refine .node (n := .binary (.logical .and) _ _) (fun _ => .parameter "a") rfl rfl ?_
    intro c hc
    have hc' : c = .extension "flag" [] := by
      simpa [Node.reached, Node.children] using hc
    rw [hc']
    exact hflag
  have he : r.Lowers e e' := by
    refine .node (n := .unary .not _) (fun _ => .and (.parameter "a") (.parameter "a")) rfl rfl ?_
    intro c hc
    have hc' : c = .extension "both" [.extension "flag" []] := by
      simpa [Node.reached, Node.children] using hc
    rw [hc']
    exact hboth
  exact ⟨he, simplify_lowers [.full] he⟩

end Simplifier

end ExprTree
