import ExprTree.Proofs.Depth
import ExprTree.Proofs.Everywhere
import ExprTree.Proofs.Lowering
import ExprTree.Proofs.Rules.Pipeline
import ExprTree.Transformers.Leaves
import Mathlib.Order.Filter.AtTopBot.Basic
import Mathlib.Order.Filter.Finite

/-!
# Misplaced nodes

Declared variables have to stay variables, and the construction below an initialiser has to stay a
construction. A pass with a transformer that leaves no node of such a category fails at the first
position, in order of evaluation, that only admits the category; without such a position it
replaces all nodes of the category that it enters.
-/

namespace ExprTree

open ExprTree.Expr Filter

namespace Expr

/-- What stands in the positions that only admit the category, in order of evaluation: what is
below such a position comes before it, and the body of a lambda before its parameters. -/
def typedNodes (k : Category) : Expr → List Expr :=
  para fun n => n.positions.flatMap fun
    | .expression (_, found) => found
    | .parameter x => if k = .parameter then [.parameter x] else []
    | .construct c => c.arguments.flatMap Prod.snd ++
        if k = .new then [.new (c.map Prod.fst)] else []

theorem typedNodes_node (k : Category) (n : Node Expr) :
    typedNodes k (node n) = n.positions.flatMap fun p =>
      typedNodes k p.toExpr ++ if p.slot = .only k then [p.toExpr] else [] := by
  rw [typedNodes, para_node, ← typedNodes, Node.positions_map, List.flatMap_map]
  apply congrArg (n.positions.flatMap ·)
  funext p
  cases p with
  | expression e => simp [Position.map, Position.toExpr, Position.slot]
  | parameter x =>
    have hx : typedNodes k (.parameter x) = [] := by
      rw [typedNodes, para_node]
      rfl
    simp [Position.map, Position.toExpr, Position.slot, hx, eq_comm]
  | construct c =>
    have hc : typedNodes k (.new c) = c.arguments.flatMap (typedNodes k) := by
      rw [typedNodes, para_node, ← typedNodes]
      simp [Node.map, Construct.map, Node.positions, List.flatMap_map]
    simp [Position.map, Position.toExpr, Position.slot, hc, Construct.map, List.flatMap_map,
      Function.comp_def, eq_comm]

private theorem typedNodes_subset {k : Category} {n : Node Expr} {e d : Expr}
    (h : e ∈ n.reached) (hd : d ∈ e.typedNodes k) : d ∈ (node n).typedNodes k := by
  obtain ⟨p, hp, hpos⟩ := exists_mem_positions_of_mem_reached h
  rw [typedNodes_node, List.mem_flatMap]
  refine ⟨p, hp, List.mem_append_left _ ?_⟩
  rcases hpos with rfl | ⟨c, rfl, hc⟩
  · exact hd
  · change d ∈ typedNodes k (node (.new c))
    rw [typedNodes_node, List.mem_flatMap]
    exact ⟨.expression e, List.mem_map_of_mem hc, List.mem_append_left _ hd⟩

theorem mem_typedNodes_iff {k : Category} {e d : Expr} :
    d ∈ e.typedNodes k ↔
      ∃ n, Reaches e (node n) ∧ ∃ p ∈ n.positions, p.slot = .only k ∧ p.toExpr = d := by
  constructor
  · intro h
    induction hs : e.size using Nat.strongRecOn generalizing e with
    | ind size ih =>
      obtain ⟨n⟩ := e
      rw [typedNodes_node, List.mem_flatMap] at h
      obtain ⟨p, hp, hd⟩ := h
      rcases List.mem_append.mp hd with hd | hd
      · obtain ⟨m, hm, hfound⟩ := ih _ (hs ▸ Position.size_toExpr_lt hp) hd rfl
        exact ⟨m, (reaches_of_mem_positions hp).trans hm, hfound⟩
      · by_cases hk : p.slot = .only k
        · rw [if_pos hk, List.mem_singleton] at hd
          exact ⟨n, .refl _, p, hp, hk, hd.symm⟩
        · rw [if_neg hk] at hd
          cases hd
  · rintro ⟨n, hn, p, hp, hk, rfl⟩
    generalize hm : node n = m at hn
    induction hn with
    | refl =>
      subst hm
      rw [typedNodes_node, List.mem_flatMap]
      refine ⟨p, hp, List.mem_append_right _ ?_⟩
      rw [if_pos hk]
      exact List.mem_singleton_self _
    | child hc _ ih => exact typedNodes_subset hc (ih hm)
    | declared =>
      cases hm
      cases hp
    | construct =>
      cases hm
      obtain ⟨e, -, rfl⟩ := List.mem_map.mp hp
      cases hk

end Expr

/-- Alone in a pipeline, the transformer makes `f e` of a node `e`, if the pass may be nested deeply
enough for what it asks. It leaves nodes of other categories alone, and no node of the category in
the category. -/
structure Transformer.Displaces (t : Transformer) (k : Category) (f : Expr → Expr) : Prop where
  leaves : ∀ e, ∃ depth, (((Simplifier.ofTransformers [t]).transform e).run
    ((Simplifier.ofTransformers [t]).simplifyWithin depth) Run.report).outcome = .ok (f e)
  other : ∀ e, e.category ≠ k → f e = e
  category : ∀ e, e.category = k → (f e).category ≠ k

namespace Simplifier

/-- The failure of the first typed node, in order of evaluation, or else the tree with all nodes
replaced. -/
def verdict (k : Category) (f : Expr → Expr) (e : Expr) : Except Failure Expr :=
  match e.typedNodes k with
  | [] => .ok (everywhere f id e)
  | d :: _ => .error (.misplaced (.only k) (everywhere f id d))

def failures (k : Category) (f : Expr → Expr) (e : Expr) : List Failure :=
  (e.typedNodes k).map fun d => .misplaced (.only k) (everywhere f id d)

theorem outcome_eq_verdict {r : Run Expr} {k : Category} {f : Expr → Expr} {e : Expr}
    (h : r.EndsIn (failures k f e) (everywhere f id e)) : r.outcome = verdict k f e := by
  unfold Run.EndsIn failures at h
  unfold verdict
  rw [h]
  cases e.typedNodes k <;> rfl

/-- There is a failure exactly when a pass enters a position that only admits the category. -/
theorem exists_verdict_eq_error_iff {k : Category} {f : Expr → Expr} {e : Expr} :
    (∃ failure, verdict k f e = .error failure) ↔
      ∃ n, Reaches e (node n) ∧ ∃ p ∈ n.positions, p.slot = .only k := by
  have hnodes : (∃ failure, verdict k f e = .error failure) ↔ ∃ d, d ∈ e.typedNodes k := by
    unfold verdict
    cases e.typedNodes k with
    | nil => simp
    | cons d ds => exact ⟨fun _ => ⟨d, List.mem_cons_self⟩, fun _ => ⟨_, rfl⟩⟩
  rw [hnodes]
  constructor
  · rintro ⟨d, hd⟩
    obtain ⟨n, hn, p, hp, hk, -⟩ := mem_typedNodes_iff.mp hd
    exact ⟨n, hn, p, hp, hk⟩
  · rintro ⟨n, hn, p, hp, hk⟩
    exact ⟨p.toExpr, mem_typedNodes_iff.mpr ⟨n, hn, p, hp, hk, rfl⟩⟩

end Simplifier

namespace Transformer.Displaces

variable {t : Transformer} {k : Category} {f : Expr → Expr}

theorem of_actsAs (h : t.ActsAs f) (hother : ∀ e, e.category ≠ k → f e = e)
    (hcategory : ∀ e, e.category = k → (f e).category ≠ k) : t.Displaces k f where
  leaves e := by
    have hs := Simplifier.actsAs_singleton h
    refine ⟨0, ?_⟩
    rw [← hs.value id]
    exact ((hs.asks id e).mono fun _ => False.elim).outcome_run
  other := hother
  category := hcategory

variable (h : t.Displaces k f)
include h

theorem eq_self_of_category {e : Expr} (he : (f e).category = e.category) : f e = e := by
  apply h.other
  intro hk
  exact h.category e hk (he.trans hk)

theorem fits : Fits f id where
  parameter _ hx := h.eq_self_of_category hx
  new _ hc := h.eq_self_of_category hc

theorem misfits (e : Expr) : (Slot.only e.category).misfits (f e) =
    if Slot.only e.category = .only k then [.misplaced (.only k) (f e)] else [] := by
  unfold Slot.misfits Slot.admits
  by_cases hk : e.category = k
  · have hne := h.category e hk
    simp [hk, hne]
  · simp [h.other e hk, hk]

theorem failures_node (n : Node Expr) : Simplifier.failures k f (node n) =
    n.positions.flatMap fun p =>
      Simplifier.failures k f p.toExpr ++ p.slot.misfits (everywhere f id p.toExpr) := by
  have hmisfits (p : Position Expr) : p.slot.misfits (everywhere f id p.toExpr) =
      if p.slot = .only k then [.misplaced (.only k) (everywhere f id p.toExpr)] else [] := by
    cases p with
    | expression e => rfl
    | parameter x =>
      change Slot.misfits _ (everywhere f id (.parameter x)) =
        if _ then [Failure.misplaced _ (everywhere f id (.parameter x))] else _
      rw [everywhere_node]
      exact h.misfits (.parameter x)
    | construct c =>
      change Slot.misfits _ (everywhere f id (.new c)) =
        if _ then [Failure.misplaced _ (everywhere f id (.new c))] else _
      rw [everywhere_node]
      exact h.misfits (.new _)
  rw [Simplifier.failures, typedNodes_node, List.map_flatMap]
  apply congrArg (n.positions.flatMap ·)
  funext p
  rw [List.map_append, ← Simplifier.failures, hmisfits]
  by_cases hk : p.slot = .only k
  · rw [if_pos hk, if_pos hk, List.map_singleton]
  · rw [if_neg hk, if_neg hk, List.map_nil]

end Transformer.Displaces

/-- The run fails only by running out of depth. -/
def Run.OnlyTooDeep {α : Type} (r : Run α) : Prop := ∀ x, r.outcome = .error x → x = .tooDeep

namespace Run.OnlyTooDeep

variable {α β : Type}

theorem of_ok {r : Run α} {a : α} (h : r.outcome = .ok a) : r.OnlyTooDeep := by
  intro x hx
  rw [h] at hx
  cases hx

theorem bind_of_ok {r : Run α} {f : α → Run β} (hr : r.OnlyTooDeep)
    (hf : ∀ a, r.outcome = .ok a → (f a).OnlyTooDeep) : (r >>= f).OnlyTooDeep := by
  intro x hx
  rw [outcome_bind] at hx
  cases ho : r.outcome with
  | error y =>
    rw [ho] at hx
    cases hx
    exact hr _ ho
  | ok a =>
    rw [ho] at hx
    exact hf a ho x hx

theorem compositional : Compositional fun r _ => r.OnlyTooDeep where
  pure _ := of_ok rfl
  report _ := of_ok rfl
  bind hr hf := hr.bind_of_ok fun a _ => hf a

end Run.OnlyTooDeep

namespace Simplifier

private theorem outcome_succ {s : Simplifier} {n : Node Expr}
    (hstep : s.registry.step? (node n) = none) (depth : Nat) :
    (s.simplifyWithin (depth + 1) (node n)).outcome =
      (n.rebuild (visitor (s.simplifyWithin depth)) >>= fun root =>
        (s.transform (node root)).run (s.simplifyWithin depth) Run.report).outcome := by
  have hreduce : (liftM (s.registry.reduce (node n)) : Run Expr).outcome = .ok (node n) :=
    congrArg Except.ok (Registry.value_reduce_of_step? hstep)
  rw [simplifyWithin, Run.outcome_bind_of_ok hreduce, root_node]

section Rules

variable {s : Simplifier} (h : s.Collapsing)
include h

private theorem eq_of_outcome_transform {e d : Expr} (he : e.category.isOperation = false)
    {simplify : Expr → Run Expr}
    (hd : ((s.transform e).run simplify Run.report).outcome = .ok d) : d = e := by
  obtain ⟨answer, hv⟩ := Query.exists_value_of_outcome_run hd
  rw [← hv, h.transform_eq_self answer he]

private theorem eq_of_outcome_parameter (r : Registry) {depth : Nat} {x : String} {d : Expr}
    (hd : ((s.withRegistry r).simplifyWithin depth (.parameter x)).outcome = .ok d) :
    d = .parameter x := by
  cases depth with
  | zero => cases hd
  | succ depth =>
    rw [outcome_succ rfl] at hd
    exact eq_of_outcome_transform h rfl hd

private theorem exists_eq_of_outcome_new (r : Registry) {depth : Nat} {c : Construct Expr}
    {d : Expr} (hd : ((s.withRegistry r).simplifyWithin depth (.new c)).outcome = .ok d) :
    ∃ c', d = .new c' := by
  cases depth with
  | zero => cases hd
  | succ depth =>
    rw [outcome_succ rfl, Node.rebuild, bind_assoc, Run.outcome_bind] at hd
    cases harguments : Run.outcome
        (c.arguments.mapM (visitor ((s.withRegistry r).simplifyWithin depth)).expression) with
    | error x =>
      rw [harguments] at hd
      cases hd
    | ok arguments =>
      rw [harguments] at hd
      exact ⟨_, eq_of_outcome_transform h rfl hd⟩

/-- Whatever the reducers, rules that collapse misplace nothing. -/
theorem onlyTooDeep_simplifyWithin (r : Registry) (depth : Nat) (e : Expr) :
    ((s.withRegistry r).simplifyWithin depth e).OnlyTooDeep := by
  induction depth generalizing e with
  | zero =>
    intro x hx
    cases hx
    rfl
  | succ depth ih =>
    let simplify := (s.withRegistry r).simplifyWithin depth
    have hvisits : (visitor simplify).Related (fun r _ => r.OnlyTooDeep) (visitor simplify) := by
      refine ⟨ih, fun x => ?_, fun c => ?_⟩
      · refine (ih (.parameter x)).bind_of_ok fun d hd => ?_
        rw [eq_of_outcome_parameter h r hd]
        exact .of_ok rfl
      · refine (ih (.new c)).bind_of_ok fun d hd => ?_
        obtain ⟨c', rfl⟩ := exists_eq_of_outcome_new h r hd
        exact .of_ok rfl
    have hquery (q : Query Expr) : (q.run simplify Run.report).OnlyTooDeep :=
      @Query.related_run _ _ Run.OnlyTooDeep.compositional simplify simplify ih q
    have hlowered : (liftM (r.reduce e) : Run Expr).OnlyTooDeep := .of_ok (Run.outcome_liftM _)
    unfold simplifyWithin
    refine hlowered.bind_of_ok fun lowered _ => ?_
    refine Run.OnlyTooDeep.bind_of_ok (Run.OnlyTooDeep.compositional.rebuild hvisits _) ?_
    exact fun root _ => hquery _

end Rules

end Simplifier

namespace Simplifier

variable {t : Transformer} {k : Category} {f : Expr → Expr}

theorem eventually_leaves (h : t.Displaces k f) (e : Expr) :
    ∀ᶠ depth in atTop, (((ofTransformers [t]).transform e).run
      ((ofTransformers [t]).simplifyWithin depth) Run.report).EndsIn [] (f e) := by
  obtain ⟨start, hstart⟩ := h.leaves e
  have hsame := Run.eventually_eq_of_ok (fun hd => Query.refines_run
    ((ofTransformers [t]).refines_simplifyWithin hd) ((ofTransformers [t]).transform e)) hstart
  filter_upwards [hsame] with depth hdepth
  rw [hdepth]
  exact hstart

/-- A pass that may be nested deeply enough ends as the typed nodes say. -/
theorem eventually_endsIn (h : t.Displaces k f) (e : Expr) :
    ∀ᶠ depth in atTop, ((ofTransformers [t]).simplifyWithin depth e).EndsIn
      (failures k f e) (everywhere f id e) := by
  induction hs : e.size using Nat.strongRecOn generalizing e with
  | ind size ih =>
    obtain ⟨n⟩ := e
    have hpositions : ∀ᶠ depth in atTop, ∀ p ∈ n.positions,
        ((ofTransformers [t]).simplifyWithin depth p.toExpr).EndsIn
          (failures k f p.toExpr) (everywhere f id p.toExpr) := by
      apply (eventually_all_finite (List.finite_toSet n.positions)).mpr
      intro p hp
      exact ih _ (hs ▸ Position.size_toExpr_lt hp) _ rfl
    have hleaves := eventually_leaves h (node ((n.mapReached (everywhere f id)).mapDeclared id))
    obtain ⟨start, hstart⟩ := eventually_atTop.mp (hpositions.and hleaves)
    filter_upwards [eventually_gt_atTop start] with depth hd
    -- the positions and the node are visited one level further down
    obtain ⟨below, rfl⟩ := Nat.exists_eq_add_of_le' (Nat.zero_lt_of_lt hd)
    obtain ⟨hp, ht⟩ := hstart below (Nat.le_of_lt_succ hd)
    rw [h.failures_node]
    exact endsIn_succ rfl h.fits hp rfl ht

theorem eventually_outcome (h : t.Displaces k f) (e : Expr) :
    ∀ᶠ depth in atTop, ((ofTransformers [t]).simplifyWithin depth e).outcome = verdict k f e :=
  (eventually_endsIn h e).mono fun _ => outcome_eq_verdict

theorem outcome_simplify_cases (h : t.Displaces k f) (e : Expr) :
    ((ofTransformers [t]).simplify e).outcome = verdict k f e ∨
      ((ofTransformers [t]).simplify e).outcome = .error .tooDeep := by
  have hdeep := (eventually_outcome h e).and (eventually_ge_atTop (depthFor e))
  obtain ⟨depth, houtcome, hd⟩ := hdeep.exists
  rw [← houtcome]
  exact ((ofTransformers [t]).refines_simplifyWithin hd e).outcome_cases

theorem outcome_simplify_of_actsAs (h : t.Displaces k f) (hacts : t.ActsAs f) (e : Expr) :
    ((ofTransformers [t]).simplify e).outcome = verdict k f e := by
  apply outcome_eq_verdict
  exact (actsAs_singleton hacts).endsIn (failures k f) h.fits h.failures_node (size_le_depthFor e)

/-- A transformer that turns every node of the category into a node of another one makes a pass
fail exactly when the pass enters a position that admits only the category, and by the first such
position in order of evaluation; else every node of the category is replaced. A transformer that
asks may run out of depth before. Boolean rules never fail, and with reducers, which can go on
forever, they still misplace nothing. -/
theorem simplify_displaced :
    (∀ t k f, Transformer.Displaces t k f → ∀ e,
      let s := ofTransformers [t]
      (∀ᶠ depth in atTop, (s.simplifyWithin depth e).outcome = verdict k f e) ∧
      ((s.simplify e).outcome = verdict k f e ∨ (s.simplify e).outcome = .error .tooDeep) ∧
      (t.ActsAs f → (s.simplify e).outcome = verdict k f e) ∧
      (∀ d ds, e.typedNodes k = d :: ds → ∃ failure, verdict k f e = .error failure ∧
        failure.message = "transformer changed a " ++ k.name ++ " node into a " ++
          (everywhere f id d).category.name ++ " node: " ++ (everywhere f id d).text) ∧
      ((∃ failure, verdict k f e = .error failure) ↔
        ∃ n, Reaches e (node n) ∧ ∃ p ∈ n.positions, p.slot = .only k)) ∧
    ∀ rs e, (∃ r, ((ofRules rs).simplify e).outcome = .ok r) ∧
      ∀ registry slot d, (((ofRules rs).withRegistry registry).simplify e).outcome ≠
        .error (.misplaced slot d) := by
  constructor
  · intro t k f h e s
    refine ⟨eventually_outcome h e, outcome_simplify_cases h e,
      fun hacts => outcome_simplify_of_actsAs h hacts e, ?_, exists_verdict_eq_error_iff⟩
    intro d ds hd
    exact ⟨_, by rw [verdict, hd], rfl⟩
  · intro rs e
    have hc := collapsing_ofRules rs
    refine ⟨⟨_, hc.outcome_simplify e⟩, ?_⟩
    intro registry slot d hd
    cases onlyTooDeep_simplifyWithin hc registry _ e _ hd

/-- Negating every parameter fails at the parameter of the inner lambda: the body of a lambda comes
before its parameters, and the parameter that is used there may become anything. -/
theorem simplify_displaced_nestedLambda :
    let f : Expr → Expr := fun | .parameter x => .not (.parameter x) | e => e
    let e : Expr := .lambda none false ["a"]
      (.and (.parameter "a") (.lambda none false ["b"] (.parameter "a")))
    Transformer.negateParameters.Displaces .parameter f ∧
      Transformer.negateParameters.ActsAs f ∧
      ((ofTransformers [.negateParameters]).simplify e).outcome =
        .error (.misplaced (.only .parameter) (.not (.parameter "b"))) := by
  intro f e
  have hacts : Transformer.negateParameters.ActsAs f := by
    apply Transformer.actsAs_ofFun
    rintro ⟨n⟩
    cases n <;> rfl
  have h : Transformer.negateParameters.Displaces .parameter f := by
    apply Transformer.Displaces.of_actsAs hacts
    · rintro ⟨n⟩ hk
      cases n with
      | parameter => exact absurd rfl hk
      | _ => rfl
    · rintro ⟨n⟩ hk
      cases n with
      | parameter => exact nofun
      | _ => cases hk
  exact ⟨h, hacts, (simplify_displaced.1 _ _ _ h e).2.2.1 hacts⟩

end Simplifier

end ExprTree
