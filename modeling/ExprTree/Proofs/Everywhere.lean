import ExprTree.Proofs.Pass

/-!
# One function at every node

`Expr.everywhere f σ` applies `f` to every node that a pass enters, once the children of the node
are done, and `σ` to the variables that the node declares. A pass whose transformers do `f` to a
node does this to the tree, unless a visit on the way fails.
-/

namespace ExprTree

namespace Expr

section Para

variable {α : Type} (step : Node (Expr × α) → α)

private def withSelf (n : Node (Expr × α)) : Expr × α := (node (n.map Prod.fst), step n)

/-- Computes bottom-up: `step` gets each node with its children beside their results. -/
def para (e : Expr) : α := (fold (withSelf step) e).2

private theorem fst_fold_withSelf (e : Expr) : (fold (withSelf step) e).1 = e := by
  induction e using induct with
  | node n ih =>
    rw [fold_node, withSelf, Node.map_map]
    apply congrArg node
    apply Node.eq_of_shape_eq (Node.shape_map _ n)
    rw [Node.children_map, List.map_congr_left ih, List.map_id']

theorem para_node (n : Node Expr) :
    para step (node n) = step (n.map fun e => (e, para step e)) := by
  rw [para, fold_node, withSelf]
  apply congrArg step
  apply Node.map_congr
  intro e _
  exact Prod.ext (fst_fold_withSelf step e) rfl

end Para

/-- Applies `f` to every node that a pass enters, once its children are done, and `σ` to the
variables that the node declares. -/
def everywhere (f : Expr → Expr) (σ : String → String) : Expr → Expr :=
  para fun n =>
    -- a child that a pass does not enter stays as it is
    f (node (((n.mapReached fun (_, done) => (done, done)).map Prod.fst).mapDeclared σ))

theorem everywhere_node (f : Expr → Expr) (σ : String → String) (n : Node Expr) :
    everywhere f σ (node n) = f (node ((n.mapReached (everywhere f σ)).mapDeclared σ)) := by
  rw [everywhere, para_node, ← everywhere]
  apply congrArg fun m => f (node (Node.mapDeclared σ m))
  apply Node.eq_of_shape_eq
  · simp only [Node.shape_map, Node.shape_mapReached]
  · simp only [Node.children_eq_append, Node.reached_map, Node.kept_map, Node.reached_mapReached,
      Node.kept_mapReached, List.map_map, Function.comp_def, List.map_id']

end Expr

open ExprTree.Expr

/-- Whatever is answered, the transformer asks nothing and makes `f e` of a node `e`. -/
structure Transformer.ActsAs (t : Transformer) (f : Expr → Expr) : Prop where
  asks : ∀ answer e, (t.rule e).Asks answer fun _ => False
  value : ∀ answer e, ((t.rule e).value answer).getD e = f e

theorem Transformer.actsAs_ofFun {rule : Expr → Option Expr} {f : Expr → Expr}
    (h : ∀ e, (rule e).getD e = f e) : (ofFun rule).ActsAs f where
  asks _ _ := trivial
  value _ e := h e

/-- A parameter stays a parameter only with the name that `σ` says, and a construction stays one
only as it is. -/
structure Expr.Fits (f : Expr → Expr) (σ : String → String) : Prop where
  parameter : ∀ x, (f (.parameter x)).category = .parameter → f (.parameter x) = .parameter (σ x)
  new : ∀ c, (f (.new c)).category = .new → f (.new c) = .new c

def Position.slot {ε : Type} : Position ε → Slot
  | expression _ => .any
  | parameter _ => .only .parameter
  | construct _ => .only .new

/-- The failure to put the expression into the slot, if it does not go there. -/
def Slot.misfits (slot : Slot) (e : Expr) : List Failure :=
  if slot.admits e then [] else [.misplaced slot e]

theorem Run.endsIn_expect {α : Type} {category : Category} {read : Expr → Option α} {e : Expr}
    {a : α} (hread : e.category = category → read e = some a)
    (hnone : e.category ≠ category → read e = none) :
    (Run.expect category read e).EndsIn ((Slot.only category).misfits e) a := by
  unfold Run.expect Slot.misfits Slot.admits
  by_cases h : e.category = category
  · simp only [hread h, h]
    rfl
  · simp only [hnone h, h]
    rfl

theorem Expr.parameter?_eq_none {e : Expr} (h : e.category ≠ .parameter) :
    e.parameter? = none := by
  obtain ⟨n⟩ := e
  cases n with
  | parameter => exact absurd rfl h
  | _ => rfl

theorem Expr.construct?_eq_none {e : Expr} (h : e.category ≠ .new) : e.construct? = none := by
  obtain ⟨n⟩ := e
  cases n with
  | new => exact absurd rfl h
  | _ => rfl

namespace Simplifier

/-- The simplifier with the given transformers, without reducers. -/
def ofTransformers (ts : List Transformer) : Simplifier where
  transformers := ts

variable {f : Expr → Expr} {σ : String → String} {fails : Expr → List Failure}

theorem does_visitor (hf : Fits f σ) {simplify : Expr → Run Expr} {p : Position Expr}
    (hp : (simplify p.toExpr).EndsIn (fails p.toExpr) (everywhere f σ p.toExpr)) :
    (visitor simplify).Does Run.EndsIn
      (fun p => fails p.toExpr ++ p.slot.misfits (everywhere f σ p.toExpr)) (everywhere f σ) σ
      p := by
  cases p with
  | expression e =>
    change (simplify e).EndsIn (fails e ++ []) _
    rwa [List.append_nil]
  | parameter x =>
    have hx : everywhere f σ (Position.parameter x).toExpr = f (.parameter x) :=
      everywhere_node f σ _
    refine hp.bind (Run.endsIn_expect ?_ parameter?_eq_none)
    intro hcategory
    rw [hx] at hcategory ⊢
    rw [hf.parameter x hcategory]
    rfl
  | construct c =>
    have hc : everywhere f σ (Position.construct c).toExpr =
        f (.new (c.map (everywhere f σ))) := everywhere_node f σ _
    refine hp.bind (Run.endsIn_expect ?_ construct?_eq_none)
    intro hcategory
    rw [hc] at hcategory ⊢
    rw [hf.new _ hcategory]
    rfl

variable {s : Simplifier}

/-- One level of a pass: the positions of the node are visited, and the rebuilt node is handed to
the transformers. -/
theorem endsIn_succ (hs : s.registry = {}) (hf : Fits f σ) {n m : Node Expr} {depth : Nat}
    (hp : ∀ p ∈ n.positions,
      (s.simplifyWithin depth p.toExpr).EndsIn (fails p.toExpr) (everywhere f σ p.toExpr))
    (hm : (n.mapReached (everywhere f σ)).mapDeclared σ = m)
    (ht : ((s.transform (node m)).run (s.simplifyWithin depth) Run.report).EndsIn [] (f (node m))) :
    (s.simplifyWithin (depth + 1) (node n)).EndsIn
      (n.positions.flatMap fun p => fails p.toExpr ++ p.slot.misfits (everywhere f σ p.toExpr))
      (everywhere f σ (node n)) := by
  subst hm
  rw [← everywhere_node f σ n] at ht
  have hreduce : (liftM (s.registry.reduce (node n)) : Run Expr).EndsIn [] (node n) := by
    rw [hs, Registry.reduce_empty]
    rfl
  have hrebuild := Run.EndsIn.sequential.rebuild fun p h => does_visitor hf (hp p h)
  have hall : (s.simplifyWithin (depth + 1) (node n)).EndsIn
      ([] ++ (n.positions.flatMap _ ++ [])) (everywhere f σ (node n)) :=
    hreduce.bind (hrebuild.bind ht)
  rwa [List.nil_append, List.append_nil] at hall

/-- There are no reducers, and whatever is answered, the transformers ask nothing and make `f e` of
a node `e`. -/
structure ActsAs (s : Simplifier) (f : Expr → Expr) : Prop where
  registry : s.registry = {}
  asks : ∀ answer e, (s.transform e).Asks answer fun _ => False
  value : ∀ answer e, (s.transform e).value answer = f e

theorem actsAs_singleton {t : Transformer} (h : t.ActsAs f) :
    (ofTransformers [t]).ActsAs f where
  registry := rfl
  asks answer e := by
    rw [asks_transform]
    change (Query.inTurn [t.step] e).Asks answer _
    rw [Query.asks_inTurn_cons]
    exact ⟨(Query.asks_named ..).mpr (h.asks answer e), trivial⟩
  value answer e := by
    rw [value_transform_eq_foldl]
    exact h.value answer e

/-- A pass of transformers that ask nothing needs no more depth than the tree has nodes. -/
theorem ActsAs.endsIn (h : s.ActsAs f) (fails : Expr → List Failure) (hf : Fits f σ)
    (hfails : ∀ n, fails (node n) =
      n.positions.flatMap fun p => fails p.toExpr ++ p.slot.misfits (everywhere f σ p.toExpr))
    {e : Expr} {depth : Nat} (hd : e.size ≤ depth) :
    (s.simplifyWithin depth e).EndsIn (fails e) (everywhere f σ e) := by
  induction depth generalizing e with
  | zero =>
    have := e.size_pos
    omega
  | succ depth ih =>
    obtain ⟨n⟩ := e
    rw [hfails]
    apply endsIn_succ h.registry hf
    · intro p hp
      have hlt := Position.size_toExpr_lt hp
      exact ih (by omega)
    · rfl
    · change _ = Except.ok _
      rw [← h.value id]
      exact ((h.asks id _).mono fun _ => False.elim).outcome_run

end Simplifier

end ExprTree
