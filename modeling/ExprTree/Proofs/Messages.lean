import ExprTree.Proofs.Stable

/-!
# The messages of a pass

A query reports messages of its own, and its run reports in addition whatever the passes report that
answer its questions. A rule announces itself when it reports something exactly where it applies.
A pass whose transformers announce themselves is silent on the trees that it does not change, and
only there: on such a tree all its questions are about stable trees, and their passes are silent as
well.
-/

namespace ExprTree

open ExprTree.Expr

namespace Query

variable {α β : Type} {answer : Expr → Expr}

/-- What a query itself reports under the given answers. -/
def messages (answer : Expr → Expr) : Query α → List Message
  | done _ => []
  | report message next => message :: next.messages answer
  | simplify e next => (next (answer e)).messages answer

theorem messages_bind (x : Query α) (f : α → Query β) :
    (x.bind f).messages answer =
      x.messages answer ++ (f (x.value answer)).messages answer := by
  induction x with
  | done => rfl
  | report message _ ih => exact congrArg (message :: ·) ih
  | simplify _ _ ih => exact ih _

theorem messages_bind_eq_nil {x : Query α} {f : α → Query β} (hx : x.messages answer = [])
    (hf : ∀ a, (f a).messages answer = []) : (x.bind f).messages answer = [] := by
  rw [messages_bind, hx, hf, List.append_nil]

theorem messages_bind_bool_eq_nil {x : Query Bool} {f : Bool → Query α}
    (hx : x.messages answer = []) (htrue : (f true).messages answer = [])
    (hfalse : (f false).messages answer = []) : (x.bind f).messages answer = [] :=
  messages_bind_eq_nil hx (Bool.forall_bool.mpr ⟨hfalse, htrue⟩)

theorem messages_equivalent (left right : Expr) : (equivalent left right).messages answer = [] :=
  rfl

theorem messages_or_eq_nil {x y : Query Bool} (hx : x.messages answer = [])
    (hy : y.messages answer = []) : (x <||> y).messages answer = [] :=
  messages_bind_bool_eq_nil hx rfl hy

theorem messages_and_eq_nil {x y : Query Bool} (hx : x.messages answer = [])
    (hy : y.messages answer = []) : (x <&&> y).messages answer = [] :=
  messages_bind_bool_eq_nil hx hy rfl

theorem messages_findM_eq_nil {test : α → Query Bool} (h : ∀ x, (test x).messages answer = [])
    (xs : List α) : (xs.findM? test).messages answer = [] := by
  induction xs with
  | nil => rfl
  | cons x xs ih => exact messages_bind_bool_eq_nil (h x) rfl ih

theorem messages_reportChange (name : String) (before after : Expr) :
    (reportChange name before after).messages answer =
      if before.text = after.text then [] else [.changed name before.text after.text] := by
  unfold reportChange
  dsimp only
  split <;> rfl

theorem messages_named (name : String) (rule : Expr → Query (Option Expr)) (e : Expr) :
    (named name rule e).messages answer = (rule e).messages answer ++
      ((rule e).value answer).elim [] fun r => (reportChange name e r).messages answer := by
  change ((rule e).bind _).messages answer = _
  rw [messages_bind]
  cases (rule e).value answer with
  | none => rfl
  | some r =>
    change _ ++ ((reportChange name e r).bind _).messages answer = _
    rw [messages_bind]
    exact congrArg _ (List.append_nil _)

theorem messages_inTurn_cons (rule : Expr → Query (Option Expr))
    (rest : List (Expr → Query (Option Expr))) (e : Expr) :
    (inTurn (rule :: rest) e).messages answer = (rule e).messages answer ++
      (inTurn rest (((rule e).value answer).getD e)).messages answer := by
  change ((rule e).bind _).messages answer = _
  rw [messages_bind]
  cases (rule e).value answer with
  | none => rfl
  | some r =>
    change _ ++ ((inTurn rest r).bind _).messages answer = _
    rw [messages_bind]
    exact congrArg _ (List.append_nil _)

/-- A run is silent when the query reports nothing and the runs behind its questions are silent. -/
theorem Asks.log_run_eq_nil_iff {simplifier : Expr → Run Expr} {x : Query α}
    (hx : x.Asks answer fun e => (simplifier e).outcome = .ok (answer e)) :
    (x.run simplifier Run.report).log = [] ↔
      x.messages answer = [] ∧ x.Asks answer fun e => (simplifier e).log = [] := by
  induction x with
  | done => exact ⟨fun _ => ⟨rfl, trivial⟩, fun _ => rfl⟩
  | report message next ih =>
    rw [run, Run.log_bind_of_ok (Run.outcome_report message), Run.log_report]
    exact iff_of_false (List.cons_ne_nil _ _) fun h => List.cons_ne_nil _ _ h.1
  | simplify e next ih =>
    rw [run, Run.log_bind_of_ok hx.1, List.append_eq_nil_iff, ih _ hx.2]
    exact and_left_comm

end Query

/-- Whatever is answered, the rule reports something exactly when it applies. -/
def Announces (rule : Expr → Query (Option Expr)) : Prop :=
  ∀ answer e, (rule e).messages answer = [] ↔ (rule e).value answer = none

namespace Announces

variable {rule : Expr → Query (Option Expr)}

theorem named (h : Announces rule) (name : String) : Announces (Query.named name rule) := by
  intro answer e
  rw [Query.messages_named, List.append_eq_nil_iff, h answer e, Query.value_named]
  refine ⟨fun hnil => hnil.1, fun hnone => ⟨hnone, ?_⟩⟩
  rw [hnone]
  rfl

theorem named_of_text_ne (hsilent : ∀ answer e, (rule e).messages answer = [])
    (htext : ∀ answer e r, (rule e).value answer = some r → e.text ≠ r.text) (name : String) :
    Announces (Query.named name rule) := by
  intro answer e
  rw [Query.messages_named, hsilent, List.nil_append, Query.value_named]
  cases hv : (rule e).value answer with
  | none => exact ⟨fun _ => rfl, fun _ => rfl⟩
  | some r =>
    rw [Option.elim_some, Query.messages_reportChange, if_neg (htext answer e r hv)]
    exact ⟨fun h => (nomatch h), fun h => (nomatch h)⟩

theorem inTurn {rules : List (Expr → Query (Option Expr))} (h : ∀ rule ∈ rules, Announces rule) :
    Announces (Query.inTurn rules) := by
  intro answer e
  induction rules with
  | nil => exact ⟨fun _ => rfl, fun _ => rfl⟩
  | cons rule rest ih =>
    rw [List.forall_mem_cons] at h
    rw [Query.messages_inTurn_cons, List.append_eq_nil_iff, h.1 answer e]
    cases hv : (rule e).value answer with
    | none =>
      rw [Query.value_inTurn_of_none hv]
      exact (and_iff_right rfl).trans (ih h.2)
    | some r =>
      rw [Query.value_inTurn_of_some hv]
      exact ⟨fun h => (nomatch h.1), fun h => (nomatch h)⟩

theorem inTurn_named {ι : Type} {xs : List ι} {name : ι → String}
    {rule : ι → Expr → Query (Option Expr)}
    (h : ∀ x ∈ xs, Announces (Query.named (name x) (rule x))) :
    Announces (Query.inTurn (xs.map fun x => Query.named (name x) (rule x))) :=
  inTurn (List.forall_mem_map.mpr h)

end Announces

theorem Run.log_expect {α : Type} (category : Category) (read : Expr → Option α) (e : Expr) :
    (expect category read e).log = [] := by
  unfold expect
  split <;> rfl

namespace Simplifier

variable {s : Simplifier}

theorem log_visitor (simplify : Expr → Run Expr) (p : Position Expr) :
    (visitor simplify).log p = (simplify p.toExpr).log := by
  have hexpect {α : Type} (category : Category) (read : Expr → Option α) (r : Run Expr) :
      (r >>= Run.expect category read).log = r.log := by
    cases hr : r.outcome with
    | error _ =>
      rw [Run.log_bind, hr]
      exact List.append_nil _
    | ok a => rw [Run.log_bind_of_ok hr, Run.log_expect, List.append_nil]
  cases p with
  | expression e => rfl
  | parameter x => exact hexpect _ _ _
  | construct c => exact hexpect _ _ _

theorem messages_transform (s : Simplifier) (answer : Expr → Expr) (e : Expr) :
    (s.transform e).messages answer = (s.rule e).messages answer := by
  change ((s.rule e).bind _).messages answer = _
  rw [Query.messages_bind]
  exact List.append_nil _

namespace Collapsing

/-- One level of a pass is silent when the passes inside the node are, the transformers report
nothing of the rebuilt node, and the passes behind their questions are silent. -/
theorem log_simplifyWithin_succ_eq_nil_iff (h : s.Collapsing) {n : Node Expr} {depth : Nat}
    (hd : (node n).size ≤ depth + 1) :
    (s.simplifyWithin (depth + 1) (node n)).log = [] ↔
      (∀ p ∈ n.positions, (s.simplifyWithin depth p.toExpr).log = []) ∧
      (s.rule (node (n.mapReached s.result))).messages s.result = [] ∧
      (s.rule (node (n.mapReached s.result))).Asks s.result
        fun x => (s.simplifyWithin depth x).log = [] := by
  have hlower : (liftM (s.registry.reduce (node n)) : Run Expr) = pure (node n) := by
    rw [h.registry, Registry.reduce_empty]
    rfl
  have hrebuild := (h.follows_visitor hd).leaves_rebuild
  have hsize : (node (n.mapReached s.result)).size ≤ (node n).size :=
    size_mapReached_le fun e _ => h.size_result_le e
  have hasks : (s.transform (node (n.mapReached s.result))).Asks s.result
      fun x => (s.simplifyWithin depth x).outcome = .ok (s.result x) := by
    rw [asks_transform]
    apply (h.rule.asks s.result _).mono
    intro x hx
    have hlt := hx.size_lt
    exact (h.settles x).outcome depth (by omega)
  rw [simplifyWithin, hlower, pure_bind, root_node, Run.log_bind_of_ok hrebuild.2, hrebuild.1,
    List.append_eq_nil_iff, hasks.log_run_eq_nil_iff, messages_transform, asks_transform,
    List.flatMap_eq_nil_iff]
  simp only [log_visitor]

/-- A pass that announces what it does is silent on the stable trees and on no others. -/
theorem log_simplifyWithin_eq_nil_iff (h : s.Collapsing)
    (ha : ∀ t ∈ s.transformers, Announces t.rule) {e : Expr} {depth : Nat} (hd : e.size ≤ depth) :
    (s.simplifyWithin depth e).log = [] ↔ s.Stable e := by
  have hrule : Announces s.rule := Announces.inTurn_named fun t ht => (ha t ht).named t.name
  induction depth generalizing e with
  | zero =>
    have := e.size_pos
    omega
  | succ depth ih =>
    obtain ⟨n⟩ := e
    rw [h.log_simplifyWithin_succ_eq_nil_iff hd]
    constructor
    · intro hsilent
      obtain ⟨hpositions, hmessages, -⟩ := hsilent
      have hchildren : ∀ c ∈ n.reached, s.Stable c := by
        intro c hc
        obtain ⟨p, hp, hat⟩ := exists_mem_positions_of_mem_reached hc
        have hlt := Position.size_toExpr_lt hp
        have hstable := (ih (by omega)).mp (hpositions p hp)
        rcases hat with rfl | ⟨construct, rfl, hmem⟩
        · exact hstable
        · exact hstable.reaches h (.child (n := .new construct) hmem (.refl c))
      rw [Node.mapReached_eq_self hchildren, hrule] at hmessages
      exact h.stable_node_iff.mpr ⟨hchildren, hmessages⟩
    · intro hstable
      obtain ⟨hchildren, hnone⟩ := h.stable_node_iff.mp hstable
      rw [Node.mapReached_eq_self hchildren]
      refine ⟨?_, (hrule _ _).mpr hnone, ?_⟩
      · intro p hp
        have hlt := Position.size_toExpr_lt hp
        exact (ih (by omega)).mpr (hstable.reaches h (reaches_of_mem_positions hp))
      · apply (h.rule.asks s.result _).mono
        intro x hx
        have hlt := hx.size_lt
        exact (ih (by omega)).mpr (hstable.reaches h hx.reaches)

end Collapsing

end Simplifier

end ExprTree
