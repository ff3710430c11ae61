import ExprTree.Proofs.Rules.Rewrites
import ExprTree.Simplifier

/-!
# Collapsing rules

A collapsing rule asks only about what stands below a node, and puts something from below the
node, or a truth value, in its place. Rules applied in turn collapse when each of them does, and
all boolean rules do.
-/

namespace ExprTree

open ExprTree.Expr

/-- Unary and binary operations and conditionals. -/
def Category.isOperation : Category → Bool
  | .unary | .binary | .conditional => true
  | _ => false

/-- An operation gives way to something below it or to a truth value. -/
structure Expr.Collapses (e r : Expr) : Prop where
  operation : e.category.isOperation = true
  result : Below e r ∨ ∃ b, r = .bool b

theorem Expr.one_lt_size_of_isOperation {e : Expr} (h : e.category.isOperation = true) :
    1 < e.size := by
  obtain ⟨n⟩ := e
  cases n <;> try cases h
  case unary op x =>
    have := x.size_pos
    rw [size_unary]
    omega
  case binary op l r =>
    have := l.size_pos
    rw [size_binary]
    omega
  case conditional t a b =>
    have := t.size_pos
    rw [size_conditional]
    omega

namespace Expr.Collapses

theorem size_lt {e r : Expr} (h : Collapses e r) : r.size < e.size := by
  rcases h.result with hr | ⟨b, rfl⟩
  · exact hr.size_lt
  · rw [size_constant]
    exact one_lt_size_of_isOperation h.operation

theorem ne {e r : Expr} (h : Collapses e r) : r ≠ e := by
  intro heq
  subst heq
  exact Nat.lt_irrefl _ h.size_lt

theorem trans {a b c : Expr} (hab : Collapses a b) (hbc : Collapses b c) : Collapses a c := by
  refine ⟨hab.operation, ?_⟩
  rcases hab.result with hb | ⟨v, rfl⟩
  · rcases hbc.result with hc | hc
    · exact .inl (hb.trans hc)
    · exact .inr hc
  · exact nomatch hbc.operation

end Expr.Collapses

/-- Every question is about something below the node, and every result is a collapse. -/
structure CollapsingRule (rule : Expr → Query (Option Expr)) : Prop where
  asks : ∀ answer e, (rule e).Asks answer (Below e)
  leaves : ∀ answer e r, (rule e).value answer = some r → Collapses e r

namespace CollapsingRule

variable {rule : Expr → Query (Option Expr)}

theorem named (h : CollapsingRule rule) (name : String) :
    CollapsingRule (Query.named name rule) where
  asks answer e := (Query.asks_named name rule e).mpr (h.asks answer e)
  leaves answer e r hr := h.leaves answer e r (by rwa [Query.value_named] at hr)

private theorem inTurn_leaves {rules : List (Expr → Query (Option Expr))}
    (h : ∀ rule ∈ rules, CollapsingRule rule) (answer : Expr → Expr) (e r : Expr)
    (hr : (Query.inTurn rules e).value answer = some r) : Collapses e r := by
  induction rules generalizing e r with
  | nil => cases hr
  | cons rule rest ih =>
    have hrest := ih fun rule hm => h rule (List.mem_cons_of_mem _ hm)
    cases hv : (rule e).value answer with
    | none =>
      rw [Query.value_inTurn_of_none hv] at hr
      exact hrest e r hr
    | some after =>
      have hafter := (h rule List.mem_cons_self).leaves answer e after hv
      rw [Query.value_inTurn_of_some hv] at hr
      cases hw : (Query.inTurn rest after).value answer with
      | none =>
        rw [hw] at hr
        cases hr
        exact hafter
      | some last =>
        rw [hw] at hr
        cases hr
        exact hafter.trans (hrest after last hw)

theorem inTurn {rules : List (Expr → Query (Option Expr))}
    (h : ∀ rule ∈ rules, CollapsingRule rule) : CollapsingRule (Query.inTurn rules) where
  leaves := inTurn_leaves h
  asks answer e := by
    induction rules generalizing e with
    | nil => trivial
    | cons rule rest ih =>
      have hrest := ih fun rule hm => h rule (List.mem_cons_of_mem _ hm)
      have hrule := h rule List.mem_cons_self
      rw [Query.asks_inTurn_cons]
      refine ⟨hrule.asks answer e, ?_⟩
      cases hv : (rule e).value answer with
      | none => exact hrest e
      | some after =>
        apply (hrest after).mono
        intro x hx
        rcases (hrule.leaves answer e after hv).result with hb | ⟨b, rfl⟩
        · exact hb.trans hx
        · obtain ⟨c, hc, -⟩ := hx
          cases hc

theorem inTurn_named {ι : Type} {xs : List ι} {name : ι → String}
    {rule : ι → Expr → Query (Option Expr)} (h : ∀ x ∈ xs, CollapsingRule (rule x)) :
    CollapsingRule (Query.inTurn (xs.map fun x => Query.named (name x) (rule x))) := by
  apply inTurn
  rw [List.forall_mem_map]
  exact fun x hx => (h x hx).named (name x)

end CollapsingRule

theorem Expr.Joins.below_first {op : Connective} {x y e : Expr} (h : Joins op x y e) :
    Below e x := by
  cases h with
  | inOrder => exact below_left _ _ _
  | swapped => exact below_right _ _ _

theorem Expr.Joins.below_second {op : Connective} {x y e : Expr} (h : Joins op x y e) :
    Below e y := by
  cases h with
  | inOrder => exact below_right _ _ _
  | swapped => exact below_left _ _ _

theorem Expr.Joins.isOperation {op : Connective} {x y e : Expr} (h : Joins op x y e) :
    e.category.isOperation = true := by
  cases h <;> rfl

theorem RuleGroup.Rewrites.collapses {same : Expr → Expr → Prop} {g : RuleGroup} {e r : Expr}
    (h : g.Rewrites same e r) : Collapses e r := by
  cases h with
  | doubleNegation x => exact ⟨rfl, .inl ((below_unary _ _).trans (below_unary _ _))⟩
  | constantTest b x y => exact ⟨rfl, .inl (below_branch _ _ _ _)⟩
  | constantNegation b => exact ⟨rfl, .inr ⟨_, rfl⟩⟩
  | constantOperands hb => exact ⟨rfl, .inr ⟨_, rfl⟩⟩
  | selfComparison op name => exact ⟨rfl, .inr ⟨_, rfl⟩⟩
  | zeroArm hj => exact ⟨hj.isOperation, .inr ⟨_, rfl⟩⟩
  | unitArm hj => exact ⟨hj.isOperation, .inl hj.below_second⟩
  | opposedArms ho => exact ⟨rfl, .inr ⟨_, rfl⟩⟩
  | repeatedArm hs => exact ⟨rfl, .inl (below_left _ _ _)⟩
  | absorbedArm hj _ _ => exact ⟨hj.isOperation, .inl hj.below_first⟩
  | resolvedArms hl _ _ _ => exact ⟨rfl, .inl ((below_left _ _ _).trans hl.below_first)⟩

theorem RuleGroup.collapsing (g : RuleGroup) : CollapsingRule g.rule where
  asks _ e := g.asks_rule e
  leaves _ _ _ h := (rewrites_of_value h).collapses

theorem RuleSet.collapsing (r : RuleSet) : CollapsingRule r.rule :=
  CollapsingRule.inTurn_named fun g _ => g.collapsing

end ExprTree
