import ExprTree.Proofs.Rebuild
import ExprTree.Simplifier
import Mathlib.Order.Filter.AtTopBot.Basic

/-!
# The depth of a pass

A pass that may be nested more deeply makes the same run: it only ends where the other one ran out
of depth. So two passes over one tree that both leave a tree leave the same one.
-/

namespace ExprTree

open Filter

variable {α β : Type}

namespace Run

/-- The first run is the second one, unless it runs out of depth. -/
def Refines (r t : Run α) : Prop := r.outcome = .error .tooDeep ∨ r = t

namespace Refines

variable {r t : Run α} {a : α}

theorem refl (r : Run α) : r.Refines r := .inr rfl

theorem outcome_cases (h : r.Refines t) :
    r.outcome = t.outcome ∨ r.outcome = .error .tooDeep := by
  rcases h with h | rfl
  · exact .inr h
  · exact .inl rfl

theorem eq_of_ok (h : r.Refines t) (hr : r.outcome = .ok a) : r = t := by
  rcases h with h | h
  · rw [hr] at h
    cases h
  · exact h

theorem bind_of_ok {f g : α → Run β} (h : r.Refines t)
    (hf : ∀ a, t.outcome = .ok a → (f a).Refines (g a)) : (r >>= f).Refines (t >>= g) := by
  rcases h with h | rfl
  · refine .inl ?_
    rw [outcome_bind, h]
    rfl
  · cases hr : r.outcome with
    | error failure =>
      refine .inr (bind_congr_of_ok fun a ha => ?_)
      rw [hr] at ha
      cases ha
    | ok a =>
      rcases hf a hr with hdeep | heq
      · refine .inl ?_
        rw [outcome_bind_of_ok hr, hdeep]
      · refine .inr (bind_congr_of_ok fun b hb => ?_)
        rw [hr] at hb
        cases hb
        exact heq

theorem bind {f g : α → Run β} (h : r.Refines t) (hf : ∀ a, (f a).Refines (g a)) :
    (r >>= f).Refines (t >>= g) :=
  h.bind_of_ok fun a _ => hf a

theorem compositional : Compositional Refines where
  pure _ := refl _
  report _ := refl _
  bind := bind

end Refines

theorem eventually_eq_of_ok {run : Nat → Run α} {start : Nat} {a : α}
    (hrun : ∀ {d d'}, d ≤ d' → (run d).Refines (run d')) (h : (run start).outcome = .ok a) :
    ∀ᶠ depth in atTop, run depth = run start := by
  filter_upwards [eventually_ge_atTop start] with depth hd
  exact ((hrun hd).eq_of_ok h).symm

end Run

theorem Query.related_run {R : ∀ {α : Type}, Run α → Run α → Prop} (hR : Run.Compositional R)
    {simplify simplify' : Expr → Run Expr} (h : ∀ e, R (simplify e) (simplify' e)) (q : Query α) :
    R (q.run simplify Run.report) (q.run simplify' Run.report) := by
  induction q with
  | done => exact hR.pure _
  | report message next ih => exact hR.bind (hR.report message) fun _ => ih
  | simplify e next ih => exact hR.bind (h e) ih

theorem Query.refines_run {simplify simplify' : Expr → Run Expr}
    (h : ∀ e, (simplify e).Refines (simplify' e)) (q : Query α) :
    (q.run simplify Run.report).Refines (q.run simplify' Run.report) :=
  q.related_run Run.Refines.compositional h

namespace Simplifier

theorem refines_visitor {simplify simplify' : Expr → Run Expr}
    (h : ∀ e, (simplify e).Refines (simplify' e)) :
    (visitor simplify).Related Run.Refines (visitor simplify') where
  expression := h
  parameter _ := (h _).bind fun _ => .refl _
  construct _ := (h _).bind fun _ => .refl _

/-- A pass refines every pass over the tree that may be nested more deeply. -/
theorem refines_simplifyWithin (s : Simplifier) {depth depth' : Nat} (hd : depth ≤ depth')
    (e : Expr) : (s.simplifyWithin depth e).Refines (s.simplifyWithin depth' e) := by
  induction depth generalizing depth' e with
  | zero => exact .inl rfl
  | succ depth ih =>
    obtain ⟨depth', rfl⟩ := Nat.exists_eq_add_of_le' (Nat.lt_of_lt_of_le depth.succ_pos hd)
    have hbelow := ih (Nat.le_of_succ_le_succ hd)
    unfold simplifyWithin
    refine (Run.Refines.refl _).bind fun lowered => ?_
    refine (Run.Refines.compositional.rebuild (refines_visitor hbelow) _).bind fun root => ?_
    exact Query.refines_run hbelow _

end Simplifier

end ExprTree
