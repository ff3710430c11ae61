import ExprTree.Proofs.Rules.Pipeline

/-!
# Normal forms

The shapes that the boolean rules look for, said without reference to the rules. A pass with all
groups leaves none of them at any position that it enters.
-/

namespace ExprTree

open ExprTree.Expr

/-- A shape that a boolean rule collapses. Arms are compared by their texts. -/
inductive Expr.Redex : Expr → Prop where
  | doubleNot (x : Expr) : Redex (.not (.not x))
  | notBool (b : Bool) : Redex (.not (.bool b))
  | boolTest (b : Bool) (x y : Expr) : Redex (.conditional (.bool b) x y)
  | equalConstants (v w : Literal) : Redex (.equal (.constant v) (.constant w))
  | unequalConstants {v w : Literal} : v ≠ .null → w ≠ .null →
      Redex (.notEqual (.constant v) (.constant w))
  | sameParameter (op : Equality) (name : String) :
      Redex (.binary (.equality op) (.parameter name) (.parameter name))
  | boolArm {op : Connective} {b : Bool} {x e : Expr} : Joins op (.bool b) x e → Redex e
  | repeatedArm {op : Connective} {x y : Expr} : SameText x y → Redex (.logical op x y)
  | opposedArms {op : Connective} {x y : Expr} : Opposed SameText x y → Redex (.logical op x y)
  | absorbedArm {op : Connective} {a other x y e : Expr} : Joins op a other e →
      Joins op.dual x y other → SameText a x → Redex e
  | resolvedArms {l r shared rest candidate other : Expr} : Joins .or shared rest l →
      Joins .or candidate other r → SameText shared candidate → Opposed SameText rest other →
      Redex (.and l r)

private theorem isNull_eq_false {v : Literal} (h : v ≠ .null) : v.isNull = false := by
  cases v <;> simp_all [Literal.isNull]

/-- Every shape is one that some group rewrites. -/
theorem Expr.Redex.rewrites {e : Expr} (h : e.Redex) :
    ∃ (g : RuleGroup) (r : Expr), g.Rewrites SameText e r := by
  cases h with
  | doubleNot x => exact ⟨_, _, .doubleNegation x⟩
  | notBool b => exact ⟨_, _, .constantNegation b⟩
  | boolTest b x y => exact ⟨_, _, .constantTest b x y⟩
  | equalConstants v w => exact ⟨_, _, .constantOperands rfl⟩
  | @unequalConstants v w hv hw =>
    have hdecide : (BinaryOp.equality .notEqual).decide? v w = some (!v.sameValue w) := by
      simp only [BinaryOp.decide?, isNull_eq_false hv, isNull_eq_false hw, Bool.or_self,
        Bool.false_eq_true, ↓reduceIte]
    exact ⟨_, _, .constantOperands hdecide⟩
  | sameParameter op name => exact ⟨_, _, .selfComparison op name⟩
  | @boolArm op b x _ hj =>
    by_cases hb : b = op.zero
    · subst hb
      exact ⟨_, _, .zeroArm hj⟩
    · have hunit : b = op.unit := Connective.eq_unit_iff.mpr hb
      subst hunit
      exact ⟨_, _, .unitArm hj⟩
  | repeatedArm hs => exact ⟨_, _, .repeatedArm hs⟩
  | opposedArms ho => exact ⟨_, _, .opposedArms ho⟩
  | absorbedArm hj hj' hs => exact ⟨_, _, .absorbedArm hj hj' hs⟩
  | resolvedArms hl hr hs ho => exact ⟨_, _, .resolvedArms hl hr hs ho⟩

/-- No shape that a rule collapses is left at any position that a pass enters. -/
theorem Simplifier.simplify_normal (e : Expr) :
    ∃ r, (Simplifier.boolean.simplify e).outcome = .ok r ∧ ∀ x, Reaches r x → ¬ x.Redex := by
  have h := collapsing_ofRules [.full]
  rw [boolean_eq_ofRules]
  refine ⟨(ofRules [.full]).result e, h.outcome_simplify e, ?_⟩
  intro x hx hredex
  obtain ⟨g, r, hg⟩ := hredex.rewrites
  have hstable := (h.stable_result e).reaches h hx
  have hmem : g ∈ RuleSet.full.groups := RuleSet.mem_groups.mpr (RuleSet.enabled_full g)
  exact hstable.not_rewrites List.mem_cons_self hmem hg

end ExprTree
