import ExprTree.Proofs.Rules.Pipeline
import ExprTree.Proofs.Text.Reading

/-!
# Equivalence without rules

Without rules a pass changes nothing, so two expressions are equivalent when they have the same
text. This is more than being the same tree: an element access, like every access, is written
without brackets, so `-a[b]` is the text of the negated element as well as of an element of `-a`.
-/

namespace ExprTree.Simplifier

open ExprTree.Expr

theorem result_ofRules_nil (e : Expr) : (ofRules []).result e = e := by
  induction e using Expr.induct with
  | node n ih =>
    have hchildren : n.mapReached (ofRules []).result = n :=
      Node.mapReached_eq_self fun c hc => ih c (Node.mem_children_of_mem_reached hc)
    rcases result_ofRules_cases [] n with heq | ⟨r, hr, -⟩
    · rw [heq, hchildren]
    · cases hr

theorem outcome_isEquivalent_ofRules_nil (a b : Expr) :
    ((ofRules []).isEquivalent a b).outcome = .ok (decide (a.text = b.text)) := by
  rw [(collapsing_ofRules []).outcome_isEquivalent, result_ofRules_nil, result_ofRules_nil]

/-- Without rules, two legible expressions are equivalent when their texts are read as the same
tree. -/
theorem isEquivalent_iff_asRead {a b : Expr} (ha : a.Legible) (hb : b.Legible) :
    ((ofRules []).isEquivalent a b).outcome = .ok (decide (a.asRead = b.asRead)) := by
  rw [outcome_isEquivalent_ofRules_nil]
  simp only [ha.text_eq_iff hb]

/-- An element of a negated array passes for the negated element. -/
theorem isEquivalent_iff_asRead_negatedElement :
    binary .arrayIndex (negate (parameter "a")) (parameter "b") ≠
        negate (binary .arrayIndex (parameter "a") (parameter "b")) ∧
      ((ofRules []).isEquivalent (binary .arrayIndex (negate (parameter "a")) (parameter "b"))
        (negate (binary .arrayIndex (parameter "a") (parameter "b")))).outcome = .ok true := by
  have ha : (parameter "a").Legible := .node nofun (by decide) nofun
  have hb : (parameter "b").Legible := .node nofun (by decide) nofun
  have hminus {e : Expr} (he : e.Legible) : (negate e).Legible :=
    .node nofun nofun (List.forall_mem_singleton.mpr he)
  have hindex {e f : Expr} (he : e.Legible) (hf : f.Legible) : (binary .arrayIndex e f).Legible :=
    .node nofun nofun (List.forall_mem_cons.mpr ⟨he, List.forall_mem_singleton.mpr hf⟩)
  have hsame : (binary .arrayIndex (negate (parameter "a")) (parameter "b")).asRead =
      (negate (binary .arrayIndex (parameter "a") (parameter "b"))).asRead := rfl
  refine ⟨by decide, ?_⟩
  rw [isEquivalent_iff_asRead (hindex (hminus ha) hb) (hminus (hindex ha hb)), hsame]
  exact congrArg Except.ok (decide_eq_true rfl)

end ExprTree.Simplifier
