import ExprTree.Proofs.Rules.Arms

/-!
# Units, zeros and repeated arms

Of the two truth values one drops out of a connective and the other one decides it, and an arm that
is repeated is left once. This holds of every other arm: it need not be a boolean, and may come out
as a truth value itself, as another constant, a negation or a connective.
-/

namespace ExprTree

open ExprTree.Expr

theorem RuleGroup.Rewrites.eq_of_repeated {g : RuleGroup} {op : Connective} {a d : Expr}
    (h : g.Rewrites SameText (.logical op a a) d) : d = a := by
  cases h with
  | @constantOperands _ v _ b hdecide =>
    -- whichever of the two literals decides, it is the one they both are
    obtain ⟨p, hp, hdecide⟩ := Option.bind_eq_some_iff.mp hdecide
    have hv : constant v = .bool p := bool?_eq_some.mp hp
    have hb : b = p := by
      split at hdecide
      · exact (Option.some.inj hdecide).symm
      · exact Option.some.inj (hdecide.symm.trans hp)
    rw [hb, hv]
  | zeroArm hj =>
    obtain ⟨rfl, ⟨hzero, -⟩ | ⟨hzero, -⟩⟩ := joins_logical hj <;> exact hzero
  | unitArm hj => obtain ⟨-, ⟨-, hd⟩ | ⟨-, hd⟩⟩ := joins_logical hj <;> exact hd
  | opposedArms ho =>
    have := ho.length_text
    omega
  | repeatedArm => rfl
  | absorbedArm hj => obtain ⟨-, ⟨hd, -⟩ | ⟨hd, -⟩⟩ := joins_logical hj <;> exact hd
  | resolvedArms hl hr hs ho =>
    have := hl.length_text_resolved hr hs ho
    omega

namespace Simplifier

theorem result_repeated {rs : List RuleSet} (h : ∃ r ∈ rs, r.enabled .armElimination = true)
    (op : Connective) (e : Expr) :
    (ofRules rs).result (.logical op e e) = (ofRules rs).result e := by
  rcases result_ofRules_cases rs (.binary (.logical op) e e) with heq | ⟨_, -, _, -, hrewrites⟩
  · have hrepeated : RuleGroup.armElimination.Rewrites SameText
        ((ofRules rs).result (.logical op e e)) ((ofRules rs).result e) := by
      rw [heq]
      exact .repeatedArm rfl
    exact (not_rewrites_result h _ _ hrepeated).elim
  · exact RuleGroup.Rewrites.eq_of_repeated hrewrites

theorem result_bool (b : Bool) : Simplifier.boolean.result (.bool b) = .bool b :=
  collapsing_boolean.stable_constant _

/-- What drops out of a connective or is repeated in it changes nothing, and what decides it decides
it next to any expression. -/
theorem simplify_unit_zero_repeated (e : Expr) :
    ∃ r, (Simplifier.boolean.simplify e).outcome = .ok r ∧
      (∀ d ∈ [.and (.bool true) e, .and e (.bool true), .or (.bool false) e, .or e (.bool false),
          .and e e, .or e e], (Simplifier.boolean.simplify d).outcome = .ok r) ∧
      (∀ d ∈ [.and (.bool false) e, .and e (.bool false)],
        (Simplifier.boolean.simplify d).outcome = .ok (.bool false)) ∧
      ∀ d ∈ [.or (.bool true) e, .or e (.bool true)],
        (Simplifier.boolean.simplify d).outcome = .ok (.bool true) := by
  have h := collapsing_boolean
  have hunit (op : Connective) {d : Expr} (hj : Joins op (.bool op.unit) e d) :
      (Simplifier.boolean.simplify d).outcome = .ok (Simplifier.boolean.result e) := by
    have hne : op.unit ≠ op.zero := Connective.eq_unit_iff.mp rfl
    rw [h.outcome_simplify, result_of_truth hj (result_bool _), if_neg hne]
  have hzero (op : Connective) {d : Expr} (hj : Joins op (.bool op.zero) e d) :
      (Simplifier.boolean.simplify d).outcome = .ok (.bool op.zero) := by
    rw [h.outcome_simplify, result_of_truth hj (result_bool _), if_pos rfl]
  have hrepeated (op : Connective) :
      (Simplifier.boolean.simplify (.logical op e e)).outcome =
        .ok (Simplifier.boolean.result e) := by
    have henabled : ∃ r ∈ [RuleSet.full], r.enabled .armElimination = true :=
      ⟨_, List.mem_cons_self, rfl⟩
    rw [h.outcome_simplify]
    exact congrArg Except.ok (result_repeated henabled op e)
  refine ⟨_, h.outcome_simplify e, ?_, ?_, ?_⟩ <;>
    simp only [List.forall_mem_cons, List.not_mem_nil, false_implies, implies_true, and_true]
  · exact ⟨hunit .and .inOrder, hunit .and .swapped,
      hunit .or .inOrder, hunit .or .swapped, hrepeated .and, hrepeated .or⟩
  · exact ⟨hzero .and .inOrder, hzero .and .swapped⟩
  · exact ⟨hzero .or .inOrder, hzero .or .swapped⟩

end Simplifier

end ExprTree
