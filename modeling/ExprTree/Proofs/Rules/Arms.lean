import ExprTree.Proofs.Rules.NormalForm

/-!
# The arms of a connective

What the rules can make of two arms of which neither is a truth value is the same whichever of them
stands on the left, so `Merges` says it once for both orders. A pass leaves such arms joined or
merges them, and with all groups it merges them wherever it can. Most of these cases exclude each
other because of the lengths of the texts. A truth value among the arms is dealt with before.
-/

namespace ExprTree

namespace Expr

variable {op : Connective} {a b d e x y : Expr}

theorem Joins.symm (h : Joins op x y e) : Joins op y x e := by
  cases h with
  | inOrder => exact .swapped
  | swapped => exact .inOrder

theorem Opposed.symm {same : Expr → Expr → Prop} (h : Opposed same a b) : Opposed same b a := by
  cases h with
  | left h => exact .right h
  | right h => exact .left h

theorem Joins.bool?_eq_none (h : Joins op x y e) : e.bool? = none := by cases h <;> rfl

theorem Joins.ne_not (h : Joins op x y e) (z : Expr) : e ≠ not z := by
  rintro rfl
  cases h

theorem joins_logical {op' : Connective} {l r : Expr} (h : Joins op' x y (logical op l r)) :
    op' = op ∧ (x = l ∧ y = r ∨ x = r ∧ y = l) := by
  cases h with
  | inOrder => exact ⟨rfl, .inl ⟨rfl, rfl⟩⟩
  | swapped => exact ⟨rfl, .inr ⟨rfl, rfl⟩⟩

theorem Joins.op_unique {op' : Connective} {x' y' : Expr} (h : Joins op x y e)
    (h' : Joins op' x' y' e) : op = op' := by
  cases h' with
  | inOrder | swapped => exact (joins_logical h).1

theorem Joins.arms_eq {op' : Connective} {x' y' : Expr} (h : Joins op x y e)
    (h' : Joins op' x' y' e) : x' = x ∧ y' = y ∨ x' = y ∧ y' = x := by
  cases h with
  | inOrder => exact (joins_logical h').2
  | swapped => exact (joins_logical h').2.symm

theorem length_text_not (e : Expr) : (not e).text.length = e.text.length + 1 := by
  rw [text_node]
  change ("!" ++ e.text).length = _
  rw [String.length_append]
  exact Nat.add_comm _ _

private theorem length_text_logical (op : Connective) (l r : Expr) :
    (logical op l r).text.length = l.text.length + r.text.length + 6 := by
  have hsymbol : op.symbol.length = 2 := by cases op <;> rfl
  rw [text_node]
  change ("(" ++ l.text ++ " " ++ op.symbol ++ " " ++ r.text ++ ")").length = _
  simp only [String.length_append, hsymbol]
  change 1 + l.text.length + 1 + 2 + 1 + r.text.length + 1 = _
  omega

theorem Joins.length_text (h : Joins op x y e) :
    e.text.length = x.text.length + y.text.length + 6 := by
  cases h with
  | inOrder => exact length_text_logical op x y
  | swapped =>
    rw [length_text_logical op y x]
    omega

theorem SameText.length_text (h : SameText a b) : a.text.length = b.text.length :=
  congrArg String.length h

theorem Opposed.length_text (h : Opposed SameText a b) :
    a.text.length = b.text.length + 1 ∨ b.text.length = a.text.length + 1 := by
  cases h with
  | left h => exact .inl (by rw [length_text_not, h.length_text])
  | right h => exact .inr (by rw [length_text_not, h.length_text])

theorem Joins.length_text_arm (h : Joins op x y e) (hs : SameText a x) :
    a.text.length + 6 ≤ e.text.length := by
  have := h.length_text
  have := hs.length_text
  omega

theorem Joins.length_text_resolved {shared rest candidate other : Expr}
    (ha : Joins op shared rest a) (hb : Joins op candidate other b)
    (hs : SameText shared candidate) (ho : Opposed SameText rest other) :
    a.text.length = b.text.length + 1 ∨ b.text.length = a.text.length + 1 := by
  have := ha.length_text
  have := hb.length_text
  have := hs.length_text
  have := ho.length_text
  omega

/-- What a rule can make of the arms `a` and `b`, in whichever order they stand. -/
inductive Merges : Connective → Expr → Expr → Expr → Prop where
  | opposed {op : Connective} {a b : Expr} : Opposed SameText a b → Merges op a b (bool op.zero)
  | repeated {op : Connective} {a b d : Expr} : SameText a b → SameText d a → Merges op a b d
  | absorbs {op : Connective} {a b x y : Expr} : Joins op.dual x y b → SameText a x →
      Merges op a b a
  | absorbed {op : Connective} {a b x y : Expr} : Joins op.dual x y a → SameText b x →
      Merges op a b b
  /-- What is left is the shared arm, as it stands in one of the disjunctions. -/
  | resolved {a b d shared rest candidate other : Expr} : Joins .or shared rest a →
      Joins .or candidate other b → SameText shared candidate → Opposed SameText rest other →
      d = shared ∨ d = candidate → Merges .and a b d

theorem Merges.symm (h : Merges op a b d) : Merges op b a d := by
  cases h with
  | opposed ho => exact .opposed ho.symm
  | repeated hs hd => exact .repeated (Eq.symm hs) (Eq.trans hd hs)
  | absorbs hj hs => exact .absorbed hj hs
  | absorbed hj hs => exact .absorbs hj hs
  | resolved ha hb hs ho hd => exact .resolved hb ha (Eq.symm hs) ho.symm hd.symm

/-- Disjunctions that can be resolved can only be resolved, to an arm of both. -/
theorem Merges.exists_arm_of_resolved {shared rest candidate other : Expr}
    (h : Merges .and a b d) (ha : Joins .or shared rest a) (hb : Joins .or candidate other b)
    (hs : SameText shared candidate) (ho : Opposed SameText rest other) :
    ∃ p q p' q', Joins .or p q a ∧ Joins .or p' q' b ∧ SameText p p' ∧ (d = p ∨ d = p') := by
  have hdiffer := ha.length_text_resolved hb hs ho
  cases h with
  | opposed ho' =>
    cases ho' with
    | left => exact (ha.ne_not _ rfl).elim
    | right => exact (hb.ne_not _ rfl).elim
  | repeated hs' =>
    have := hs'.length_text
    omega
  | absorbs hj hs' | absorbed hj hs' =>
    have := hj.length_text_arm hs'
    omega
  | resolved ha' hb' hs' _ hd => exact ⟨_, _, _, _, ha', hb', hs', hd⟩

end Expr

open ExprTree.Expr

private theorem RuleGroup.Rewrites.merges_inOrder {g : RuleGroup} {op : Connective} {l r d : Expr}
    (h : g.Rewrites SameText (.logical op l r) d) (hl : l.bool? = none) (hr : r.bool? = none) :
    Merges op l r d := by
  cases h with
  | @constantOperands _ v w b hb =>
    have hv : v.bool? = none := hl
    simp [BinaryOp.decide?, hv] at hb
  | zeroArm hj => cases hj <;> contradiction
  | unitArm hj => cases hj <;> contradiction
  | opposedArms ho => exact .opposed ho
  | repeatedArm hs => exact .repeated hs rfl
  | absorbedArm hj hj' hs =>
    cases hj with
    | inOrder => exact .absorbs hj' hs
    | swapped => exact .absorbed hj' hs
  | resolvedArms hl hr hs ho => exact .resolved hl hr hs ho (.inl rfl)

/-- A rule that rewrites a connective merges its arms. -/
theorem RuleGroup.Rewrites.merges {g : RuleGroup} {op : Connective} {a b d e : Expr}
    (h : g.Rewrites SameText e d) (hj : Joins op a b e) (ha : a.bool? = none)
    (hb : b.bool? = none) : Merges op a b d := by
  cases hj with
  | inOrder => exact h.merges_inOrder ha hb
  | swapped => exact (h.merges_inOrder hb ha).symm

theorem Expr.Joins.opposed {same : Expr → Expr → Prop} {op : Connective} {a b e : Expr}
    (hj : Joins op a b e) (h : Opposed same a b) :
    RuleGroup.complement.Rewrites same e (.bool op.zero) := by
  cases hj with
  | inOrder => exact .opposedArms h
  | swapped => exact .opposedArms h.symm

theorem Expr.Joins.mapReached {op : Connective} {x y : Expr} {n : Node Expr}
    (h : Joins op x y (node n)) (f : Expr → Expr) :
    Joins op (f x) (f y) (node (n.mapReached f)) := by
  cases h with
  | inOrder => exact .inOrder
  | swapped => exact .swapped

/-- A pass leaves the results of two arms joined or merges them. -/
theorem Simplifier.result_joins_cases (rs : List RuleSet) {op : Connective} {x y e : Expr}
    (hj : Joins op x y e) (hx : ((ofRules rs).result x).bool? = none)
    (hy : ((ofRules rs).result y).bool? = none) :
    Joins op ((ofRules rs).result x) ((ofRules rs).result y) ((ofRules rs).result e) ∨
      Merges op ((ofRules rs).result x) ((ofRules rs).result y) ((ofRules rs).result e) := by
  obtain ⟨n⟩ := e
  have hrebuilt := hj.mapReached (ofRules rs).result
  rcases result_ofRules_cases rs n with heq | ⟨r, -, g, -, hg⟩
  · rw [heq]
    exact .inl hrebuilt
  · exact .inr (hg.merges hrebuilt hx hy)

theorem Expr.Joins.shortCircuit?_eq {op : Connective} {b : Bool} {x e : Expr}
    (h : Joins op (.bool b) x e) :
    shortCircuit? e = some (if b = op.zero then .bool op.zero else x) := by
  by_cases hb : b = op.zero
  · subst hb
    cases h <;> simp [shortCircuit?, isBool_iff]
  · have hunit : b = op.unit := Connective.eq_unit_iff.mpr hb
    by_cases hx : x = .bool op.zero
    · subst hx
      cases h <;> simp [shortCircuit?, isBool_iff, hb]
    · subst hunit
      by_cases hx' : x = .bool op.unit
      · subst hx'
        cases h <;> simp [shortCircuit?, isBool_iff, hb]
      · cases h <;> simp [shortCircuit?, isBool_iff, hb, hx, hx']

theorem shortCircuit?_of_constantFolding? {op : Connective} {l r d : Expr}
    (h : constantFolding? (.logical op l r) = some d) :
    shortCircuit? (.logical op l r) = some d := by
  have hrewrites : RuleGroup.constantFolding.Rewrites (Query.Same id) (.logical op l r) d :=
    RuleGroup.rewrites_of_value h
  cases hrewrites with
  | @constantOperands _ v w b hdecide =>
    obtain ⟨p, hp, hdecide⟩ := Option.bind_eq_some_iff.mp hdecide
    have hl : constant v = .bool p := bool?_eq_some.mp hp
    rw [hl, Joins.inOrder.shortCircuit?_eq]
    split at hdecide
    · rename_i hzero
      cases hdecide
      rw [if_pos hzero, hzero]
    · rename_i hzero
      have hr : constant w = .bool b := bool?_eq_some.mp hdecide
      rw [if_neg hzero, hr]

theorem Expr.Joins.redex {op : Connective} {a b d e : Expr} (hj : Joins op a b e)
    (h : Merges op a b d) : e.Redex := by
  cases h with
  | opposed ho =>
    cases hj with
    | inOrder => exact .opposedArms ho
    | swapped => exact .opposedArms ho.symm
  | repeated hs =>
    cases hj with
    | inOrder => exact .repeatedArm hs
    | swapped => exact .repeatedArm (Eq.symm hs)
  | absorbs hj' hs => exact .absorbedArm hj hj' hs
  | absorbed hj' hs => exact .absorbedArm hj.symm hj' hs
  | resolved ha hb hs ho =>
    cases hj with
    | inOrder => exact .resolvedArms ha hb hs ho
    | swapped => exact .resolvedArms hb ha (Eq.symm hs) ho.symm

theorem Expr.Joins.bool?_eq_none_of_not_redex {op : Connective} {a b e : Expr}
    (hj : Joins op a b e) (h : ¬ e.Redex) : a.bool? = none := by
  cases ha : a.bool? with
  | none => rfl
  | some v =>
    rw [bool?_eq_some] at ha
    subst ha
    exact (h (.boolArm hj)).elim

namespace Simplifier

/-- A truth value among the arms is dealt with before the arms are compared. -/
theorem result_of_shortCircuit? {op : Connective} {x y d : Expr}
    (h : shortCircuit? (.logical op (Simplifier.boolean.result x) (Simplifier.boolean.result y)) =
      some d) : Simplifier.boolean.result (.logical op x y) = d := by
  rw [boolean_eq_ofRules] at h ⊢
  generalize hl : (ofRules [.full]).result x = l, hr : (ofRules [.full]).result y = r at h
  have hfirst : (RuleGroup.all.findSome? fun g =>
      (g.rule (.logical op l r)).value (ofRules [.full]).result) = some d := by
    rw [List.findSome?_eq_some_iff]
    cases hfolding : constantFolding? (.logical op l r) with
    | none =>
      refine ⟨[.doubleNegation, .constantFolding, .selfComparison], .shortCircuit, _, rfl, h, ?_⟩
      simp only [List.forall_mem_cons, List.not_mem_nil, false_implies, implies_true, and_true]
      exact ⟨rfl, hfolding, rfl⟩
    | some d' =>
      have hsame := shortCircuit?_of_constantFolding? hfolding
      rw [h] at hsame
      cases hsame
      exact ⟨[.doubleNegation], .constantFolding, _, rfl, hfolding,
        List.forall_mem_singleton.mpr rfl⟩
  rw [result_ofRules_node]
  change (RuleGroup.all.findSome? fun g => (g.rule (.logical op ((ofRules [.full]).result x)
    ((ofRules [.full]).result y))).value (ofRules [.full]).result).getD _ = d
  rw [hl, hr, hfirst]
  rfl

theorem result_of_truth {op : Connective} {x y e : Expr} (hj : Joins op x y e) {b : Bool}
    (hx : Simplifier.boolean.result x = .bool b) : Simplifier.boolean.result e =
      if b = op.zero then .bool op.zero else Simplifier.boolean.result y := by
  cases hj with
  | inOrder =>
    apply result_of_shortCircuit?
    rw [hx]
    exact Joins.inOrder.shortCircuit?_eq
  | swapped =>
    apply result_of_shortCircuit?
    rw [hx]
    exact Joins.swapped.shortCircuit?_eq

theorem collapsing_boolean : Simplifier.boolean.Collapsing := collapsing_ofRules [.full]

theorem not_redex_result (e : Expr) : ¬ (Simplifier.boolean.result e).Redex := by
  intro hredex
  obtain ⟨g, r, hg⟩ := hredex.rewrites
  have henabled : ∃ r ∈ [RuleSet.full], r.enabled g = true :=
    ⟨_, List.mem_cons_self, RuleSet.enabled_full g⟩
  exact not_rewrites_result henabled e r hg

section Arms

variable {op : Connective} {x y e : Expr} (hj : Joins op x y e)
  (hx : (Simplifier.boolean.result x).bool? = none)
  (hy : (Simplifier.boolean.result y).bool? = none)

include hj hx hy

theorem result_merges {d : Expr}
    (h : Merges op (Simplifier.boolean.result x) (Simplifier.boolean.result y) d) :
    Merges op (Simplifier.boolean.result x) (Simplifier.boolean.result y)
      (Simplifier.boolean.result e) := by
  rcases result_joins_cases [.full] hj hx hy with hjoins | hmerges
  · exact (not_redex_result e (hjoins.redex h)).elim
  · exact hmerges

theorem joins_result_of_not_merges
    (h : ∀ d, ¬ Merges op (Simplifier.boolean.result x) (Simplifier.boolean.result y) d) :
    Joins op (Simplifier.boolean.result x) (Simplifier.boolean.result y)
      (Simplifier.boolean.result e) := by
  rcases result_joins_cases [.full] hj hx hy with hjoins | hmerges
  · exact hjoins
  · exact (h _ hmerges).elim

end Arms

end Simplifier

end ExprTree
