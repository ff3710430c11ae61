import ExprTree.Proofs.Rules.Arms

/-!
# Absorption

With all groups a pass leaves `x || (x && y)` with the text of the simplified `x`, in every layout
and dually. This fails in one way: the inner connective is simplified first, and where it is left
with an arm of `x`, as in `(p || q) && p`, the outer one has become `(p || q) || p`, which no rule
rewrites.
-/

namespace ExprTree

open ExprTree.Expr

namespace Expr

variable {op : Connective} {a b d p q : Expr}

theorem Merges.sameText_of_sameText (h : Merges op a b d) (hs : SameText a b) : SameText d a := by
  have hlength := hs.length_text
  cases h with
  | opposed ho =>
    have := ho.length_text
    omega
  | repeated _ hd => exact hd
  | absorbs => rfl
  | absorbed => exact hs.symm
  | resolved ha hb hs' ho =>
    have := ha.length_text_resolved hb hs' ho
    omega

theorem Merges.eq_left_of_absorbs (h : Merges op a b d) (hb : Joins op.dual p q b)
    (hs : SameText a p) : d = a := by
  have hshorter := hb.length_text_arm hs
  cases h with
  | opposed ho =>
    have := ho.length_text
    omega
  | repeated hs' =>
    have := hs'.length_text
    omega
  | absorbs => rfl
  | absorbed hj hs' =>
    have := hj.length_text_arm hs'
    omega
  | resolved ha hb' hs' ho =>
    have := ha.length_text_resolved hb' hs' ho
    omega

theorem not_merges_of_arm (ha : Joins op p q a) (hs : SameText b p) : ¬ Merges op a b d := by
  intro h
  have hdual : op.dual ≠ op := by cases op <;> decide
  have hshorter := ha.length_text_arm hs
  cases h with
  | opposed ho =>
    have := ho.length_text
    omega
  | repeated hs' =>
    have := hs'.length_text
    omega
  | absorbs hj hs' =>
    have := hj.length_text_arm hs'
    omega
  | absorbed hj => exact hdual (hj.op_unique ha)
  | resolved ha' => cases ha'.op_unique ha

end Expr

namespace Simplifier

variable {op : Connective} {x y e : Expr}

/-- Arms of one text leave that text. -/
theorem sameText_result (hj : Joins op x y e)
    (hs : SameText (Simplifier.boolean.result x) (Simplifier.boolean.result y)) :
    SameText (Simplifier.boolean.result e) (Simplifier.boolean.result x) := by
  cases hx : (Simplifier.boolean.result x).bool? with
  | some b =>
    rw [bool?_eq_some] at hx
    rw [result_of_truth hj hx]
    split
    · rename_i hzero
      rw [hx, hzero]
      rfl
    · exact hs.symm
  | none =>
    cases hy : (Simplifier.boolean.result y).bool? with
    | some b =>
      rw [bool?_eq_some] at hy
      rw [result_of_truth hj.symm hy]
      split
      · rename_i hzero
        rw [hy, hzero] at hs
        exact hs.symm
      · rfl
    | none => exact (result_merges hj hx hy (.repeated hs rfl)).sameText_of_sameText hs

theorem result_of_absorbs {p q : Expr} (hj : Joins op x y e)
    (hx : (Simplifier.boolean.result x).bool? = none)
    (hy : Joins op.dual p q (Simplifier.boolean.result y))
    (hs : SameText (Simplifier.boolean.result x) p) :
    Simplifier.boolean.result e = Simplifier.boolean.result x :=
  (result_merges hj hx hy.bool?_eq_none (.absorbs hy hs)).eq_left_of_absorbs hy hs

/-- Of two disjunctions that are resolved an arm of the first one is left, up to its spelling. -/
theorem exists_arm_of_resolved {shared rest candidate other : Expr} (hj : Joins .and x y e)
    (hx : Joins .or shared rest (Simplifier.boolean.result x))
    (hy : Joins .or candidate other (Simplifier.boolean.result y))
    (hs : SameText shared candidate) (ho : Opposed SameText rest other) :
    ∃ p q, Joins .or p q (Simplifier.boolean.result x) ∧
      (Simplifier.boolean.result e).bool? = none ∧ SameText (Simplifier.boolean.result e) p := by
  have hmerges := result_merges hj hx.bool?_eq_none hy.bool?_eq_none
    (.resolved hx hy hs ho (.inl rfl))
  obtain ⟨p, q, p', q', hp, hp', hsame, heq | heq⟩ := hmerges.exists_arm_of_resolved hx hy hs ho
  · rw [heq]
    exact ⟨p, q, hp, hp.bool?_eq_none_of_not_redex (not_redex_result x), rfl⟩
  · rw [heq]
    exact ⟨p, q, hp, hp'.bool?_eq_none_of_not_redex (not_redex_result y), hsame.symm⟩

end Simplifier

/-- Joined to `b` by the dual connective, `a` is left with one of its own arms: `(p || q) && p` is
`p`, and so is `(p || q) && (p || !q)`. -/
inductive Expr.LosesArm : Connective → Expr → Expr → Prop where
  | absorbed {op : Connective} {a b p q : Expr} : Joins op p q a → b.bool? = none →
      SameText b p → LosesArm op a b
  | resolved {a b shared rest candidate other : Expr} : Joins .or shared rest a →
      Joins .or candidate other b → SameText shared candidate → Opposed SameText rest other →
      LosesArm .or a b

namespace Simplifier

variable {op : Connective} {x y inner outer : Expr}

/-- Where an arm is lost, it stays beside the expression that it comes from. -/
theorem joins_result_of_losesArm (hinner : Joins op.dual x y inner)
    (houter : Joins op x inner outer)
    (h : LosesArm op (Simplifier.boolean.result x) (Simplifier.boolean.result y)) :
    Joins op (Simplifier.boolean.result x) (Simplifier.boolean.result inner)
      (Simplifier.boolean.result outer) := by
  generalize ha : Simplifier.boolean.result x = a, hb : Simplifier.boolean.result y = b at h
  cases h with
  | @absorbed _ _ _ p q hj hbool hs =>
    subst ha hb
    have hown : Joins op.dual.dual p q (Simplifier.boolean.result x) := by
      rwa [Connective.dual_dual]
    have hleft := result_of_absorbs hinner.symm hbool hown hs
    rw [← hleft] at hbool hs
    exact joins_result_of_not_merges houter hj.bool?_eq_none hbool
      fun _ => not_merges_of_arm hj hs
  | resolved hj hj' hs ho =>
    subst ha hb
    obtain ⟨p, q, hp, hbool, hsame⟩ := exists_arm_of_resolved hinner hj hj' hs ho
    exact joins_result_of_not_merges houter hp.bool?_eq_none hbool
      fun _ => not_merges_of_arm hp hsame

private theorem sameText_result_of_decided (houter : Joins op x inner outer)
    (hdecided : Simplifier.boolean.result inner = .bool op.dual.zero) :
    SameText (Simplifier.boolean.result outer) (Simplifier.boolean.result x) := by
  have hzero : op.dual.zero ≠ op.zero := by cases op <;> decide
  rw [result_of_truth houter.symm hdecided, if_neg hzero]
  rfl

private theorem sameText_result_of_merges (houter : Joins op x inner outer)
    (hy : (Simplifier.boolean.result y).bool? = none)
    (h : ¬ LosesArm op (Simplifier.boolean.result x) (Simplifier.boolean.result y))
    (hmerges : Merges op.dual (Simplifier.boolean.result x) (Simplifier.boolean.result y)
      (Simplifier.boolean.result inner)) :
    SameText (Simplifier.boolean.result outer) (Simplifier.boolean.result x) := by
  have hsame (hs : SameText (Simplifier.boolean.result inner) (Simplifier.boolean.result x)) :=
    sameText_result houter hs.symm
  have hdecided := sameText_result_of_decided houter
  generalize hdual : op.dual = dual, ha : Simplifier.boolean.result x = a,
    hb : Simplifier.boolean.result y = b, hd : Simplifier.boolean.result inner = d at *
  cases hmerges with
  | opposed => exact hdecided rfl
  | repeated _ hs => exact hsame hs
  | absorbs => exact hsame rfl
  | absorbed hj hs =>
    rw [← hdual, Connective.dual_dual] at hj
    exact (h (.absorbed hj hy hs)).elim
  | resolved hj hj' hs ho =>
    cases op with
    | and => cases hdual
    | or => exact (h (.resolved hj hj' hs ho)).elim

theorem sameText_result_of_not_losesArm (hinner : Joins op.dual x y inner)
    (houter : Joins op x inner outer)
    (h : ¬ LosesArm op (Simplifier.boolean.result x) (Simplifier.boolean.result y)) :
    SameText (Simplifier.boolean.result outer) (Simplifier.boolean.result x) := by
  cases hx : (Simplifier.boolean.result x).bool? with
  | some b =>
    rw [bool?_eq_some] at hx
    by_cases hb : b = op.zero
    · rw [result_of_truth houter hx, if_pos hb, hx, hb]
      rfl
    · have hdual : b = op.dual.zero := by
        rw [Connective.zero_dual]
        exact Connective.eq_unit_iff.mpr hb
      have hdecided := result_of_truth hinner hx
      rw [if_pos hdual] at hdecided
      exact sameText_result_of_decided houter hdecided
  | none =>
    cases hy : (Simplifier.boolean.result y).bool? with
    | some b =>
      rw [bool?_eq_some] at hy
      have hleft := result_of_truth hinner.symm hy
      split at hleft
      · exact sameText_result_of_decided houter hleft
      · exact sameText_result houter (congrArg text hleft.symm)
    | none =>
      rcases result_joins_cases [.full] hinner hx hy with hjoins | hmerges
      · rw [result_of_absorbs houter hx hjoins rfl]
        rfl
      · exact sameText_result_of_merges houter hy h hmerges

/-- Each layout of `x || (x && y)`, and dually of `x && (x || y)`, is simplified to the text of the
simplified `x`, unless this loses one of its arms to the simplified `y`. -/
theorem simplify_absorption (x y : Expr) :
    ∃ a b, (Simplifier.boolean.simplify x).outcome = .ok a ∧
      (Simplifier.boolean.simplify y).outcome = .ok b ∧
      ∀ op inner outer, Joins op.dual x y inner → Joins op x inner outer →
        ∃ r, (Simplifier.boolean.simplify outer).outcome = .ok r ∧
          (r.text = a.text ↔ ¬ LosesArm op a b) := by
  have hc := collapsing_boolean
  refine ⟨_, _, hc.outcome_simplify x, hc.outcome_simplify y, ?_⟩
  intro op inner outer hinner houter
  refine ⟨_, hc.outcome_simplify outer, ?_, sameText_result_of_not_losesArm hinner houter⟩
  intro hs hloses
  have hlength := (joins_result_of_losesArm hinner houter hloses).length_text
  have hsame := SameText.length_text hs
  omega

/-- The arm `p` of `p || q` is all that is left of `(p || q) && p`. -/
theorem simplify_absorption_ownArm :
    ∃ a r, (Simplifier.boolean.simplify (.or (.parameter "p") (.parameter "q"))).outcome = .ok a ∧
      (Simplifier.boolean.simplify (.or (.or (.parameter "p") (.parameter "q"))
        (.and (.or (.parameter "p") (.parameter "q")) (.parameter "p")))).outcome = .ok r ∧
      r.text ≠ a.text :=
  ⟨_, _, rfl, rfl, by decide⟩

end Simplifier

end ExprTree
