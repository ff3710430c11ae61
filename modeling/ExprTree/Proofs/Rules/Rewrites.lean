import ExprTree.Proofs.Answer
import ExprTree.Rules.Boolean

/-!
# The boolean rules as a relation

`RuleGroup.Rewrites` says once what each group can make of a node; when two arms are the same is
left open. The rule of a group leaves only what the relation allows, and it does not leave a node
alone that the relation rewrites. Arms are the same for it when their answers have one text.
-/

namespace ExprTree

namespace Expr

theorem not?_eq_some {e x : Expr} : e.not? = some x ↔ e = not x := by
  fun_cases not? e <;> simp_all

theorem literal?_eq_some {e : Expr} {v : Literal} : e.literal? = some v ↔ e = constant v := by
  fun_cases literal? e <;> simp_all

theorem bool?_eq_some {e : Expr} {b : Bool} : e.bool? = some b ↔ e = bool b := by
  rw [bool?, Option.bind_eq_some_iff]
  constructor
  · intro h
    obtain ⟨v, hv, hb⟩ := h
    rw [literal?_eq_some] at hv
    cases v <;> simp_all [Literal.bool?]
  · intro heq
    subst heq
    exact ⟨.bool b, rfl, rfl⟩

theorem isBool_iff {e : Expr} {b : Bool} : e.isBool b = true ↔ e = bool b := by
  rw [isBool, decide_eq_true_iff, bool?_eq_some]

theorem binary?_eq_some {op : BinaryOp} {e x y : Expr} :
    e.binary? op = some (x, y) ↔ e = binary op x y := by
  fun_cases binary? op e <;> simp_all

/-- The expression joins `x` and `y` by a connective, in one order or the other. -/
inductive Joins (op : Connective) (x y : Expr) : Expr → Prop where
  | inOrder : Joins op x y (logical op x y)
  | swapped : Joins op x y (logical op y x)

/-- One of the expressions is the negation of what is the `same` as the other. -/
inductive Opposed (same : Expr → Expr → Prop) : Expr → Expr → Prop where
  | left {a x : Expr} : same a x → Opposed same (not x) a
  | right {a x : Expr} : same a x → Opposed same a (not x)

end Expr

open ExprTree.Expr

/-- What a group can make of a node. -/
inductive RuleGroup.Rewrites (same : Expr → Expr → Prop) : RuleGroup → Expr → Expr → Prop where
  | doubleNegation (x : Expr) : Rewrites same .doubleNegation (.not (.not x)) x
  | constantTest (b : Bool) (x y : Expr) :
      Rewrites same .constantFolding (.conditional (.bool b) x y) (if b then x else y)
  | constantNegation (b : Bool) : Rewrites same .constantFolding (.not (.bool b)) (.bool !b)
  | constantOperands {op : BinaryOp} {l r : Literal} {b : Bool} : op.decide? l r = some b →
      Rewrites same .constantFolding (.binary op (.constant l) (.constant r)) (.bool b)
  | selfComparison (op : Equality) (name : String) :
      Rewrites same .selfComparison
        (.binary (.equality op) (.parameter name) (.parameter name)) (.bool (op = .equal))
  | zeroArm {op : Connective} {x e : Expr} : Joins op (.bool op.zero) x e →
      Rewrites same .shortCircuit e (.bool op.zero)
  | unitArm {op : Connective} {x e : Expr} : Joins op (.bool op.unit) x e →
      Rewrites same .shortCircuit e x
  | opposedArms {op : Connective} {x y : Expr} : Opposed same x y →
      Rewrites same .complement (.logical op x y) (.bool op.zero)
  | repeatedArm {op : Connective} {x y : Expr} : same x y →
      Rewrites same .armElimination (.logical op x y) x
  | absorbedArm {op : Connective} {a other x y e : Expr} : Joins op a other e →
      Joins op.dual x y other → same a x → Rewrites same .armElimination e a
  | resolvedArms {l r shared rest candidate other : Expr} : Joins .or shared rest l →
      Joins .or candidate other r → same shared candidate → Opposed same rest other →
      Rewrites same .armElimination (.and l r) shared

namespace Query

variable (answer : Expr → Expr)

/-- The answers about two expressions have the same text. -/
def Same (a b : Expr) : Prop := (answer a).text = (answer b).text

theorem equivalent_iff {a b : Expr} : (equivalent a b).value answer = true ↔ Same answer a b := by
  rw [value_equivalent, decide_eq_true_iff, Same]

theorem negates_iff {a b : Expr} :
    (negates a b).value answer = true ↔ ∃ x, a = .not x ∧ Same answer b x := by
  unfold negates
  split
  · rename_i x hx
    rw [equivalent_iff]
    rw [not?_eq_some] at hx
    subst hx
    simp
  · rename_i hx
    constructor
    · exact fun h => nomatch h
    · intro h
      obtain ⟨x, rfl, -⟩ := h
      cases hx

theorem complementary_iff {a b : Expr} :
    (complementary a b).value answer = true ↔ Opposed (Same answer) a b := by
  rw [complementary, value_or, Bool.or_eq_true, negates_iff, negates_iff]
  constructor
  · intro h
    rcases h with ⟨x, rfl, h⟩ | ⟨x, rfl, h⟩
    · exact .left h
    · exact .right h
  · intro h
    rcases h with h | h
    · exact .inl ⟨_, rfl, h⟩
    · exact .inr ⟨_, rfl, h⟩

theorem absorbs_iff {op : Connective} {arm other : Expr} :
    (absorbs op arm other).value answer = true ↔
      ∃ x y, Joins op x y other ∧ Same answer arm x := by
  unfold absorbs
  split
  · rename_i x y hxy
    rw [binary?_eq_some] at hxy
    subst hxy
    rw [value_or, Bool.or_eq_true, equivalent_iff, equivalent_iff]
    constructor
    · intro h
      rcases h with h | h
      · exact ⟨x, y, .inOrder, h⟩
      · exact ⟨y, x, .swapped, h⟩
    · intro h
      obtain ⟨_, _, hj | hj, h⟩ := h
      · exact .inl h
      · exact .inr h
  · rename_i hxy
    constructor
    · exact fun h => nomatch h
    · rintro ⟨x, y, hj | hj, -⟩ <;> simp [binary?] at hxy

theorem resolvent_cases {l r e : Expr} (h : (resolvent l r).value answer = some e) :
    ∃ rest candidate other, Joins .or e rest l ∧ Joins .or candidate other r ∧
      Same answer e candidate ∧ Opposed (Same answer) rest other := by
  unfold resolvent at h
  split at h
  · rename_i l₀ l₁ r₀ r₁ hl hr
    rw [binary?_eq_some] at hl hr
    subst hl hr
    simp only [bind_eq, value_bind, value_findM, pure_eq_done, value_done,
      Option.map_eq_some_iff] at h
    obtain ⟨layout, hfind, rfl⟩ := h
    have htest := List.find?_some hfind
    have hmem := List.mem_of_find?_eq_some hfind
    rw [value_and, Bool.and_eq_true, equivalent_iff, complementary_iff] at htest
    simp only [List.mem_cons, List.not_mem_nil, or_false] at hmem
    rcases hmem with rfl | rfl | rfl | rfl
    · exact ⟨_, _, _, .inOrder, .inOrder, htest⟩
    · exact ⟨_, _, _, .inOrder, .swapped, htest⟩
    · exact ⟨_, _, _, .swapped, .inOrder, htest⟩
    · exact ⟨_, _, _, .swapped, .swapped, htest⟩
  · cases h

theorem resolvent_ne_none {l r shared rest candidate other : Expr} (hl : Joins .or shared rest l)
    (hr : Joins .or candidate other r) (hs : Same answer shared candidate)
    (ho : Opposed (Same answer) rest other) : (resolvent l r).value answer ≠ none := by
  intro h
  have htest : (equivalent shared candidate <&&> complementary rest other).value answer = true := by
    rw [value_and, Bool.and_eq_true, equivalent_iff, complementary_iff]
    exact ⟨hs, ho⟩
  cases hl <;> cases hr <;>
    simp only [resolvent, binary?, ↓reduceIte, bind_eq, value_bind, value_findM, pure_eq_done,
      value_done, Option.map_eq_none_iff, List.find?_eq_none, List.forall_mem_cons] at h <;>
    simp [htest] at h

theorem value_collapseComplement (op : Connective) (l r : Expr) :
    (collapseComplement (.logical op l r)).value answer =
      if (complementary r l).value answer then some (.bool op.zero) else none := by
  simp only [collapseComplement, bind_eq, value_bind, pure_eq_done]
  cases (complementary r l).value answer <;> rfl

theorem value_eliminateArm (op : Connective) (l r : Expr) :
    (eliminateArm (.logical op l r)).value answer =
      if (equivalent l r).value answer then some l
      else if (absorbs op.dual l r).value answer then some l
      else if (absorbs op.dual r l).value answer then some r
      else if op = .and then (resolvent l r).value answer else none := by
  simp only [eliminateArm, bind_eq, value_bind, pure_eq_done]
  cases (equivalent l r).value answer with
  | true => rfl
  | false =>
    simp only [Bool.false_eq_true, ↓reduceIte, value_bind]
    cases (absorbs op.dual l r).value answer with
    | true => rfl
    | false =>
      simp only [Bool.false_eq_true, ↓reduceIte, value_bind]
      cases (absorbs op.dual r l).value answer with
      | true => rfl
      | false => by_cases h : op = .and <;> simp [h]

end Query

section Rules

open Query

variable {answer : Expr → Expr}

private theorem constantFolding_cases {e r : Expr} (h : constantFolding? e = some r) :
    RuleGroup.Rewrites (Same answer) .constantFolding e r := by
  unfold constantFolding? at h
  split at h
  · rename_i test x y
    obtain ⟨b, hb, rfl⟩ := Option.map_eq_some_iff.mp h
    rw [bool?_eq_some] at hb
    subst hb
    exact .constantTest b x y
  · obtain ⟨b, hb, rfl⟩ := Option.map_eq_some_iff.mp h
    rw [bool?_eq_some] at hb
    subst hb
    exact .constantNegation b
  · obtain ⟨b, hb, rfl⟩ := Option.map_eq_some_iff.mp h
    exact .constantOperands hb
  · cases h

private theorem selfComparison_cases {e r : Expr} (h : selfComparison? e = some r) :
    RuleGroup.Rewrites (Same answer) .selfComparison e r := by
  unfold selfComparison? at h
  split at h
  · rename_i op x y
    split at h
    · rename_i hxy
      subst hxy
      cases h
      exact .selfComparison op x
    · cases h
  · cases h

private theorem shortCircuit_cases {e r : Expr} (h : shortCircuit? e = some r) :
    RuleGroup.Rewrites (Same answer) .shortCircuit e r := by
  unfold shortCircuit? at h
  split at h
  · rename_i op x y
    simp only [Bool.or_eq_true, isBool_iff] at h
    split at h
    · rename_i hzero
      cases h
      rcases hzero with rfl | rfl
      · exact .zeroArm .inOrder
      · exact .zeroArm .swapped
    · split at h
      · rename_i hunit
        cases h
        subst hunit
        exact .unitArm .inOrder
      · split at h
        · rename_i hunit
          cases h
          subst hunit
          exact .unitArm .swapped
        · cases h
  · cases h

private theorem complement_cases {e r : Expr} (h : (collapseComplement e).value answer = some r) :
    RuleGroup.Rewrites (Same answer) .complement e r := by
  unfold collapseComplement at h
  split at h
  · rename_i op x y
    rw [bind_eq, value_bind] at h
    split at h
    · rename_i hc
      cases h
      rw [complementary_iff] at hc
      cases hc with
      | left hs => exact .opposedArms (.right hs)
      | right hs => exact .opposedArms (.left hs)
    · cases h
  · cases h

private theorem eliminateArm_cases {e r : Expr} (h : (eliminateArm e).value answer = some r) :
    RuleGroup.Rewrites (Same answer) .armElimination e r := by
  by_cases he : ∃ op x y, e = .logical op x y
  · obtain ⟨op, x, y, rfl⟩ := he
    rw [value_eliminateArm] at h
    split at h
    · rename_i hs
      cases h
      exact .repeatedArm ((equivalent_iff answer).mp hs)
    · split at h
      · rename_i ha
        cases h
        obtain ⟨a, b, hj, hs⟩ := (absorbs_iff answer).mp ha
        exact .absorbedArm .inOrder hj hs
      · split at h
        · rename_i ha
          cases h
          obtain ⟨a, b, hj, hs⟩ := (absorbs_iff answer).mp ha
          exact .absorbedArm .swapped hj hs
        · split at h
          · rename_i hop
            subst hop
            obtain ⟨rest, candidate, other, hl, hr, hs, ho⟩ := resolvent_cases answer h
            exact .resolvedArms hl hr hs ho
          · cases h
  · unfold eliminateArm at h
    split at h
    · exact absurd ⟨_, _, _, rfl⟩ he
    · cases h

/-- A group makes of a node only what the relation says. -/
theorem RuleGroup.rewrites_of_value {g : RuleGroup} {e r : Expr}
    (h : (g.rule e).value answer = some r) : g.Rewrites (Same answer) e r := by
  cases g with
  | doubleNegation =>
    replace h : doubleNegation? e = some r := h
    unfold doubleNegation? at h
    split at h
    · cases h
      exact .doubleNegation r
    · cases h
  | constantFolding => exact constantFolding_cases h
  | selfComparison => exact selfComparison_cases h
  | shortCircuit => exact shortCircuit_cases h
  | complement => exact complement_cases h
  | armElimination => exact eliminateArm_cases h

private theorem shortCircuit_ne_none {op : Connective} {l r : Expr}
    (h : ∃ b, l = .bool b ∨ r = .bool b) : shortCircuit? (.logical op l r) ≠ none := by
  obtain ⟨b, hb⟩ := h
  have hcases : b = op.zero ∨ b = op.unit := by
    rw [Connective.eq_unit_iff]
    exact Decidable.em _
  simp only [shortCircuit?, Bool.or_eq_true, isBool_iff]
  split
  · exact Option.some_ne_none _
  · rename_i hzero
    split
    · exact Option.some_ne_none _
    · rename_i hleft
      split
      · exact Option.some_ne_none _
      · rename_i hright
        rcases hb with rfl | rfl <;> rcases hcases with rfl | rfl <;> simp_all

private theorem eliminateArm_ne_none {op : Connective} {l r : Expr}
    (h : (equivalent l r).value answer = true ∨ (absorbs op.dual l r).value answer = true ∨
      (absorbs op.dual r l).value answer = true ∨
      op = .and ∧ (resolvent l r).value answer ≠ none) :
    (eliminateArm (.logical op l r)).value answer ≠ none := by
  rw [value_eliminateArm]
  split
  · exact Option.some_ne_none _
  · split
    · exact Option.some_ne_none _
    · split
      · exact Option.some_ne_none _
      · simp_all

theorem RuleGroup.Rewrites.value_ne_none {g : RuleGroup} {e r : Expr}
    (h : g.Rewrites (Same answer) e r) : (g.rule e).value answer ≠ none := by
  cases h with
  | doubleNegation x => exact Option.some_ne_none _
  | constantTest b x y => exact Option.some_ne_none _
  | constantNegation b => exact Option.some_ne_none _
  | constantOperands hb =>
    change Option.map _ (BinaryOp.decide? _ _ _) ≠ none
    rw [hb]
    exact Option.some_ne_none _
  | selfComparison op name =>
    change (if name = name then _ else _) ≠ none
    rw [if_pos rfl]
    exact Option.some_ne_none _
  | zeroArm hj =>
    cases hj with
    | inOrder => exact shortCircuit_ne_none ⟨_, .inl rfl⟩
    | swapped => exact shortCircuit_ne_none ⟨_, .inr rfl⟩
  | unitArm hj =>
    cases hj with
    | inOrder => exact shortCircuit_ne_none ⟨_, .inl rfl⟩
    | swapped => exact shortCircuit_ne_none ⟨_, .inr rfl⟩
  | @opposedArms op x y ho =>
    have hc : (complementary y x).value answer = true := by
      rw [complementary_iff]
      cases ho with
      | left hs => exact .right hs
      | right hs => exact .left hs
    change ((complementary y x).bind _).value answer ≠ none
    rw [value_bind, hc]
    exact Option.some_ne_none _
  | repeatedArm hs => exact eliminateArm_ne_none (.inl ((equivalent_iff answer).mpr hs))
  | absorbedArm hj hj' hs =>
    have ha := (absorbs_iff answer).mpr ⟨_, _, hj', hs⟩
    cases hj with
    | inOrder => exact eliminateArm_ne_none (.inr (.inl ha))
    | swapped => exact eliminateArm_ne_none (.inr (.inr (.inl ha)))
  | resolvedArms hl hr hs ho =>
    have hne := resolvent_ne_none answer hl hr hs ho
    exact eliminateArm_ne_none (.inr (.inr (.inr ⟨rfl, hne⟩)))

private theorem asks_negates {p : Expr → Prop} {a b : Expr} (hb : p b)
    (ha : ∀ x, a = .not x → p x) : (negates a b).Asks answer p := by
  unfold negates
  split
  · rename_i x hx
    rw [asks_equivalent]
    exact ⟨hb, ha x (not?_eq_some.mp hx)⟩
  · trivial

private theorem asks_complementary {e a b : Expr} (ha : Below e a) (hb : Below e b) :
    (complementary a b).Asks answer (Below e) := by
  apply Asks.or
  · apply asks_negates hb
    intro x heq
    subst heq
    exact ha.trans (below_unary _ _)
  · apply asks_negates ha
    intro x heq
    subst heq
    exact hb.trans (below_unary _ _)

private theorem asks_absorbs {e a other : Expr} (op : Connective) (ha : Below e a)
    (ho : Below e other) : (absorbs op a other).Asks answer (Below e) := by
  unfold absorbs
  split
  · rename_i x y hxy
    rw [binary?_eq_some] at hxy
    subst hxy
    apply Asks.or
    · exact (asks_equivalent _ _).mpr ⟨ha, ho.trans (below_left _ _ _)⟩
    · exact (asks_equivalent _ _).mpr ⟨ha, ho.trans (below_right _ _ _)⟩
  · trivial

private theorem asks_resolvent {e l r : Expr} (hl : Below e l) (hr : Below e r) :
    (resolvent l r).Asks answer (Below e) := by
  unfold resolvent
  split
  · rename_i l₀ l₁ r₀ r₁ hl' hr'
    rw [binary?_eq_some] at hl' hr'
    subst hl' hr'
    have hl₀ := hl.trans (below_left _ _ _)
    have hl₁ := hl.trans (below_right _ _ _)
    have hr₀ := hr.trans (below_left _ _ _)
    have hr₁ := hr.trans (below_right _ _ _)
    rw [bind_eq, asks_bind]
    refine ⟨asks_findM ?_, trivial⟩
    intro layout hmem
    simp only [List.mem_cons, List.not_mem_nil, or_false] at hmem
    rcases hmem with rfl | rfl | rfl | rfl <;>
      exact .and ((asks_equivalent _ _).mpr ⟨‹_›, ‹_›⟩) (asks_complementary ‹_› ‹_›)
  · trivial

private theorem asks_eliminateArm (op : Connective) (l r : Expr) :
    (eliminateArm (.logical op l r)).Asks answer (Below (.logical op l r)) := by
  have hl : Below (.logical op l r) l := below_left _ _ _
  have hr : Below (.logical op l r) r := below_right _ _ _
  simp only [eliminateArm, bind_eq, asks_bind, asks_equivalent, pure_eq_done]
  refine ⟨⟨hl, hr⟩, ?_⟩
  split
  · trivial
  · rw [asks_bind]
    refine ⟨asks_absorbs _ hl hr, ?_⟩
    split
    · trivial
    · rw [asks_bind]
      refine ⟨asks_absorbs _ hr hl, ?_⟩
      split
      · trivial
      · split
        · exact asks_resolvent hl hr
        · trivial

/-- A group asks only about what stands below the node. -/
theorem RuleGroup.asks_rule (g : RuleGroup) (e : Expr) : (g.rule e).Asks answer (Below e) := by
  cases g with
  | doubleNegation | constantFolding | selfComparison | shortCircuit => trivial
  | complement =>
    change (collapseComplement e).Asks answer (Below e)
    unfold collapseComplement
    split
    · rw [bind_eq, asks_bind]
      refine ⟨asks_complementary (below_right _ _ _) (below_left _ _ _), ?_⟩
      split <;> trivial
    · trivial
  | armElimination =>
    change (eliminateArm e).Asks answer (Below e)
    by_cases he : ∃ op x y, e = .logical op x y
    · obtain ⟨op, x, y, rfl⟩ := he
      exact asks_eliminateArm op x y
    · unfold eliminateArm
      split
      · exact absurd ⟨_, _, _, rfl⟩ he
      · trivial

end Rules

end ExprTree
