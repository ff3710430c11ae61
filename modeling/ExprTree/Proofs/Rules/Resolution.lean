import ExprTree.Proofs.Rules.Negation
import ExprTree.Proofs.Rules.Sound

/-!
# Resolution

With all groups a pass simplifies `(x || y) && (x || !y)` to `x`, whichever clause comes first and
in whichever order their legs stand, if `x` and `y` are plain and come out as different atoms: then
both clauses stay, and of the legs that could be shared only `x` is.
-/

namespace ExprTree

open ExprTree.Expr

namespace Expr

/-- Neither a truth value nor a negation nor a connective. -/
def isAtom : Expr → Bool
  | bool _ | not _ | logical .. => false
  | _ => true

section Atoms

variable {a : Expr} (h : a.isAtom = true)

include h

theorem bool?_eq_none_of_isAtom : a.bool? = none := by
  cases ha : a.bool? with
  | none => rfl
  | some b =>
    rw [bool?_eq_some] at ha
    subst ha
    cases h

theorem ne_not_of_isAtom (x : Expr) : a ≠ not x := by
  rintro rfl
  cases h

theorem not_joins_of_isAtom (op : Connective) (x y : Expr) : ¬ Joins op x y a := by
  intro hj
  cases hj <;> cases h

end Atoms

/-- Different atoms cannot be merged. -/
theorem not_merges_of_isAtom {op : Connective} {a b d : Expr} (ha : a.isAtom = true)
    (hb : b.isAtom = true) (hab : ¬ SameText a b) : ¬ Merges op a b d := by
  intro hmerges
  cases hmerges with
  | opposed ho =>
    cases ho with
    | left => exact ne_not_of_isAtom ha _ rfl
    | right => exact ne_not_of_isAtom hb _ rfl
  | repeated hs => exact hab hs
  | absorbs hj => exact not_joins_of_isAtom hb _ _ _ hj
  | absorbed hj => exact not_joins_of_isAtom ha _ _ _ hj
  | resolved hj => exact not_joins_of_isAtom ha _ _ _ hj

theorem not_merges_not_of_isAtom {op : Connective} {a b d : Expr} (ha : a.isAtom = true)
    (hab : ¬ SameText a b) (hnot : ¬ SameText a (not b)) : ¬ Merges op a (not b) d := by
  intro hmerges
  cases hmerges with
  | opposed ho =>
    cases ho with
    | left => exact ne_not_of_isAtom ha _ rfl
    | right hs => exact hab hs
  | repeated hs => exact hnot hs
  | absorbs hj => exact hj.ne_not _ rfl
  | absorbed hj => exact not_joins_of_isAtom ha _ _ _ hj
  | resolved hj => exact not_joins_of_isAtom ha _ _ _ hj

/-- Of two clauses only the shared leg can be left, if no other legs have the same text. -/
theorem Merges.eq_shared_of_clauses {l r a b d : Expr} (h : Merges .and l r d)
    (hl : Joins .or a b l) (hr : Joins .or a (not b) r) (hab : ¬ SameText a b)
    (hnot : ¬ SameText a (not b)) : d = a := by
  obtain ⟨p, q, p', q', hp, hp', hs, hd⟩ := h.exists_arm_of_resolved hl hr rfl (.right rfl)
  rcases hl.arms_eq hp with ⟨rfl, rfl⟩ | ⟨rfl, rfl⟩ <;>
    rcases hr.arms_eq hp' with ⟨rfl, rfl⟩ | ⟨rfl, rfl⟩
  · exact hd.elim id id
  · exact (hnot hs).elim
  · exact (hab hs.symm).elim
  · have := hs.length_text
    have := length_text_not p
    omega

theorem Plain.exists_eq_not {a b : Expr} (ha : a.Plain) (hb : b.Plain)
    (h : SameText a (.not b)) : ∃ x, a = .not x := by
  have hnot : Plain (.not b) := .unary rfl hb
  have hread := (ha.legible.text_eq_iff hnot.legible).mp h
  rw [asRead_sign rfl] at hread
  cases ha with
  | @constant v _ =>
    cases v with
    | int n =>
      rw [asRead_int] at hread
      split at hread <;> cases hread
    | _ => cases hread
  | parameter => cases hread
  | unary hop =>
    rw [asRead_sign hop] at hread
    obtain ⟨rfl, -⟩ := Node.unary.inj (node.inj hread)
    exact ⟨_, rfl⟩
  | binary hop =>
    rw [asRead_binary hop] at hread
    cases hread
  | conditional =>
    rw [asRead_conditional] at hread
    cases hread
  | lambda =>
    rw [asRead_lambda] at hread
    split at hread <;> cases hread

end Expr

namespace Simplifier

theorem result_not_of_isAtom {y : Expr} (h : (Simplifier.boolean.result y).isAtom = true) :
    Simplifier.boolean.result (.not y) = .not (Simplifier.boolean.result y) := by
  rcases result_not_cases [.full] y with hput | htaken | ⟨-, b, hb, -⟩
  · exact hput
  · exact (ne_not_of_isAtom h _ htaken).elim
  · have hnone := bool?_eq_none_of_isAtom h
    rw [boolean_eq_ofRules, hb] at hnone
    cases hnone

/-- The eight conjunctions of a disjunction of `x` and `y` with one of `x` and `!y` are simplified
to what `x` is, if this and what `y` is are atoms with different texts. -/
theorem simplify_resolution {x y : Expr} (hx : x.Plain) (hy : y.Plain) :
    ∃ a b, (Simplifier.boolean.simplify x).outcome = .ok a ∧
      (Simplifier.boolean.simplify y).outcome = .ok b ∧
      (a.isAtom = true → b.isAtom = true → a.text ≠ b.text →
        ∀ l r e, Joins .or x y l → Joins .or x (.not y) r → Joins .and l r e →
          (Simplifier.boolean.simplify e).outcome = .ok a) := by
  have hc := collapsing_boolean
  refine ⟨_, _, hc.outcome_simplify x, hc.outcome_simplify y, ?_⟩
  intro ha hb hab l r e hl hr he
  have hbool := bool?_eq_none_of_isAtom ha
  have hnegated := result_not_of_isAtom hb
  have hnot : ¬ SameText (Simplifier.boolean.result x) (.not (Simplifier.boolean.result y)) := by
    intro hs
    obtain ⟨z, hz⟩ := (plain_result [.full] hx).exists_eq_not (plain_result [.full] hy) hs
    exact ne_not_of_isAtom ha z hz
  have hleft := joins_result_of_not_merges hl hbool (bool?_eq_none_of_isAtom hb)
    fun _ => not_merges_of_isAtom ha hb hab
  have hright : Joins .or (Simplifier.boolean.result x) (.not (Simplifier.boolean.result y))
      (Simplifier.boolean.result r) := by
    rw [← hnegated]
    apply joins_result_of_not_merges hr hbool
    · rw [hnegated]
      rfl
    · rw [hnegated]
      exact fun _ => not_merges_not_of_isAtom ha hab hnot
  have hmerges := result_merges he hleft.bool?_eq_none hright.bool?_eq_none
    (.resolved hleft hright rfl (.right rfl) (.inl rfl))
  rw [hc.outcome_simplify, hmerges.eq_shared_of_clauses hleft hright hab hnot]

/-- The clause with `!y` in front, the shared leg behind in both, and `y` two negations of `q`. -/
theorem simplify_resolution_mirrored :
    let x : Expr := .binary (.equality .equal) (.parameter "p") (.constant (.int 1))
    let y : Expr := .not (.not (.parameter "q"))
    x.Plain ∧ y.Plain ∧
      (Simplifier.boolean.simplify (.and (.or (.not y) x) (.or y x))).outcome = .ok x := by
  intro x y
  have hx : x.Plain := .binary (by decide) (.parameter (by decide)) (.constant (by decide))
  have hy : y.Plain := .unary rfl (.unary rfl (.parameter (by decide)))
  obtain ⟨a, b, ha, hb, hresolves⟩ := simplify_resolution hx hy
  have hxa : x = a := Except.ok.inj (Eq.trans (by rfl) ha)
  have hqb : .parameter "q" = b := Except.ok.inj (Eq.trans (by rfl) hb)
  subst hxa hqb
  exact ⟨hx, hy, hresolves rfl rfl (by decide) _ _ _ .swapped .swapped .swapped⟩

end Simplifier

end ExprTree
