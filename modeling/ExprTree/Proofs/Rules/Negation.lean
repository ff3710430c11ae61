import ExprTree.Proofs.Rules.Arms

/-!
# Negations

A pass puts a negation in front of the simplified operand, takes one off it, or turns a truth value
round. So two negations cancel, and an expression and its negation are recognised as opposites,
whichever of these forms they come in and whichever other rules there are.
-/

namespace ExprTree

open ExprTree.Expr

theorem RuleGroup.Rewrites.not_cases {same : Expr → Expr → Prop} {g : RuleGroup} {a d : Expr}
    (h : g.Rewrites same (.not a) d) :
    a = .not d ∨ g = .constantFolding ∧ ∃ b, a = .bool b ∧ d = .bool !b := by
  cases h with
  | doubleNegation => exact .inl rfl
  | constantNegation b => exact .inr ⟨rfl, b, rfl, rfl⟩
  | zeroArm hj | unitArm hj | absorbedArm hj => cases hj

theorem Expr.Merges.eq_zero_of_opposed {op : Connective} {a b d : Expr} (h : Merges op a b d)
    (ho : Opposed SameText a b) : d = .bool op.zero := by
  have hlength := ho.length_text
  cases h with
  | opposed => rfl
  | repeated hs =>
    have := hs.length_text
    omega
  | absorbs hj hs | absorbed hj hs =>
    have := hj.length_text_arm hs
    omega
  | resolved ha hb =>
    cases ho with
    | left => exact (ha.ne_not _ rfl).elim
    | right => exact (hb.ne_not _ rfl).elim

namespace Simplifier

variable {rs : List RuleSet}

/-- The negation of the result, the negation taken off it, or the opposite truth value. -/
theorem result_not_cases (rs : List RuleSet) (e : Expr) :
    (ofRules rs).result (.not e) = .not ((ofRules rs).result e) ∨
      (ofRules rs).result e = .not ((ofRules rs).result (.not e)) ∨
      (∃ r ∈ rs, r.enabled .constantFolding = true) ∧
        ∃ b, (ofRules rs).result e = .bool b ∧ (ofRules rs).result (.not e) = .bool !b := by
  rcases result_ofRules_cases rs (.unary .not e) with heq | ⟨r, hr, g, hg, hrewrites⟩
  · exact .inl heq
  · right
    rcases RuleGroup.Rewrites.not_cases hrewrites with hoff | ⟨rfl, hturned⟩
    · exact .inl hoff
    · exact .inr ⟨⟨r, hr, RuleSet.mem_groups.mp hg⟩, hturned⟩

private theorem ne_not_not (h : ∃ r ∈ rs, r.enabled .doubleNegation = true) (e x : Expr) :
    (ofRules rs).result e ≠ .not (.not x) := by
  intro heq
  apply not_rewrites_result h e x
  rw [heq]
  exact .doubleNegation x

private theorem bool?_eq_none_of_not (h : ∃ r ∈ rs, r.enabled .constantFolding = true)
    {e x : Expr} (heq : (ofRules rs).result e = .not x) : x.bool? = none := by
  cases hb : x.bool? with
  | none => rfl
  | some b =>
    rw [bool?_eq_some] at hb
    refine (not_rewrites_result h e (.bool !b) ?_).elim
    rw [heq, hb]
    exact .constantNegation b

theorem result_not_not (h : ∃ r ∈ rs, r.enabled .doubleNegation = true) (e : Expr) :
    (ofRules rs).result (.not (.not e)) = (ofRules rs).result e := by
  have houter := result_not_cases rs (.not e)
  rcases result_not_cases rs e with hput | htaken | ⟨hfolding, b, hb, hturned⟩
  · rw [hput] at houter
    rcases houter with hagain | hoff | ⟨-, b, hb, -⟩
    · exact (ne_not_not h (.not (.not e)) _ hagain).elim
    · exact (Node.unary.inj (node.inj hoff)).2.symm
    · cases hb
  · rcases houter with hagain | hoff | ⟨hfolding, b, hb, -⟩
    · rw [hagain, ← htaken]
    · rw [hoff] at htaken
      exact (ne_not_not h e _ htaken).elim
    · rw [hb] at htaken
      cases bool?_eq_none_of_not hfolding htaken
  · rw [hturned] at houter
    rcases houter with hagain | hoff | ⟨-, c, hc, hback⟩
    · cases bool?_eq_none_of_not hfolding hagain
    · cases hoff
    · cases hc
      rw [hback, hb, Bool.not_not]

/-- Two negations in front of an expression change nothing, whichever other groups are enabled. -/
theorem simplify_not_not (h : ∃ r ∈ rs, r.enabled .doubleNegation = true) (e : Expr) :
    ∃ r, ((ofRules rs).simplify e).outcome = .ok r ∧
      ((ofRules rs).simplify (.not (.not e))).outcome = .ok r := by
  have hc := collapsing_ofRules rs
  refine ⟨_, hc.outcome_simplify e, ?_⟩
  rw [hc.outcome_simplify, result_not_not h]

/-- Without constant folding `!true` stays, and `!!!true` becomes `!true`. -/
theorem simplify_not_not_truth :
    let rs := [RuleSet.full.erase .constantFolding]
    (∃ r ∈ rs, r.enabled .doubleNegation = true) ∧
      ∃ r, ((ofRules rs).simplify (.not (.bool true))).outcome = .ok r ∧
        ((ofRules rs).simplify (.not (.not (.not (.bool true))))).outcome = .ok r := by
  intro rs
  have h : ∃ r ∈ rs, r.enabled .doubleNegation = true := ⟨_, List.mem_cons_self, rfl⟩
  exact ⟨h, simplify_not_not h (.not (.bool true))⟩

private theorem result_of_not (hcomplement : ∃ r ∈ rs, r.enabled .complement = true)
    {op : Connective} {x y e : Expr} (hj : Joins op x y e)
    (hx : ((ofRules rs).result x).bool? = none)
    (hy : (ofRules rs).result y = .not ((ofRules rs).result x)) :
    (ofRules rs).result e = .bool op.zero := by
  have hopposed : Opposed SameText ((ofRules rs).result x) ((ofRules rs).result y) := by
    rw [hy]
    exact .right rfl
  have hybool : ((ofRules rs).result y).bool? = none := by
    rw [hy]
    rfl
  rcases result_joins_cases rs hj hx hybool with hjoins | hmerges
  · exact (not_rewrites_result hcomplement e _ (hjoins.opposed hopposed)).elim
  · exact hmerges.eq_zero_of_opposed hopposed

private theorem not_sameText_bool (b : Bool) : ¬ SameText (.bool b) (.bool !b) := by
  cases b with
  | false => exact show "false" ≠ "true" by decide
  | true => exact show "true" ≠ "false" by decide

private theorem eq_zero_of_rewrites {g : RuleGroup} {op : Connective} {b : Bool} {d : Expr}
    (h : g.Rewrites SameText (.logical op (.bool b) (.bool !b)) d) : d = .bool op.zero := by
  cases h with
  | constantOperands hdecide => cases op <;> cases b <;> cases hdecide <;> rfl
  | zeroArm hj =>
    obtain ⟨rfl, -⟩ := joins_logical hj
    rfl
  | unitArm hj =>
    obtain ⟨rfl, ⟨hl, rfl⟩ | ⟨hr, rfl⟩⟩ := joins_logical hj
    · cases hl
      rw [Connective.unit, Bool.not_not]
    · have hnot := Literal.bool.inj (Node.constant.inj (node.inj hr))
      rw [Bool.not_inj hnot]
  | opposedArms => rfl
  | repeatedArm hs => exact (not_sameText_bool b hs).elim
  | absorbedArm hj hj' =>
    obtain ⟨-, ⟨-, rfl⟩ | ⟨-, rfl⟩⟩ := joins_logical hj <;> cases hj'
  | resolvedArms hl => cases hl

private theorem result_of_bools (hfolding : ∃ r ∈ rs, r.enabled .constantFolding = true)
    {op : Connective} {x y : Expr} {b : Bool} (hx : (ofRules rs).result x = .bool b)
    (hy : (ofRules rs).result y = .bool !b) :
    (ofRules rs).result (.logical op x y) = .bool op.zero := by
  have hcases := result_ofRules_cases rs (.binary (.logical op) x y)
  change (ofRules rs).result (.logical op x y) = .logical op _ _ ∨ ∃ r ∈ rs, ∃ g ∈ r.groups,
    g.Rewrites SameText (.logical op _ _) ((ofRules rs).result (.logical op x y)) at hcases
  rw [hx, hy] at hcases
  rcases hcases with heq | ⟨_, -, _, -, hrewrites⟩
  · have hfolds : (BinaryOp.logical op).decide? (.bool b) (.bool !b) = some op.zero := by
      cases op <;> cases b <;> rfl
    refine (not_rewrites_result hfolding (.logical op x y) (.bool op.zero) ?_).elim
    rw [heq]
    exact .constantOperands hfolds
  · exact eq_zero_of_rewrites hrewrites

/-- An expression and its negation become the deciding truth value. -/
theorem result_of_opposites (hfolding : ∃ r ∈ rs, r.enabled .constantFolding = true)
    (hcomplement : ∃ r ∈ rs, r.enabled .complement = true) {op : Connective} {e d : Expr}
    (hj : Joins op e (.not e) d) : (ofRules rs).result d = .bool op.zero := by
  rcases result_not_cases rs e with hput | htaken | ⟨-, b, hb, hturned⟩
  · exact result_of_not hcomplement hj (bool?_eq_none_of_not hfolding hput) hput
  · exact result_of_not hcomplement hj.symm (bool?_eq_none_of_not hfolding htaken) htaken
  · cases hj with
    | inOrder => exact result_of_bools hfolding hb hturned
    | swapped => exact result_of_bools hfolding hturned (by rw [hb, Bool.not_not])

/-- `e && !e` is false and `e || !e` is true, in either order. -/
theorem simplify_opposites (hfolding : ∃ r ∈ rs, r.enabled .constantFolding = true)
    (hcomplement : ∃ r ∈ rs, r.enabled .complement = true) (e : Expr) :
    ((ofRules rs).simplify (.and e (.not e))).outcome = .ok (.bool false) ∧
      ((ofRules rs).simplify (.and (.not e) e)).outcome = .ok (.bool false) ∧
      ((ofRules rs).simplify (.or e (.not e))).outcome = .ok (.bool true) ∧
      ((ofRules rs).simplify (.or (.not e) e)).outcome = .ok (.bool true) := by
  have houtcome {op : Connective} {d : Expr} (hj : Joins op e (.not e) d) :
      ((ofRules rs).simplify d).outcome = .ok (.bool op.zero) := by
    rw [(collapsing_ofRules rs).outcome_simplify, result_of_opposites hfolding hcomplement hj]
  exact ⟨houtcome .inOrder, houtcome .swapped, houtcome .inOrder, houtcome .swapped⟩

/-- `!a` and `!!a` are opposites, although nothing takes the two negations off. -/
theorem simplify_opposites_negation :
    let rs := [(RuleSet.singleton .constantFolding).insert .complement]
    let e : Expr := .not (.parameter "a")
    (∃ r ∈ rs, r.enabled .constantFolding = true) ∧ (∃ r ∈ rs, r.enabled .complement = true) ∧
      ((ofRules rs).simplify (.and e (.not e))).outcome = .ok (.bool false) ∧
      ((ofRules rs).simplify (.and (.not e) e)).outcome = .ok (.bool false) ∧
      ((ofRules rs).simplify (.or e (.not e))).outcome = .ok (.bool true) ∧
      ((ofRules rs).simplify (.or (.not e) e)).outcome = .ok (.bool true) := by
  intro rs e
  have hfolding : ∃ r ∈ rs, r.enabled .constantFolding = true := ⟨_, List.mem_cons_self, rfl⟩
  have hcomplement : ∃ r ∈ rs, r.enabled .complement = true := ⟨_, List.mem_cons_self, rfl⟩
  exact ⟨hfolding, hcomplement, simplify_opposites hfolding hcomplement e⟩

end Simplifier

end ExprTree
