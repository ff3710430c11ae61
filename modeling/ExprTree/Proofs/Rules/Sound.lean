import ExprTree.Proofs.Eval
import ExprTree.Proofs.Rules.Pipeline

/-!
# Boolean rules keep values

A group that takes two arms for the same only when they have the same value keeps the value of a
node. Arms of a plain expression with the same text have the same value, so a pass keeps the value
of a plain expression, and plain expressions that a pass makes equivalent do not differ in value.
-/

namespace ExprTree

open ExprTree.Expr

/-- No parameter has a float for a value. -/
def Environment.FloatFree (env : Environment) : Prop :=
  ∀ name v, env name = some v → v.kind ≠ .float

theorem Literal.sameValue_self {v : Literal} (h : v.kind ≠ .float) : v.sameValue v = true := by
  cases v with
  | float x => exact absurd rfl h
  | _ => simp [sameValue]

section Groups

variable {env : Environment}

/-- The two expressions have the same value, or fail alike. -/
def Expr.SameEval (env : Environment) (a b : Expr) : Prop := eval env a = eval env b

private theorem zero_ne_unit (op : Connective) : op.zero ≠ op.unit :=
  fun h => Connective.eq_unit_iff.mp h rfl

theorem Expr.Joins.eval_cases {op : Connective} {x y e : Expr} {v : Literal} (hj : Joins op x y e)
    (hv : eval env e = .ok v) :
    v = .bool op.zero ∧ (eval env x = .ok (.bool op.zero) ∨ eval env y = .ok (.bool op.zero)) ∨
      v = .bool op.unit ∧ eval env x = .ok (.bool op.unit) ∧ eval env y = .ok (.bool op.unit) := by
  have inOrder {x y : Expr} (hv : eval env (logical op x y) = .ok v) :
      v = .bool op.zero ∧ (eval env x = .ok (.bool op.zero) ∨ eval env y = .ok (.bool op.zero)) ∨
        v = .bool op.unit ∧ eval env x = .ok (.bool op.unit) ∧
          eval env y = .ok (.bool op.unit) := by
    rcases eval_logical_eq_ok.mp hv with ⟨hx, rfl⟩ | ⟨hx, b, hy, rfl⟩
    · exact .inl ⟨rfl, .inl hx⟩
    · by_cases hb : b = op.zero
      · subst hb
        exact .inl ⟨rfl, .inr hy⟩
      · have hunit : b = op.unit := Connective.eq_unit_iff.mpr hb
        subst hunit
        exact .inr ⟨rfl, hx, hy⟩
  cases hj with
  | inOrder => exact inOrder hv
  | swapped =>
    rcases inOrder hv with ⟨h, hx | hy⟩ | ⟨h, hx, hy⟩
    · exact .inl ⟨h, .inr hx⟩
    · exact .inl ⟨h, .inl hy⟩
    · exact .inr ⟨h, hy, hx⟩

theorem Expr.Opposed.eval_ne {x y : Expr} {a b : Bool} (h : Opposed (SameEval env) x y)
    (hx : eval env x = .ok (.bool a)) (hy : eval env y = .ok (.bool b)) : a ≠ b := by
  cases h with
  | @left _ z hs =>
    obtain ⟨c, hc, ha⟩ := eval_not_eq_ok.mp hx
    rw [← hs, hy] at hc
    cases hc
    cases ha
    cases b <;> decide
  | @right _ z hs =>
    obtain ⟨c, hc, hb⟩ := eval_not_eq_ok.mp hy
    rw [← hs, hx] at hc
    cases hc
    cases hb
    cases a <;> decide

private theorem bool?_eq_some_iff {v : Literal} {b : Bool} : v.bool? = some b ↔ v = .bool b := by
  cases v <;> simp [Literal.bool?]

private theorem eval_decided {op : BinaryOp} {l r : Literal} {b : Bool} {v : Literal}
    (h : op.decide? l r = some b)
    (hv : eval env (binary op (.constant l) (.constant r)) = .ok v) : v = .bool b := by
  cases op with
  | equality op =>
    cases hv
    cases op with
    | equal => exact congrArg Literal.bool (Option.some.inj h)
    | notEqual =>
      change (if _ then none else some _) = some b at h
      split at h
      · cases h
      · exact congrArg Literal.bool (Option.some.inj h)
  | logical op =>
    obtain ⟨d, hd, hb⟩ := Option.bind_eq_some_iff.mp h
    rw [bool?_eq_some_iff] at hd
    subst hd
    rcases eval_logical_eq_ok.mp hv with ⟨hl, rfl⟩ | ⟨hl, c, hr, rfl⟩
    · cases hl
      rw [if_pos rfl] at hb
      exact congrArg Literal.bool (Option.some.inj hb)
    · cases hl
      cases hr
      rw [if_neg (zero_ne_unit op).symm] at hb
      exact congrArg Literal.bool (Option.some.inj hb)
  | _ => cases h

private theorem eval_parameter_eq_ok {name : String} {v : Literal} :
    eval env (parameter name) = .ok v ↔ env name = some v := by
  rw [eval]
  cases env name <;> simp

private theorem eval_bool_eq_ok {a b : Bool} : eval env (bool a) = .ok (.bool b) ↔ a = b := by
  rw [eval]
  simp

/-- A group that takes expressions for the same only when they have the same value keeps the value
of a node. -/
theorem RuleGroup.Rewrites.refines {g : RuleGroup} {e r : Expr} (henv : env.FloatFree)
    (h : g.Rewrites (SameEval env) e r) : Refines env e r := by
  intro v hv
  cases h with
  | doubleNegation =>
    obtain ⟨b, hb, rfl⟩ := eval_not_eq_ok.mp hv
    obtain ⟨c, hc, hbc⟩ := eval_not_eq_ok.mp hb
    cases hbc
    rw [Bool.not_not]
    exact hc
  | constantTest b x y =>
    obtain ⟨c, hc, hv⟩ := eval_conditional_eq_ok.mp hv
    cases hc
    exact hv
  | constantNegation b =>
    obtain ⟨c, hc, rfl⟩ := eval_not_eq_ok.mp hv
    cases hc
    rfl
  | constantOperands hb =>
    rw [eval_decided hb hv]
    rfl
  | selfComparison op name =>
    obtain ⟨a, ha, b, hb, rfl⟩ := eval_equality_eq_ok.mp hv
    rw [ha] at hb
    cases hb
    have hself := Literal.sameValue_self (henv name a (eval_parameter_eq_ok.mp ha))
    cases op with
    | equal =>
      rw [Equality.eval, hself]
      rfl
    | notEqual =>
      rw [Equality.eval, hself]
      rfl
  | zeroArm hj =>
    rcases hj.eval_cases hv with ⟨rfl, -⟩ | ⟨-, hzero, -⟩
    · rfl
    · exact absurd (eval_bool_eq_ok.mp hzero) (zero_ne_unit _)
  | unitArm hj =>
    rcases hj.eval_cases hv with ⟨rfl, hunit | hx⟩ | ⟨rfl, -, hx⟩
    · exact absurd (eval_bool_eq_ok.mp hunit).symm (zero_ne_unit _)
    · exact hx
    · exact hx
  | opposedArms ho =>
    rcases Joins.inOrder.eval_cases hv with ⟨rfl, -⟩ | ⟨-, hx, hy⟩
    · rfl
    · exact absurd rfl (ho.eval_ne hx hy)
  | repeatedArm hs =>
    rcases Joins.inOrder.eval_cases hv with ⟨rfl, hx | hy⟩ | ⟨rfl, hx, -⟩
    · exact hx
    · exact hs.trans hy
    · exact hx
  | @absorbedArm op a other x y _ hj hj' hs =>
    rcases hj.eval_cases hv with ⟨rfl, ha | hother⟩ | ⟨rfl, ha, -⟩
    · exact ha
    · -- what decides here is the unit of the other connective, so both arms of `other` have it
      rcases hj'.eval_cases hother with ⟨hzero, -⟩ | ⟨hunit, hx, -⟩
      · rw [Literal.bool.injEq] at hzero
        exact absurd hzero (by cases op <;> decide)
      · rw [hunit]
        exact hs.trans hx
    · exact ha
  | @resolvedArms l r shared rest candidate other hl hr hs ho =>
    rcases Joins.inOrder.eval_cases hv with ⟨rfl, hfalse | hfalse⟩ | ⟨rfl, htrue, htrue'⟩
    · rcases hl.eval_cases hfalse with ⟨hzero, -⟩ | ⟨-, hshared, -⟩
      · cases hzero
      · exact hshared
    · rcases hr.eval_cases hfalse with ⟨hzero, -⟩ | ⟨-, hcandidate, -⟩
      · cases hzero
      · exact hs.trans hcandidate
    · rcases hl.eval_cases htrue with ⟨-, hshared | hrest⟩ | ⟨hunit, -⟩
      · exact hshared
      · rcases hr.eval_cases htrue' with ⟨-, hcandidate | hother⟩ | ⟨hunit, -⟩
        · exact hs.trans hcandidate
        · exact absurd rfl (ho.eval_ne hrest hother)
        · cases hunit
      · cases hunit

end Groups

namespace Expr

theorem Plain.bool (b : Bool) : Plain (.bool b) := .constant (by simp [Literal.kind])

theorem Plain.mapReached {f : Expr → Expr} {n : Node Expr} (h : Plain (node n))
    (hf : ∀ c ∈ n.reached, Plain c → Plain (f c)) : Plain (node (n.mapReached f)) := by
  cases h with
  | constant hv => exact .constant hv
  | parameter hname => exact .parameter hname
  | unary hop he => exact .unary hop (hf _ (by simp [Node.reached, Node.children]) he)
  | binary hop hl hr =>
    exact .binary hop (hf _ (by simp [Node.reached, Node.children]) hl)
      (hf _ (by simp [Node.reached, Node.children]) hr)
  | conditional ht ha hb =>
    exact .conditional (hf _ (by simp [Node.reached, Node.children]) ht)
      (hf _ (by simp [Node.reached, Node.children]) ha)
      (hf _ (by simp [Node.reached, Node.children]) hb)
  | lambda hname hp hbody =>
    exact .lambda hname hp (hf _ (by simp [Node.reached, Node.children]) hbody)

private theorem Plain.child {n : Node Expr} (h : Plain (node n)) : ∀ c ∈ n.reached, Plain c := by
  cases h with
  | constant _ | parameter _ => exact fun c hc => nomatch hc
  | unary _ he => simpa [Node.reached, Node.children] using he
  | binary _ hl hr => simpa [Node.reached, Node.children] using ⟨hl, hr⟩
  | conditional ht ha hb => simpa [Node.reached, Node.children] using ⟨ht, ha, hb⟩
  | lambda _ _ hbody => simpa [Node.reached, Node.children] using hbody

theorem Plain.reaches {e d : Expr} (h : Plain e) (hr : Reaches e d) : Plain d := by
  induction hr with
  | refl => exact h
  | child hd _ ih => exact ih (h.child _ hd)
  | declared hn =>
    cases h with
    | lambda _ hp _ => exact .parameter (hp _ hn)
    | _ => cases hn
  | construct hc => cases h <;> cases hc

theorem Plain.collapses {e r : Expr} (h : Plain e) (hc : Collapses e r) : Plain r := by
  rcases hc.result with hb | ⟨b, rfl⟩
  · exact h.reaches hb.reaches
  · exact .bool b

end Expr

namespace Simplifier

variable {rs : List RuleSet} {env : Environment}

theorem plain_result (rs : List RuleSet) {e : Expr} (h : e.Plain) :
    ((ofRules rs).result e).Plain := by
  induction e using Expr.induct with
  | node n ih =>
    have hrebuilt : Plain (node (n.mapReached (ofRules rs).result)) :=
      h.mapReached fun c hc => ih c (Node.mem_children_of_mem_reached hc)
    rcases result_ofRules_cases rs n with heq | ⟨r, -, g, -, hg⟩
    · rw [heq]
      exact hrebuilt
    · exact hrebuilt.collapses hg.collapses

theorem refines_result (rs : List RuleSet) (henv : env.FloatFree) {e : Expr} (h : e.Plain) :
    Refines env e ((ofRules rs).result e) := by
  induction e using Expr.induct with
  | node n ih =>
    have hchildren : ∀ c ∈ n.reached, Refines env c ((ofRules rs).result c) := by
      intro c hc
      exact ih c (Node.mem_children_of_mem_reached hc) (h.reaches (below_of_mem hc).reaches)
    have hnode := Refines.node hchildren
    have hrebuilt : Plain (node (n.mapReached (ofRules rs).result)) :=
      h.mapReached fun c _ hc => plain_result rs hc
    rcases result_ofRules_cases rs n with heq | ⟨r, -, g, -, hg⟩
    · rw [heq]
      exact hnode
    · refine hnode.trans ((hg.mono ?_).refines henv)
      intro x y hx hy hs
      exact (hrebuilt.reaches hx.reaches).eval_eq_of_text_eq (hrebuilt.reaches hy.reaches) hs

/-- The pass succeeds on a plain expression that has a value, and the result has the same value. -/
theorem simplify_preserves_eval (rs : List RuleSet) {e : Expr} (he : e.Plain) {env : Environment}
    (henv : env.FloatFree) {v : Literal} (hv : eval env e = .ok v) :
    ∃ r, ((ofRules rs).simplify e).outcome = .ok r ∧ eval env r = .ok v :=
  ⟨_, (collapsing_ofRules rs).outcome_simplify e, refines_result rs henv he v hv⟩

/-- The arm `p` that is left of `(q || p) && (!q || p)` was skipped by the left disjunction. -/
theorem simplify_preserves_eval_skippedArm :
    ∃ r, ((ofRules [.full]).simplify (.and (.or (.parameter "q") (.parameter "p"))
        (.or (.not (.parameter "q")) (.parameter "p")))).outcome = .ok r ∧
      eval (fun name => some (.bool (name = "q"))) r = .ok (.bool false) := by
  have hp : Plain (.parameter "p") := .parameter (by decide)
  have hq : Plain (.parameter "q") := .parameter (by decide)
  refine simplify_preserves_eval [.full] (.binary (by decide) (.binary (by decide) hq hp)
    (.binary (by decide) (.unary rfl hq) hp)) ?_ rfl
  intro name v h
  cases h
  exact nofun

/-- Plain expressions that a pass finds equivalent have the same value wherever both have one. -/
theorem eval_eq_of_isEquivalent (rs : List RuleSet) {a b : Expr} (ha : a.Plain) (hb : b.Plain)
    (hab : ((ofRules rs).isEquivalent a b).outcome = .ok true) {env : Environment}
    (henv : env.FloatFree) {v w : Literal} (hv : eval env a = .ok v) (hw : eval env b = .ok w) :
    v = w := by
  rw [(collapsing_ofRules rs).outcome_isEquivalent] at hab
  have htext := of_decide_eq_true (Except.ok.inj hab)
  have hva := refines_result rs henv ha v hv
  have hwb := refines_result rs henv hb w hw
  rw [(plain_result rs ha).eval_eq_of_text_eq (plain_result rs hb) htext, hwb] at hva
  exact (Except.ok.inj hva).symm

/-- The negation of `1` and the constant `-1` are different trees with one text. -/
theorem eval_eq_of_isEquivalent_negative :
    ((ofRules [.full]).isEquivalent (.negate (.constant (.int 1))) (.constant (.int (-1)))).outcome =
        .ok true ∧
      ∃ v w, eval (fun _ => none) (.negate (.constant (.int 1))) = .ok v ∧
        eval (fun _ => none) (.constant (.int (-1))) = .ok w ∧ v = w := by
  have hone : Plain (.constant (.int 1)) := .constant (by decide)
  have hneg : Plain (.negate (.constant (.int 1))) := .unary rfl hone
  have hminus : Plain (.constant (.int (-1))) := .constant (by decide)
  have henv : Environment.FloatFree fun _ => none := by
    intro name v h
    cases h
  refine ⟨rfl, _, _, rfl, rfl, ?_⟩
  exact eval_eq_of_isEquivalent [.full] hneg hminus rfl henv rfl rfl

end Simplifier

end ExprTree
