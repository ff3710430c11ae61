import ExprTree.Proofs.Rules.Pipeline
import ExprTree.Proofs.Typing

/-!
# Boolean rules keep types

A group leaves an expression of the type of the node, so a pass keeps the type of a tree, and what
it leaves is as safe to evaluate as the tree itself.
-/

namespace ExprTree

namespace Expr

variable {types : Context}

theorem hasType_bool (b : Bool) : HasType types (.bool b) .bool := .constant rfl

theorem HasType.logical_inv {op : Connective} {x y : Expr} {t : Ty}
    (h : HasType types (.logical op x y) t) :
    t = .bool ∧ HasType types x .bool ∧ HasType types y .bool := by
  cases h with
  | binary hop hx hy =>
    cases hop
    exact ⟨rfl, hx, hy⟩

theorem HasType.not_inv {e : Expr} {t : Ty} (h : HasType types (.not e) t) :
    t = .bool ∧ HasType types e .bool := by
  cases h with
  | unary hop he =>
    cases hop
    exact ⟨rfl, he⟩

theorem Joins.hasType {op : Connective} {x y e : Expr} {t : Ty} (hj : Joins op x y e)
    (h : HasType types e t) : t = .bool ∧ HasType types x .bool ∧ HasType types y .bool := by
  cases hj with
  | inOrder => exact h.logical_inv
  | swapped =>
    obtain ⟨ht, hy, hx⟩ := h.logical_inv
    exact ⟨ht, hx, hy⟩

end Expr

open ExprTree.Expr

theorem BinaryOp.Types.eq_bool_of_decide? {op : BinaryOp} {a b t : Ty} (h : op.Types a b t)
    {l r : Literal} {d : Bool} (hd : op.decide? l r = some d) : t = .bool := by
  cases h with
  | equality | orderInts | orderStrings | logical => rfl
  | _ => cases hd

/-- What a group makes of a typed node has the type of the node, whichever arms it takes for the
same. -/
theorem RuleGroup.Rewrites.hasType {types : Context} {same : Expr → Expr → Prop} {g : RuleGroup}
    {e r : Expr} (h : g.Rewrites same e r) {t : Ty} (he : HasType types e t) :
    HasType types r t := by
  cases h with
  | doubleNegation =>
    obtain ⟨rfl, hinner⟩ := he.not_inv
    exact hinner.not_inv.2
  | constantTest b =>
    cases he with
    | conditional _ hx hy =>
      cases b
      · exact hy
      · exact hx
  | constantNegation =>
    obtain ⟨rfl, -⟩ := he.not_inv
    exact hasType_bool _
  | constantOperands hd =>
    cases he with
    | binary hop _ _ =>
      cases hop.eq_bool_of_decide? hd
      exact hasType_bool _
  | selfComparison =>
    cases he with
    | binary hop _ _ =>
      cases hop
      exact hasType_bool _
  | zeroArm hj =>
    obtain ⟨rfl, -, -⟩ := hj.hasType he
    exact hasType_bool _
  | unitArm hj =>
    obtain ⟨rfl, -, hx⟩ := hj.hasType he
    exact hx
  | opposedArms =>
    obtain ⟨rfl, -, -⟩ := he.logical_inv
    exact hasType_bool _
  | repeatedArm =>
    obtain ⟨rfl, hx, -⟩ := he.logical_inv
    exact hx
  | absorbedArm hj =>
    obtain ⟨rfl, ha, -⟩ := hj.hasType he
    exact ha
  | resolvedArms hl =>
    obtain ⟨rfl, hleft, -⟩ := he.logical_inv
    exact (hl.hasType hleft).2.1

theorem Expr.HasType.mapReached {types : Context} {f : Expr → Expr} {n : Node Expr} {t : Ty}
    (h : HasType types (node n) t)
    (hf : ∀ c ∈ n.reached, ∀ a, HasType types c a → HasType types (f c) a) :
    HasType types (node (n.mapReached f)) t := by
  cases h with
  | constant hv => exact .constant hv
  | parameter ht => exact .parameter ht
  | unary hop he => exact .unary hop (hf _ (by simp [Node.reached, Node.children]) _ he)
  | binary hop hl hr =>
    exact .binary hop (hf _ (by simp [Node.reached, Node.children]) _ hl)
      (hf _ (by simp [Node.reached, Node.children]) _ hr)
  | conditional hc hx hy =>
    exact .conditional (hf _ (by simp [Node.reached, Node.children]) _ hc)
      (hf _ (by simp [Node.reached, Node.children]) _ hx)
      (hf _ (by simp [Node.reached, Node.children]) _ hy)
  | lambda hbody => exact .lambda (hf _ (by simp [Node.reached, Node.children]) _ hbody)

namespace Simplifier

theorem hasType_result (rs : List RuleSet) {types : Context} {e : Expr} {t : Ty}
    (h : HasType types e t) : HasType types ((ofRules rs).result e) t := by
  induction e using Expr.induct generalizing t with
  | node n ih =>
    have hrebuilt : HasType types (node (n.mapReached (ofRules rs).result)) t :=
      h.mapReached fun c hc a ha => ih c (Node.mem_children_of_mem_reached hc) ha
    rcases result_ofRules_cases rs n with heq | ⟨r, -, g, -, hg⟩
    · rw [heq]
      exact hrebuilt
    · exact hg.hasType hrebuilt

/-- A pass succeeds on a typed tree and keeps its type. In every environment that fits the context
the tree and the result each have a value of the type or divide by zero. -/
theorem simplify_hasType (rs : List RuleSet) {types : Context} {e : Expr} {t : Ty}
    (h : HasType types e t) :
    ∃ r, ((ofRules rs).simplify e).outcome = .ok r ∧ HasType types r t ∧
      ∀ env, types.Fits env → t.Admits (eval env e) ∧ t.Admits (eval env r) := by
  have hresult := hasType_result rs h
  refine ⟨_, (collapsing_ofRules rs).outcome_simplify e, hresult, ?_⟩
  intro env henv
  exact ⟨h.admits_eval henv, hresult.admits_eval henv⟩

/-- Of `(p || x / y == 0) && (p || !(x / y == 0))` only `p` is left, which has a value where the
tree divides by zero. -/
theorem simplify_hasType_division :
    let types : Context := fun name => some (if name = "p" then .bool else .int)
    let env : Environment := fun name => some (if name = "p" then .bool false else .int 0)
    let test : Expr :=
      .equal (.binary (.arithmetic .div) (.parameter "x") (.parameter "y")) (.constant (.int 0))
    let e : Expr := .and (.or (.parameter "p") test) (.or (.parameter "p") (.not test))
    HasType types e .bool ∧ types.Fits env ∧ eval env e = .error .divisionByZero ∧
      ∃ r, ((ofRules [.full]).simplify e).outcome = .ok r ∧ HasType types r .bool ∧
        Ty.bool.Admits (eval env e) ∧ Ty.bool.Admits (eval env r) := by
  intro types env test e
  have hp : HasType types (.parameter "p") .bool := .parameter rfl
  have hquotient : HasType types
      (.binary (.arithmetic .div) (.parameter "x") (.parameter "y")) .int :=
    .binary (.arithmetic (by decide)) (.parameter rfl) (.parameter rfl)
  have hzero : HasType types (.constant (.int 0)) .int := .constant rfl
  have htest : HasType types test .bool := .binary (.equality .equal _ _) hquotient hzero
  have he : HasType types e .bool :=
    .binary (.logical _) (.binary (.logical _) hp htest)
      (.binary (.logical _) hp (.unary .not htest))
  have henv : types.Fits env := by
    intro name t h
    refine ⟨_, rfl, ?_⟩
    by_cases hname : name = "p" <;> simp only [types, hname, ↓reduceIte] at h ⊢ <;> cases h <;> rfl
  obtain ⟨r, hr, ht, hsafe⟩ := simplify_hasType [.full] he
  exact ⟨he, henv, rfl, r, hr, ht, hsafe env henv⟩

end Simplifier

end ExprTree
