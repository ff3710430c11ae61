import ExprTree.Eval
import ExprTree.Proofs.Reach
import ExprTree.Proofs.Text.Reading

/-!
# Values

What it takes for an expression to have a value, and what keeps a value: replacing the children
that a pass enters by expressions that keep theirs, and writing the text and reading it back.
-/

namespace ExprTree

theorem bind_eq_ok {ε α β : Type} {x : Except ε α} {f : α → Except ε β} {b : β} :
    x.bind f = .ok b ↔ ∃ a, x = .ok a ∧ f a = .ok b := by
  cases x with
  | error e => simp [Except.bind]
  | ok a => simp [Except.bind]

theorem Operation.expectBool_eq_ok {operation : Operation} {v : Literal} {b : Bool} :
    operation.expectBool v = .ok b ↔ v = .bool b := by
  cases v <;> simp [expectBool, refuse]

namespace Expr

variable {env : Environment}

theorem eval_unary_eq_ok {op : UnaryOp} {e : Expr} {v : Literal} :
    eval env (unary op e) = .ok v ↔ ∃ a, eval env e = .ok a ∧ op.eval a = .ok v :=
  bind_eq_ok

theorem eval_not_eq_ok {e : Expr} {v : Literal} :
    eval env (.not e) = .ok v ↔ ∃ b, eval env e = .ok (.bool b) ∧ v = .bool !b := by
  rw [eval_unary_eq_ok]
  constructor
  · intro h
    obtain ⟨a, ha, hv⟩ := h
    cases a with
    | bool b => exact ⟨b, ha, (Except.ok.inj hv).symm⟩
    | _ => cases hv
  · intro h
    obtain ⟨b, hb, rfl⟩ := h
    exact ⟨.bool b, hb, rfl⟩

theorem eval_logical_eq_ok {op : Connective} {x y : Expr} {v : Literal} :
    eval env (logical op x y) = .ok v ↔
      eval env x = .ok (.bool op.zero) ∧ v = .bool op.zero ∨
      eval env x = .ok (.bool op.unit) ∧ ∃ b, eval env y = .ok (.bool b) ∧ v = .bool b := by
  have hlogical : eval env (logical op x y) = .ok v ↔ ∃ d, eval env x = .ok (.bool d) ∧
      (if d = op.zero then .ok (.bool d) else (eval env y).bind fun w =>
        ((Operation.binary (.logical op)).expectBool w).bind fun b => .ok (.bool b)) = .ok v := by
    refine bind_eq_ok.trans ⟨?_, ?_⟩
    · intro h
      obtain ⟨a, ha, h⟩ := h
      obtain ⟨d, hd, h⟩ := bind_eq_ok.mp h
      rw [Operation.expectBool_eq_ok] at hd
      exact ⟨d, hd ▸ ha, h⟩
    · intro h
      obtain ⟨d, hd, h⟩ := h
      exact ⟨_, hd, h⟩
  rw [hlogical]
  constructor
  · intro h
    obtain ⟨d, hx, h⟩ := h
    split at h
    · rename_i hd
      subst hd
      exact .inl ⟨hx, (Except.ok.inj h).symm⟩
    · rename_i hd
      obtain ⟨w, hw, h⟩ := bind_eq_ok.mp h
      obtain ⟨b, hb, h⟩ := bind_eq_ok.mp h
      rw [Operation.expectBool_eq_ok] at hb
      rw [← ne_eq, ← Connective.eq_unit_iff] at hd
      exact .inr ⟨hd ▸ hx, b, hb ▸ hw, (Except.ok.inj h).symm⟩
  · intro h
    rcases h with ⟨hx, rfl⟩ | ⟨hx, b, hy, rfl⟩
    · exact ⟨_, hx, if_pos rfl⟩
    · refine ⟨_, hx, ?_⟩
      rw [if_neg (Connective.eq_unit_iff.mp rfl), hy]
      rfl

theorem eval_conditional_eq_ok {t a b : Expr} {v : Literal} :
    eval env (conditional t a b) = .ok v ↔
      ∃ c : Bool, eval env t = .ok (.bool c) ∧ eval env (if c then a else b) = .ok v := by
  refine bind_eq_ok.trans ⟨?_, ?_⟩
  · intro h
    obtain ⟨w, hw, h⟩ := h
    obtain ⟨c, hc, h⟩ := bind_eq_ok.mp h
    rw [Operation.expectBool_eq_ok] at hc
    refine ⟨c, hc ▸ hw, ?_⟩
    cases c <;> exact h
  · intro h
    obtain ⟨c, hc, h⟩ := h
    refine ⟨_, hc, ?_⟩
    cases c <;> exact h

theorem eval_strict (env : Environment) {op : BinaryOp} (hlogical : ∀ c, op ≠ .logical c)
    (hcoalesce : op ≠ .coalesce) :
    ∃ f : Literal → Literal → Except EvalError Literal, ∀ l r : Expr,
      eval env (binary op l r) = (eval env l).bind fun a => (eval env r).bind fun b => f a b := by
  cases op with
  | logical c => exact absurd rfl (hlogical c)
  | coalesce => exact absurd rfl hcoalesce
  | _ => exact ⟨_, fun _ _ => rfl⟩

theorem eval_coalesce_eq_ok {l r : Expr} {v : Literal} :
    eval env (binary .coalesce l r) = .ok v ↔
      ∃ w, eval env l = .ok w ∧ (if w.isNull then eval env r else .ok w) = .ok v :=
  bind_eq_ok

theorem eval_equality_eq_ok {op : Equality} {l r : Expr} {v : Literal} :
    eval env (binary (.equality op) l r) = .ok v ↔
      ∃ a, eval env l = .ok a ∧ ∃ b, eval env r = .ok b ∧ v = .bool (op.eval a b) := by
  refine bind_eq_ok.trans ⟨?_, ?_⟩
  · intro h
    obtain ⟨a, ha, h⟩ := h
    obtain ⟨b, hb, h⟩ := bind_eq_ok.mp h
    exact ⟨a, ha, b, hb, (Except.ok.inj h).symm⟩
  · intro h
    obtain ⟨a, ha, b, hb, rfl⟩ := h
    exact ⟨a, ha, bind_eq_ok.mpr ⟨b, hb, rfl⟩⟩

/-- A value of the first expression is a value of the second one. -/
def Refines (env : Environment) (e r : Expr) : Prop := ∀ v, eval env e = .ok v → eval env r = .ok v

theorem Refines.refl (e : Expr) : Refines env e e := fun _ h => h

theorem Refines.trans {a b c : Expr} (hab : Refines env a b) (hbc : Refines env b c) :
    Refines env a c :=
  fun v h => hbc v (hab v h)

private theorem Refines.binary {op : BinaryOp} {l r l' r' : Expr} (hl : Refines env l l')
    (hr : Refines env r r') : Refines env (.binary op l r) (.binary op l' r') := by
  intro v hv
  by_cases hlogical : ∃ c, op = .logical c
  · obtain ⟨c, rfl⟩ := hlogical
    rw [eval_logical_eq_ok] at hv ⊢
    rcases hv with ⟨hx, rfl⟩ | ⟨hx, b, hy, rfl⟩
    · exact .inl ⟨hl _ hx, rfl⟩
    · exact .inr ⟨hl _ hx, b, hr _ hy, rfl⟩
  · by_cases hcoalesce : op = .coalesce
    · subst hcoalesce
      rw [eval_coalesce_eq_ok] at hv ⊢
      obtain ⟨w, hw, hv⟩ := hv
      refine ⟨w, hl w hw, ?_⟩
      split at hv
      · rename_i hnull
        rw [if_pos hnull]
        exact hr v hv
      · rename_i hnull
        rw [if_neg hnull]
        exact hv
    · obtain ⟨f, hf⟩ := eval_strict env (fun c hc => hlogical ⟨c, hc⟩) hcoalesce
      rw [hf] at hv ⊢
      obtain ⟨a, ha, hv⟩ := bind_eq_ok.mp hv
      obtain ⟨b, hb, hv⟩ := bind_eq_ok.mp hv
      exact bind_eq_ok.mpr ⟨a, hl a ha, bind_eq_ok.mpr ⟨b, hr b hb, hv⟩⟩

/-- A node keeps its value when the children that a pass enters keep theirs. -/
theorem Refines.node {f : Expr → Expr} {n : Node Expr} (h : ∀ c ∈ n.reached, Refines env c (f c)) :
    Refines env (.node n) (.node (n.mapReached f)) := by
  intro v hv
  cases n
  case constant | parameter => exact hv
  case unary op e =>
    have he := h e List.mem_cons_self
    rw [eval_unary_eq_ok] at hv
    obtain ⟨a, ha, hv⟩ := hv
    exact eval_unary_eq_ok.mpr ⟨a, he a ha, hv⟩
  case binary op l r =>
    have hl := h l List.mem_cons_self
    have hr := h r (List.mem_cons_of_mem l List.mem_cons_self)
    exact Refines.binary hl hr v hv
  case conditional t a b =>
    rw [eval_conditional_eq_ok] at hv
    obtain ⟨c, hc, hv⟩ := hv
    have ht := h t List.mem_cons_self
    refine eval_conditional_eq_ok.mpr ⟨c, ht _ hc, ?_⟩
    cases c
    · exact h b (by simp [Node.reached, Node.children]) v hv
    · exact h a (by simp [Node.reached, Node.children]) v hv
  case lambda name tailCall parameters body => exact h body List.mem_cons_self v hv
  all_goals cases hv

/-- A plain expression has the value of the expression that its text is read as. -/
theorem Plain.eval_asRead {e : Expr} (h : e.Plain) : eval env e.asRead = eval env e := by
  induction h with
  | @constant v _ =>
    cases v
    case int n _ =>
      rw [asRead_int n]
      split
      · have hvalue : eval env (.negate (.constant (.int (-n)))) = .ok (.int (- -n)) := rfl
        rw [hvalue, Int64.neg_neg]
        rfl
      · rfl
    all_goals rfl
  | parameter _ => rfl
  | unary hop _ he =>
    rw [asRead_sign hop]
    simp only [eval, he]
  | @binary op _ _ hop _ _ hl hr =>
    rw [asRead_binary hop]
    cases op <;> simp only [eval, hl, hr]
  | conditional _ _ _ ht ha hb =>
    rw [asRead_conditional]
    simp only [eval, ht, ha, hb]
  | lambda _ _ _ hbody =>
    rw [asRead_lambda]
    split <;> exact hbody

theorem Plain.eval_eq_of_text_eq {a b : Expr} (ha : a.Plain) (hb : b.Plain) (h : a.text = b.text) :
    eval env a = eval env b := by
  rw [← ha.eval_asRead, (ha.legible.text_eq_iff hb.legible).mp h, hb.eval_asRead]

end Expr

end ExprTree
