import ExprTree.Proofs.Text.Reading

/-!
# Formulas

A formula consists of constants and parameters, negations, operations written between their
operands, and conditionals. The tree that its text is read as differs from the formula in one
respect only: a minus in front of a number is read as a sign of its own. As formulas have no such
signs, it can be put back into the number, and the text of a formula determines the formula.
-/

namespace ExprTree.Expr

/-- An expression built from constants that are no floats and from parameters by `!`, by operators
that are written between their operands, and by conditionals, with identifiers for names. -/
inductive Formula : Expr → Prop where
  | constant {value : Literal} : value.kind ≠ .float → Formula (constant value)
  | parameter {name : String} : isIdentifier name = true → Formula (parameter name)
  | not {e : Expr} : Formula e → Formula (not e)
  | binary {op : BinaryOp} {l r : Expr} : op ≠ .arrayIndex → Formula l → Formula r →
      Formula (binary op l r)
  | conditional {t a b : Expr} : Formula t → Formula a → Formula b → Formula (conditional t a b)

theorem Formula.plain {e : Expr} (h : Formula e) : Plain e := by
  induction h with
  | constant hvalue => exact .constant hvalue
  | parameter hname => exact .parameter hname
  | not _ ih => exact .unary rfl ih
  | binary hop _ _ ihl ihr => exact .binary hop ihl ihr
  | conditional _ _ _ iht iha ihb => exact .conditional iht iha ihb

/-- Every minus in front of a number becomes part of the number. -/
def signed : Expr → Expr := fold fun
  | .unary .negate (constant (.int n)) => constant (.int (-n))
  | n => node n

theorem signed_asRead_constant (v : Literal) : (constant v).asRead.signed = constant v := by
  cases v with
  | int n =>
    rw [asRead_int]
    split
    · change constant (.int (- -n)) = _
      rw [Int64.neg_neg]
    · rfl
  | _ => rfl

/-- What the text of a formula is read as is the formula, once the signs in front of numbers are put
into the numbers. -/
theorem Formula.signed_asRead {e : Expr} (h : Formula e) : e.asRead.signed = e := by
  induction h with
  | @constant v _ => exact signed_asRead_constant v
  | parameter => rfl
  | @not e _ ih =>
    rw [asRead_sign rfl, signed, fold_node]
    exact congrArg Expr.not ih
  | @binary op l r hop _ _ ihl ihr =>
    rw [asRead_binary hop, signed, fold_node]
    change Expr.binary op l.asRead.signed r.asRead.signed = _
    rw [ihl, ihr]
  | @conditional t a b _ _ _ iht iha ihb =>
    rw [asRead_conditional, signed, fold_node]
    change Expr.conditional t.asRead.signed a.asRead.signed b.asRead.signed = _
    rw [iht, iha, ihb]

/-- The text of a formula determines it, whatever characters the strings in it hold. -/
theorem Formula.text_inj {a b : Expr} (ha : Formula a) (hb : Formula b) :
    a.text = b.text ↔ a = b := by
  rw [ha.plain.legible.text_eq_iff hb.plain.legible]
  constructor
  · intro hread
    rw [← ha.signed_asRead, hread, hb.signed_asRead]
  · exact congrArg asRead

/-- A string that holds an operator between quotation marks, in front of another string and behind
it. -/
theorem Formula.text_inj_quotedOperator :
    let s : Expr := .constant (.string "")
    let operator : Expr := .constant (.string "\" + \"")
    let a : Expr := .binary (.arithmetic .add) operator s
    let b : Expr := .binary (.arithmetic .add) s operator
    Formula a ∧ Formula b ∧ a.text ≠ b.text := by
  intro s operator a b
  have hs : Formula s := .constant (by decide)
  have hoperator : Formula operator := .constant (by decide)
  have ha : Formula a := .binary (by simp) hoperator hs
  have hb : Formula b := .binary (by simp) hs hoperator
  refine ⟨ha, hb, fun htext => ?_⟩
  have heq := (Formula.text_inj ha hb).mp htext
  exact absurd heq (by decide)

end ExprTree.Expr
