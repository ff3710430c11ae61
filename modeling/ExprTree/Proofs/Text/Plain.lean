import ExprTree.Expr.Equality
import ExprTree.Expr.Text
import ExprTree.Proofs.Text.Numeral

/-!
# Plain expressions

Constants that are no floats, parameters, the four signs, operators that are written between their
operands, conditionals and lambdas, with identifiers for names.
-/

namespace ExprTree

/-- Letters, digits and underscores. -/
def isNameChar (c : Char) : Bool := c.isAlphanum || c = '_'

/-- Letters, digits and underscores without a digit in front, but no literal. -/
def isIdentifier (name : String) : Bool :=
  name.toList.all isNameChar && name.toList.head?.any (!·.isDigit) &&
    name ∉ ["true", "false", "null"]

theorem isNameChar_of_isDigit {c : Char} (h : c.isDigit = true) : isNameChar c = true := by
  simp [isNameChar, Char.isAlphanum, h]

private theorem isIdentifier_iff {name : String} :
    isIdentifier name = true ↔
      (∀ c ∈ name.toList, isNameChar c = true) ∧
      (∃ c cs, name.toList = c :: cs ∧ c.isDigit = false) ∧
      name ≠ "true" ∧ name ≠ "false" ∧ name ≠ "null" := by
  have hhead : name.toList.head?.any (!·.isDigit) = true ↔
      ∃ c cs, name.toList = c :: cs ∧ c.isDigit = false := by
    cases name.toList <;> simp
  rw [isIdentifier, Bool.and_eq_true, Bool.and_eq_true, hhead, List.all_eq_true]
  simp [and_assoc]

section Identifiers

variable {name : String} (h : isIdentifier name = true)

include h

theorem isNameChar_of_isIdentifier : ∀ c ∈ name.toList, isNameChar c = true :=
  (isIdentifier_iff.mp h).1

theorem head_of_isIdentifier :
    ∃ c cs, name.toList = c :: cs ∧ isNameChar c = true ∧ c.isDigit = false := by
  obtain ⟨hchars, ⟨c, cs, hname, hd⟩, -⟩ := isIdentifier_iff.mp h
  refine ⟨c, cs, hname, hchars c ?_, hd⟩
  rw [hname]
  exact List.mem_cons_self

end Identifiers

namespace Expr

/-- An expression of the plain fragment. -/
inductive Plain : Expr → Prop where
  | constant {value : Literal} : value.kind ≠ .float → Plain (constant value)
  | parameter {name : String} : isIdentifier name = true → Plain (parameter name)
  | unary {op : UnaryOp} {e : Expr} : op.isSign = true → Plain e → Plain (unary op e)
  | binary {op : BinaryOp} {l r : Expr} : op ≠ .arrayIndex → Plain l → Plain r →
      Plain (binary op l r)
  | conditional {t a b : Expr} : Plain t → Plain a → Plain b → Plain (conditional t a b)
  | lambda {name : Option String} {tailCall : Bool} {parameters : List String} {body : Expr} :
      (∀ x ∈ name, isIdentifier x = true) → (∀ x ∈ parameters, isIdentifier x = true) →
      Plain body → Plain (lambda name tailCall parameters body)

end Expr

end ExprTree
