import ExprTree.Eval

/-!
# Simple types

Booleans, integers and strings, with parameters typed by a context. A typed expression has a value
of its type in every environment that fits the context, or divides by zero on the way; no other
error arises.
-/

namespace ExprTree

inductive Ty where
  | bool | int | string
  deriving DecidableEq

/-- The types of parameters; a parameter may have none. -/
abbrev Context := String → Option Ty

def Ty.kind : Ty → Kind
  | .bool => .bool
  | .int => .int
  | .string => .string

def Literal.HasType (v : Literal) (t : Ty) : Prop := v.kind = t.kind

/-- Operand and result of a unary operator. -/
inductive UnaryOp.Types : UnaryOp → Ty → Ty → Prop where
  | not : Types .not .bool .bool
  | negate : Types .negate .int .int
  | plus : Types .plus .int .int
  | complement : Types .complement .int .int

/-- Operands and result of a binary operator. -/
inductive BinaryOp.Types : BinaryOp → Ty → Ty → Ty → Prop where
  | arithmetic {op : Arithmetic} : op ≠ .power → Types (.arithmetic op) .int .int .int
  | join : Types (.arithmetic .add) .string .string .string
  | bits (op : Bitwise) : Types (.bitwise op) .int .int .int
  | truths (op : Bitwise) : Types (.bitwise op) .bool .bool .bool
  | shift (direction : Shift) : Types (.shift direction) .int .int .int
  | equality (op : Equality) (a b : Ty) : Types (.equality op) a b .bool
  | orderInts (op : Order) : Types (.order op) .int .int .bool
  | orderStrings (op : Order) : Types (.order op) .string .string .bool
  | logical (op : Connective) : Types (.logical op) .bool .bool .bool
  | coalesce (t : Ty) : Types .coalesce t t t

namespace Expr

/-- The expression has the type, given the types of the parameters. A lambda has the type of its
body, in the same context. -/
inductive HasType (types : Context) : Expr → Ty → Prop where
  | constant {v : Literal} {t : Ty} : v.HasType t → HasType types (constant v) t
  | parameter {name : String} {t : Ty} : types name = some t → HasType types (parameter name) t
  | unary {op : UnaryOp} {e : Expr} {a t : Ty} : op.Types a t → HasType types e a →
      HasType types (unary op e) t
  | binary {op : BinaryOp} {l r : Expr} {a b t : Ty} : op.Types a b t → HasType types l a →
      HasType types r b → HasType types (binary op l r) t
  | conditional {c x y : Expr} {t : Ty} : HasType types c .bool → HasType types x t →
      HasType types y t → HasType types (conditional c x y) t
  | lambda {name : Option String} {tailCall : Bool} {parameters : List String} {body : Expr}
      {t : Ty} : HasType types body t → HasType types (lambda name tailCall parameters body) t

end Expr

theorem Literal.hasType_bool {v : Literal} : v.HasType .bool ↔ ∃ b, v = .bool b := by
  cases v <;> simp [HasType, kind, Ty.kind]

theorem Literal.hasType_int {v : Literal} : v.HasType .int ↔ ∃ n, v = .int n := by
  cases v <;> simp [HasType, kind, Ty.kind]

theorem Literal.hasType_string {v : Literal} : v.HasType .string ↔ ∃ s, v = .string s := by
  cases v <;> simp [HasType, kind, Ty.kind]

theorem Literal.HasType.isNull_eq_false {v : Literal} {t : Ty} (h : v.HasType t) :
    v.isNull = false := by
  cases v with
  | null => cases t <;> cases h
  | _ => rfl

/-- Every parameter of the context has a value of its type. -/
def Context.Fits (types : Context) (env : Environment) : Prop :=
  ∀ name t, types name = some t → ∃ v, env name = some v ∧ v.HasType t

/-- A value of the type, or a division by zero. -/
def Ty.Admits (t : Ty) : Except EvalError Literal → Prop
  | .ok v => v.HasType t
  | .error e => e = .divisionByZero

theorem Ty.Admits.bind {a t : Ty} {x : Except EvalError Literal}
    {f : Literal → Except EvalError Literal} (hx : a.Admits x)
    (hf : ∀ v, v.HasType a → t.Admits (f v)) : t.Admits (x.bind f) := by
  cases x with
  | ok v => exact hf v hx
  | error e => exact hx

theorem UnaryOp.Types.admits {op : UnaryOp} {a t : Ty} (h : op.Types a t) {v : Literal}
    (hv : v.HasType a) : t.Admits (op.eval v) := by
  cases h with
  | not =>
    obtain ⟨b, rfl⟩ := Literal.hasType_bool.mp hv
    rfl
  | negate | plus | complement =>
    obtain ⟨n, rfl⟩ := Literal.hasType_int.mp hv
    rfl

section Strict

variable {t : Ty} {x y : Except EvalError Literal}
  {f : Literal → Literal → Except EvalError Literal}

private theorem admits_bools (hx : Ty.bool.Admits x) (hy : Ty.bool.Admits y)
    (hf : ∀ p q, t.Admits (f (.bool p) (.bool q))) :
    t.Admits (x.bind fun v => y.bind fun w => f v w) := by
  refine hx.bind fun v hv => hy.bind fun w hw => ?_
  obtain ⟨p, rfl⟩ := Literal.hasType_bool.mp hv
  obtain ⟨q, rfl⟩ := Literal.hasType_bool.mp hw
  exact hf p q

private theorem admits_ints (hx : Ty.int.Admits x) (hy : Ty.int.Admits y)
    (hf : ∀ m n, t.Admits (f (.int m) (.int n))) :
    t.Admits (x.bind fun v => y.bind fun w => f v w) := by
  refine hx.bind fun v hv => hy.bind fun w hw => ?_
  obtain ⟨m, rfl⟩ := Literal.hasType_int.mp hv
  obtain ⟨n, rfl⟩ := Literal.hasType_int.mp hw
  exact hf m n

private theorem admits_strings (hx : Ty.string.Admits x) (hy : Ty.string.Admits y)
    (hf : ∀ r s, t.Admits (f (.string r) (.string s))) :
    t.Admits (x.bind fun v => y.bind fun w => f v w) := by
  refine hx.bind fun v hv => hy.bind fun w hw => ?_
  obtain ⟨r, rfl⟩ := Literal.hasType_string.mp hv
  obtain ⟨s, rfl⟩ := Literal.hasType_string.mp hw
  exact hf r s

end Strict

private theorem admits_onInts {op : Arithmetic} (h : op ≠ .power) (a b : Int64) :
    Ty.int.Admits (op.onInts a b) := by
  cases op with
  | power => exact absurd rfl h
  | add | sub | mul => rfl
  | div | mod =>
    unfold Arithmetic.onInts
    dsimp only
    split <;> rfl

namespace Expr

variable {types : Context} {env : Environment}

/-- Operands that are admitted give an operation that is. The right operand of a connective may
not be evaluated, and that of `??` never is, since a typed value is not null. -/
theorem admits_binary {op : BinaryOp} {a b t : Ty} (h : op.Types a b t) {l r : Expr}
    (hl : a.Admits (eval env l)) (hr : b.Admits (eval env r)) :
    t.Admits (eval env (binary op l r)) := by
  cases h with
  | arithmetic hop => exact admits_ints hl hr fun m n => admits_onInts hop m n
  | join => exact admits_strings hl hr fun _ _ => rfl
  | bits | shift | orderInts => exact admits_ints hl hr fun _ _ => rfl
  | truths => exact admits_bools hl hr fun _ _ => rfl
  | equality => exact hl.bind fun _ _ => hr.bind fun _ _ => rfl
  | orderStrings => exact admits_strings hl hr fun _ _ => rfl
  | logical op =>
    refine hl.bind fun v hv => ?_
    obtain ⟨d, rfl⟩ := Literal.hasType_bool.mp hv
    change Ty.bool.Admits (if d = op.zero then .ok (.bool d) else (eval env r).bind _)
    split
    · rfl
    · refine hr.bind fun w hw => ?_
      obtain ⟨q, rfl⟩ := Literal.hasType_bool.mp hw
      rfl
  | coalesce =>
    refine hl.bind fun v hv => ?_
    rw [hv.isNull_eq_false]
    exact hv

/-- A typed expression has a value of its type or divides by zero. -/
theorem HasType.admits_eval {e : Expr} {t : Ty} (h : HasType types e t) (henv : types.Fits env) :
    t.Admits (eval env e) := by
  induction h with
  | constant hv => exact hv
  | @parameter name t ht =>
    obtain ⟨v, hv, hvt⟩ := henv name t ht
    rw [eval, hv]
    exact hvt
  | unary hop _ ih => exact ih.bind fun v hv => hop.admits hv
  | binary hop _ _ ihl ihr => exact admits_binary hop ihl ihr
  | conditional _ _ _ ihc ihx ihy =>
    refine ihc.bind fun v hv => ?_
    obtain ⟨c, rfl⟩ := Literal.hasType_bool.mp hv
    cases c
    · exact ihy
    · exact ihx
  | lambda _ ih => exact ih

end Expr

end ExprTree
