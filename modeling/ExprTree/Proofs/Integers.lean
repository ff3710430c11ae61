import ExprTree.Proofs.Eval
import Mathlib.Data.Int.ModEq
import Mathlib.Algebra.Order.Group.Unbundled.Int

/-!
# Integer arithmetic

What the operators make of two 64-bit integers, in terms of exact arithmetic. Results that do not
fit are brought back into the range by a multiple of `2 ^ 64`; a quotient is cut off towards zero,
and of a shift count only its residue modulo 64 counts.
-/

namespace ExprTree

section Division

variable {a b : Int}

/-- Quotient and remainder of `a` by `b` in 64 bits. The quotient does not fit for the smallest
number divided by `-1` only, which gives that number again. -/
structure Divides (a b quotient remainder : Int) : Prop where
  identity : quotient * b + remainder ≡ a [ZMOD 2 ^ 64]
  lt : |remainder| < |b|
  sign : remainder = 0 ∨ remainder.sign = a.sign
  truncated : ¬ (a = -2 ^ 63 ∧ b = -1) → quotient = a.tdiv b
  overflow : a = -2 ^ 63 ∧ b = -1 → quotient = -2 ^ 63 ∧ remainder = 0

private theorem abs_tmod_lt (a : Int) (hb : b ≠ 0) : |a.tmod b| < |b| := by
  have hlt := Nat.mod_lt a.natAbs (Int.natAbs_pos.mpr hb)
  rw [← Int.natAbs_tmod] at hlt
  rw [Int.abs_eq_natAbs, Int.abs_eq_natAbs]
  exact_mod_cast hlt

private theorem sign_tmod_cases (a b : Int) : a.tmod b = 0 ∨ (a.tmod b).sign = a.sign := by
  by_cases h : b ∣ a
  · exact .inl (Int.tmod_eq_zero_of_dvd h)
  · exact .inr (by rw [Int.sign_tmod, if_neg h])

private theorem bmod_tdiv (ha : -2 ^ 63 ≤ a) (ha' : a < 2 ^ 63)
    (hfits : ¬ (a = -2 ^ 63 ∧ b = -1)) : (a.tdiv b).bmod (2 ^ 64) = a.tdiv b := by
  have hcases : b = 1 ∨ b = -1 ∨ b = 0 ∨ 2 ≤ b.natAbs := by omega
  have hrange : -2 ^ 63 ≤ a.tdiv b ∧ a.tdiv b < 2 ^ 63 := by
    rcases hcases with rfl | rfl | rfl | hb
    · rw [Int.tdiv_one]
      exact ⟨ha, ha'⟩
    · rw [Int.tdiv_neg, Int.tdiv_one]
      omega
    · rw [Int.tdiv_zero]
      omega
    · -- any other divisor at least halves the absolute value
      have habs : (a.tdiv b).natAbs = a.natAbs / b.natAbs := Int.natAbs_tdiv a b
      have hhalf : a.natAbs / b.natAbs ≤ a.natAbs / 2 := Nat.div_le_div_left hb (by decide)
      omega
  exact Int.bmod_eq_of_le (by omega) (by omega)

theorem divides_bmod_tdiv (ha : -2 ^ 63 ≤ a) (ha' : a < 2 ^ 63) (hb : b ≠ 0) :
    Divides a b ((a.tdiv b).bmod (2 ^ 64)) (a.tmod b) where
  identity := by
    have hquotient : (a.tdiv b).bmod (2 ^ 64) ≡ a.tdiv b [ZMOD 2 ^ 64] := Int.bmod_emod
    have hexact := (hquotient.mul_right b).add_right (a.tmod b)
    rwa [Int.tdiv_mul_add_tmod] at hexact
  lt := abs_tmod_lt a hb
  sign := sign_tmod_cases a b
  truncated := bmod_tdiv ha ha'
  overflow := by
    rintro ⟨rfl, rfl⟩
    decide

end Division

/-- By how many bits a shift with this right operand moves. -/
def Shift.distance (count : Int64) : Nat := (count.toBitVec.smod 64).toNat

namespace Shift

variable (n count : Int64)

private theorem toInt_smod : (count.toBitVec.smod 64).toInt = count.toInt % 64 := by
  have h64 : (64 : BitVec 64).toInt = 64 := by decide
  rw [BitVec.toInt_smod, h64, Int64.toInt_toBitVec]
  exact Int.fmod_eq_emod_of_nonneg _ (by decide)

private theorem natCast_distance : (distance count : Int) = count.toInt % 64 := by
  have hsmod := toInt_smod count
  have hword := (count.toBitVec.smod 64).isLt
  rw [BitVec.toInt_eq_toNat_cond] at hsmod
  rw [distance]
  split at hsmod <;> omega

theorem distance_modEq : distance count ≡ count.toInt [ZMOD 64] := by
  rw [natCast_distance]
  exact Int.mod_modEq _ _

theorem distance_lt : distance count < 64 := by
  have hmod := natCast_distance count
  omega

theorem toInt_shiftLeft :
    (n <<< count).toInt = (n.toInt * 2 ^ distance count).bmod (2 ^ 64) := by
  rw [← Int64.toInt_toBitVec, Int64.toBitVec_shiftLeft, BitVec.shiftLeft_eq',
    BitVec.toInt_shiftLeft, Nat.shiftLeft_eq]
  rw [← Int64.toInt_toBitVec n, BitVec.toInt_eq_toNat_bmod]
  push_cast
  rw [Int.bmod_mul_bmod]
  rfl

theorem toInt_shiftRight : (n >>> count).toInt = n.toInt.fdiv (2 ^ distance count) := by
  rw [← Int64.toInt_toBitVec, Int64.toBitVec_shiftRight, BitVec.sshiftRight',
    BitVec.toInt_sshiftRight, Int.shiftRight_eq_div_pow, Int64.toInt_toBitVec]
  rw [Int.fdiv_eq_ediv_of_nonneg _ (Int.pow_nonneg (by decide)), distance, Nat.cast_pow]
  rfl

end Shift

namespace Expr

variable {env : Environment} {l r : Expr}

/-- The expression has the integer `i` for its value. -/
def Yields (env : Environment) (e : Expr) (i : Int) : Prop :=
  ∃ n : Int64, eval env e = .ok (.int n) ∧ n.toInt = i

theorem yields_constant (n : Int64) : Yields env (constant (.int n)) n.toInt := ⟨n, rfl, rfl⟩

theorem yields_parameter {name : String} {n : Int64} (h : env name = some (.int n)) :
    Yields env (parameter name) n.toInt := by
  refine ⟨n, ?_, rfl⟩
  simp [eval, h]

section Operands

variable {a b : Int64}

theorem eval_arithmetic_of_ints (hl : eval env l = .ok (.int a)) (hr : eval env r = .ok (.int b))
    (op : Arithmetic) : eval env (binary (.arithmetic op) l r) = op.onInts a b := by
  simp only [eval, hl, hr]
  cases op <;> rfl

theorem eval_division_of_ne_zero (hl : eval env l = .ok (.int a))
    (hr : eval env r = .ok (.int b)) (hb : b ≠ 0) :
    eval env (binary (.arithmetic .div) l r) = .ok (.int (a / b)) ∧
      eval env (binary (.arithmetic .mod) l r) = .ok (.int (a % b)) := by
  rw [eval_arithmetic_of_ints hl hr, eval_arithmetic_of_ints hl hr]
  simp [Arithmetic.onInts, hb]

theorem eval_division_eq_error_iff (hl : eval env l = .ok (.int a))
    (hr : eval env r = .ok (.int b)) {op : Arithmetic} (hop : op = .div ∨ op = .mod) :
    eval env (binary (.arithmetic op) l r) = .error .divisionByZero ↔ b = 0 := by
  rw [eval_arithmetic_of_ints hl hr]
  rcases hop with rfl | rfl <;> simp [Arithmetic.onInts]

theorem eval_shift_of_ints (hl : eval env l = .ok (.int a)) (hr : eval env r = .ok (.int b)) :
    eval env (binary (.shift .left) l r) = .ok (.int (a <<< b)) ∧
      eval env (binary (.shift .right) l r) = .ok (.int (a >>> b)) := by
  simp only [eval, hl, hr]
  exact ⟨rfl, rfl⟩

end Operands

/-- Sums, differences, products and opposites of integers are the exact ones up to a multiple of
`2 ^ 64`. A division fails when the divisor is zero and for no other reason. The distance of a shift
lies between 0 and 63, whatever the right operand; a shift to the left multiplies by a power of two,
again up to a multiple of `2 ^ 64`, and one to the right divides by it and rounds down. -/
theorem eval_integers {a b : Int} (hl : Yields env l a) (hr : Yields env r b) :
    Yields env (binary (.arithmetic .add) l r) ((a + b).bmod (2 ^ 64)) ∧
    Yields env (binary (.arithmetic .sub) l r) ((a - b).bmod (2 ^ 64)) ∧
    Yields env (binary (.arithmetic .mul) l r) ((a * b).bmod (2 ^ 64)) ∧
    Yields env (unary .negate l) ((-a).bmod (2 ^ 64)) ∧
    (eval env (binary (.arithmetic .div) l r) = .error .divisionByZero ↔ b = 0) ∧
    (eval env (binary (.arithmetic .mod) l r) = .error .divisionByZero ↔ b = 0) ∧
    (b ≠ 0 → ∃ quotient remainder,
      Yields env (binary (.arithmetic .div) l r) quotient ∧
      Yields env (binary (.arithmetic .mod) l r) remainder ∧
      Divides a b quotient remainder) ∧
    ∃ k : Nat, k < 64 ∧ k ≡ b [ZMOD 64] ∧
      Yields env (binary (.shift .left) l r) ((a * 2 ^ k).bmod (2 ^ 64)) ∧
      Yields env (binary (.shift .right) l r) (a.fdiv (2 ^ k)) := by
  obtain ⟨x, hx, rfl⟩ := hl
  obtain ⟨y, hy, rfl⟩ := hr
  have hzero : y.toInt = 0 ↔ y = 0 := Int64.toInt_inj (y := 0)
  rw [hzero]
  refine ⟨?_, ?_, ?_, ?_, ?_, ?_, ?_, ?_⟩
  · exact ⟨x + y, eval_arithmetic_of_ints hx hy .add, Int64.toInt_add x y⟩
  · exact ⟨x - y, eval_arithmetic_of_ints hx hy .sub, Int64.toInt_sub x y⟩
  · exact ⟨x * y, eval_arithmetic_of_ints hx hy .mul, Int64.toInt_mul x y⟩
  · exact ⟨-x, eval_unary_eq_ok.mpr ⟨_, hx, rfl⟩, Int64.toInt_neg x⟩
  · exact eval_division_eq_error_iff hx hy (.inl rfl)
  · exact eval_division_eq_error_iff hx hy (.inr rfl)
  · intro hne
    have hy0 : y ≠ 0 := hzero.not.mp hne
    obtain ⟨hdiv, hmod⟩ := eval_division_of_ne_zero hx hy hy0
    exact ⟨_, _, ⟨_, hdiv, Int64.toInt_div x y⟩, ⟨_, hmod, Int64.toInt_mod x y⟩,
      divides_bmod_tdiv x.le_toInt x.toInt_lt hne⟩
  · obtain ⟨hleft, hright⟩ := eval_shift_of_ints hx hy
    exact ⟨Shift.distance y, Shift.distance_lt y, Shift.distance_modEq y,
      ⟨_, hleft, Shift.toInt_shiftLeft x y⟩, ⟨_, hright, Shift.toInt_shiftRight x y⟩⟩

/-- The smallest number and a parameter bound to `-1`, which as the right operand of a shift moves
by 63 bits. -/
theorem eval_integers_smallestByMinusOne :
    let env : Environment := fun name => if name = "b" then some (.int (-1)) else none
    let l : Expr := constant (.int Int64.minValue)
    let r : Expr := parameter "b"
    Yields env l (-2 ^ 63) ∧ Yields env r (-1) ∧
      Yields env (unary .negate l) (-2 ^ 63) ∧
      Yields env (binary (.arithmetic .div) l r) (-2 ^ 63) ∧
      Yields env (binary (.arithmetic .mod) l r) 0 ∧
      Yields env (binary (.shift .left) l r) 0 ∧
      Yields env (binary (.shift .right) l r) (-1) := by
  intro env l r
  have hl : Yields env l (-2 ^ 63) := yields_constant Int64.minValue
  have hr : Yields env r (-1) := yields_parameter (n := -1) rfl
  obtain ⟨-, -, -, hneg, -, -, hdivision, k, hk, hmod, hleft, hright⟩ := eval_integers hl hr
  obtain ⟨quotient, remainder, hq, hm, hdivides⟩ := hdivision (by decide)
  obtain ⟨rfl, rfl⟩ := hdivides.overflow ⟨rfl, rfl⟩
  have hk63 : k = 63 := by
    unfold Int.ModEq at hmod
    omega
  subst hk63
  exact ⟨hl, hr, hneg, hq, hm, hleft, hright⟩

end Expr

end ExprTree
