import ExprTree.Text.Integer
import Mathlib.Algebra.Group.Int.Defs

/-!
# Numerals

The texts that are read as 64-bit numbers are the decimal numerals of these numbers, and the text of
a number is one of them.
-/

namespace ExprTree

/-- One or more decimal digits. -/
def IsDigits (s : List Char) : Prop := s ≠ [] ∧ ∀ c ∈ s, c.isDigit = true

/-- A number written in decimal digits, behind a single sign or without one. -/
inductive Numeral : List Char → Int → Prop where
  | unsigned {digits : List Char} : IsDigits digits →
      Numeral digits (Nat.ofDigitChars 10 digits 0)
  | plus {digits : List Char} : IsDigits digits →
      Numeral ('+' :: digits) (Nat.ofDigitChars 10 digits 0)
  | minus {digits : List Char} : IsDigits digits →
      Numeral ('-' :: digits) (-(Nat.ofDigitChars 10 digits 0))

private theorem ofDigitChars_ge (digits : List Char) (value : Nat) :
    value ≤ Nat.ofDigitChars 10 digits value := by
  induction digits generalizing value with
  | nil => exact Nat.le_of_eq Nat.ofDigitChars_nil.symm
  | cons c digits ih =>
    have := ih (10 * value + (c.toNat - '0'.toNat))
    rw [Nat.ofDigitChars_cons]
    omega

theorem continueNumber_eq_ok_iff {limit value n : Nat} {digits : List Char}
    (hvalue : value ≤ limit) : continueNumber limit value digits = .ok n ↔
      (∀ c ∈ digits, c.isDigit = true) ∧ Nat.ofDigitChars 10 digits value = n ∧ n ≤ limit := by
  induction digits generalizing value with
  | nil =>
    rw [continueNumber, Nat.ofDigitChars_nil]
    constructor
    · rintro ⟨⟩
      exact ⟨by simp, rfl, hvalue⟩
    · rintro ⟨-, rfl, -⟩
      rfl
  | cons c digits ih =>
    rw [continueNumber, List.forall_mem_cons, Nat.ofDigitChars_cons]
    by_cases hc : c.isDigit = true
    · by_cases hnext : 10 * value + (c.toNat - '0'.toNat) ≤ limit
      · simp only [hc, hnext, if_true, true_and]
        exact ih hnext
      · have hge := ofDigitChars_ge digits (10 * value + (c.toNat - '0'.toNat))
        simp only [hc, hnext, if_true, if_false, true_and]
        constructor
        · intro h
          cases h
        · rintro ⟨-, rfl, hle⟩
          omega
    · simp [hc]

theorem readDigits_eq_ok_iff {limit n : Nat} {digits : List Char} :
    readDigits limit digits = .ok n ↔
      IsDigits digits ∧ Nat.ofDigitChars 10 digits 0 = n ∧ n ≤ limit := by
  cases digits with
  | nil =>
    constructor
    · intro h
      cases h
    · rintro ⟨⟨hne, -⟩, -⟩
      exact absurd rfl hne
  | cons c digits =>
    rw [readDigits, continueNumber_eq_ok_iff (Nat.zero_le limit), IsDigits]
    · simp
    · simp

section

variable {digits : List Char} {i : Int}

private theorem IsDigits.ne_cons {c : Char} (hc : c.isDigit = false) (h : IsDigits digits)
    (rest : List Char) : digits ≠ c :: rest := by
  rintro rfl
  have hdigit := h.2 c List.mem_cons_self
  rw [hc] at hdigit
  cases hdigit

theorem numeral_minus_iff :
    Numeral ('-' :: digits) i ↔ IsDigits digits ∧ -(Nat.ofDigitChars 10 digits 0 : Int) = i := by
  constructor
  · intro h
    cases h with
    | unsigned h => exact absurd rfl (h.ne_cons (by decide) digits)
    | minus h => exact ⟨h, rfl⟩
  · rintro ⟨h, rfl⟩
    exact .minus h

theorem numeral_plus_iff :
    Numeral ('+' :: digits) i ↔ IsDigits digits ∧ (Nat.ofDigitChars 10 digits 0 : Int) = i := by
  constructor
  · intro h
    cases h with
    | unsigned h => exact absurd rfl (h.ne_cons (by decide) digits)
    | plus h => exact ⟨h, rfl⟩
  · rintro ⟨h, rfl⟩
    exact .plus h

theorem numeral_unsigned_iff (hminus : ∀ rest, digits ≠ '-' :: rest)
    (hplus : ∀ rest, digits ≠ '+' :: rest) :
    Numeral digits i ↔ IsDigits digits ∧ (Nat.ofDigitChars 10 digits 0 : Int) = i := by
  constructor
  · intro h
    cases h with
    | unsigned h => exact ⟨h, rfl⟩
    | plus h => exact absurd rfl (hplus _)
    | minus h => exact absurd rfl (hminus _)
  · rintro ⟨h, rfl⟩
    exact .unsigned h

private theorem map_readDigits_eq_some_iff {limit : Nat} {f : Nat → Int64} {n : Int64} :
    (readDigits limit digits).toOption.map f = some n ↔
      IsDigits digits ∧ Nat.ofDigitChars 10 digits 0 ≤ limit ∧
        f (Nat.ofDigitChars 10 digits 0) = n := by
  have hread : ∀ m, (readDigits limit digits).toOption = some m ↔
      readDigits limit digits = .ok m := by
    intro m
    cases readDigits limit digits <;> simp [Except.toOption]
  simp only [Option.map_eq_some_iff, hread, readDigits_eq_ok_iff]
  constructor
  · rintro ⟨m, ⟨hdigits, rfl, hle⟩, rfl⟩
    exact ⟨hdigits, hle, rfl⟩
  · rintro ⟨hdigits, hle, rfl⟩
    exact ⟨_, ⟨hdigits, rfl, hle⟩, rfl⟩

private theorem ofInt_eq_iff {n : Int64} :
    (-2 ^ 63 ≤ i ∧ i < 2 ^ 63) ∧ Int64.ofInt i = n ↔ i = n.toInt := by
  constructor
  · rintro ⟨⟨hlow, hhigh⟩, rfl⟩
    exact (Int64.toInt_ofInt_of_le hlow hhigh).symm
  · rintro rfl
    exact ⟨⟨n.le_toInt, n.toInt_lt⟩, Int64.ofInt_toInt n⟩

end

private theorem natCast_range_iff {v : Nat} :
    (-2 ^ 63 ≤ (v : Int) ∧ (v : Int) < 2 ^ 63) ↔ v ≤ 0x7fffffffffffffff := by
  omega

private theorem neg_natCast_range_iff {v : Nat} :
    (-2 ^ 63 ≤ -(v : Int) ∧ -(v : Int) < 2 ^ 63) ↔ v ≤ 0x8000000000000000 := by
  omega

/-- A 64-bit number is read from exactly the numerals of it. -/
theorem readInt64?_eq_some_iff {s : List Char} {n : Int64} :
    readInt64? s = some n ↔ Numeral s n.toInt := by
  unfold readInt64?
  split
  · rw [map_readDigits_eq_some_iff, numeral_minus_iff, ← ofInt_eq_iff, neg_natCast_range_iff]
  · rw [map_readDigits_eq_some_iff, numeral_plus_iff, ← ofInt_eq_iff, natCast_range_iff]
  · rename_i hminus hplus
    rw [map_readDigits_eq_some_iff, numeral_unsigned_iff hminus hplus, ← ofInt_eq_iff,
      natCast_range_iff]

theorem isDigit_of_mem_toDigits {n : Nat} {c : Char} (h : c ∈ Nat.toDigits 10 n) :
    c.isDigit = true :=
  Nat.isDigit_of_mem_toDigits (by decide) (by decide) h

theorem isDigits_toDigits (n : Nat) : IsDigits (Nat.toDigits 10 n) :=
  ⟨Nat.toDigits_ne_nil, fun _ => isDigit_of_mem_toDigits⟩

theorem toList_toString_of_nonneg {i : Int} (h : 0 ≤ i) :
    (toString i).toList = Nat.toDigits 10 i.toNat := by
  rw [Int.toString_eq_repr, Int.repr_eq_if, if_pos h, Nat.toList_repr]

theorem toList_toString_of_neg {i : Int} (h : i < 0) :
    (toString i).toList = '-' :: Nat.toDigits 10 (-i).toNat := by
  have hn : ¬ 0 ≤ i := by omega
  rw [Int.toString_eq_repr, Int.repr_eq_if, if_neg hn, String.toList_append, Nat.toList_repr]
  rfl

theorem head_toDigits (n : Nat) :
    ∃ c digits, Nat.toDigits 10 n = c :: digits ∧ c.isDigit = true := by
  cases h : Nat.toDigits 10 n with
  | nil => exact absurd h Nat.toDigits_ne_nil
  | cons c digits =>
    refine ⟨c, digits, rfl, isDigit_of_mem_toDigits (n := n) ?_⟩
    rw [h]
    exact List.mem_cons_self

theorem numeral_toString (i : Int) : Numeral (toString i).toList i := by
  by_cases h : 0 ≤ i
  · have hdigits := Numeral.unsigned (isDigits_toDigits i.toNat)
    rw [Nat.ofDigitChars_ten_toDigits, Int.toNat_of_nonneg h] at hdigits
    rwa [toList_toString_of_nonneg h]
  · have hdigits := Numeral.minus (isDigits_toDigits (-i).toNat)
    rw [Nat.ofDigitChars_ten_toDigits, Int.toNat_of_nonneg (by omega), Int.neg_neg] at hdigits
    rwa [toList_toString_of_neg (by omega)]

theorem readInt64?_toString (n : Int64) : readInt64? (toString n.toInt).toList = some n :=
  readInt64?_eq_some_iff.mpr (numeral_toString n.toInt)

section Negative

variable {n : Int64}

private theorem toInt_neg_of_ne (h : n ≠ Int64.minValue) : (-n).toInt = -n.toInt := by
  have hlow := n.le_toInt
  have hhigh := n.toInt_lt
  have hne : n.toInt ≠ Int64.minValue.toInt := fun heq => h (Int64.toInt_inj.mp heq)
  rw [Int64.toInt_minValue] at hne
  rw [Int64.toInt_neg]
  exact Int.bmod_eq_of_le (by omega) (by omega)

theorem toInt_neg_of_neg (h : n < 0) (hne : -n ≠ n) : (-n).toInt = -n.toInt := by
  apply toInt_neg_of_ne
  rintro rfl
  exact hne rfl

theorem eq_minValue (hneg : n.toInt < 0) (h : ¬ (n < 0 ∧ -n ≠ n)) : n = Int64.minValue := by
  have hself : -n = n := Decidable.not_not.mp fun hne => h ⟨Int64.lt_iff_toInt_lt.mpr hneg, hne⟩
  refine Decidable.not_not.mp fun hmin => ?_
  have hint := toInt_neg_of_ne hmin
  rw [hself] at hint
  omega

end Negative

end ExprTree
