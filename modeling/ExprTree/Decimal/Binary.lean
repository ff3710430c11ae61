/-! # Binary64 numbers as exact fractions

A finite number is a sign and `mantissa * 2 ^ exponent`; everything that has to be exact about it
(its shortest decimal, the remainder of a division) is computed on these two in whole numbers. -/

namespace ExprTree

structure Magnitude where
  mantissa : Nat
  exponent : Int
  /-- The next smaller magnitude lies half as far away as the next larger one. -/
  narrowBelow : Bool
  deriving DecidableEq

inductive Binary64 where
  | finite (negative : Bool) (magnitude : Magnitude)
  | infinite (negative : Bool)
  | nan
  deriving DecidableEq

namespace Magnitude

def isWhole (x : Magnitude) : Bool :=
  0 ≤ x.exponent || x.mantissa % (1 <<< x.exponent.natAbs) == 0

def floor (x : Magnitude) : Nat :=
  if 0 ≤ x.exponent then x.mantissa <<< x.exponent.natAbs
  else x.mantissa >>> x.exponent.natAbs

/-- The exact remainder of `x` by `y`, taken on their common binary grid. -/
def remainder (x y : Magnitude) : Magnitude :=
  let grid := min x.exponent y.exponent
  let onGrid (z : Magnitude) := z.mantissa <<< (z.exponent - grid).natAbs
  { mantissa := onGrid x % onGrid y, exponent := grid, narrowBelow := false }

/-- The number of this magnitude; exact when the mantissa has at most 53 bits. -/
def toFloat (x : Magnitude) : Float :=
  x.mantissa.toUInt64.toFloat.scaleB x.exponent

end Magnitude

/-- Reads a number: one sign bit, eleven bits of exponent, fifty-two bits of fraction. -/
def Binary64.ofFloat (x : Float) : Binary64 :=
  let bits := x.toBits.toNat
  let negative := bits.testBit 63
  let biased : Nat := bits >>> 52 % 0x800
  let fraction : Nat := bits % (1 <<< 52)
  if biased = 0x7ff then
    if fraction = 0 then .infinite negative else .nan
  else if biased = 0 then
    .finite negative ⟨fraction, -1074, false⟩
  else
    .finite negative ⟨1 <<< 52 + fraction, (biased : Int) - 1075, fraction = 0 && biased ≠ 1⟩

end ExprTree
