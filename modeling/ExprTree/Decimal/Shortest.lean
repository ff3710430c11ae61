import ExprTree.Decimal.Binary

/-! # Shortest decimals

The shortest decimal of a binary64 magnitude is the one with the fewest digits among those that
read back as it, and of these the nearest; a tie goes to the larger. -/

namespace ExprTree

structure Decimal where
  digits : Nat
  exponent : Int
  deriving DecidableEq

namespace Magnitude

/-- `numerator / denominator` is a quarter of the last binary place of `x`, in units of
`10 ^ grid`. -/
private def quarterUlp (x : Magnitude) (grid : Int) : Nat × Nat :=
  let binary := x.exponent - 2
  (Nat.pow 10 (-grid).toNat <<< binary.toNat, Nat.pow 10 grid.toNat <<< (-binary).toNat)

/-- The multiple of `10 ^ grid` nearest to `x` among the two neighbours of `x` that read back
as `x`, if one does. The ends of the interval that reads back as `x` belong to it when the mantissa
is even. -/
def onGrid? (x : Magnitude) (grid : Int) : Option Nat :=
  let (unit, one) := x.quarterUlp grid
  let value := 4 * x.mantissa * unit
  let low := (4 * x.mantissa - if x.narrowBelow then 1 else 2) * unit
  let high := (4 * x.mantissa + 2) * unit
  let readsBack (n : Nat) :=
    if x.mantissa % 2 = 0 then low ≤ n * one && n * one ≤ high
    else low < n * one && n * one < high
  let below := value / one
  let above := below + 1
  match readsBack below, readsBack above with
  | true, true => some (if value - below * one < above * one - value then below else above)
  | true, false => some below
  | false, true => some above
  | false, false => none

/-- The first grid at or below `grid`, of `count` grids tried, that holds a decimal of `x`. -/
def shortestFrom (x : Magnitude) (grid : Int) : Nat → Decimal
  | 0 => ⟨x.floor, 0⟩
  | count + 1 =>
    match x.onGrid? grid with
    | some digits => ⟨digits, grid⟩
    | none => x.shortestFrom (grid - 1) count

/-- The shortest decimal of `x`. The first grid tried is coarser than `x` itself, by a decimal
digit or two (`30103 / 100000` is just above the decimal logarithm of two), and seventeen digits
always suffice. -/
def shortest (x : Magnitude) : Decimal :=
  let bits := x.mantissa.log2 + x.exponent + 2
  x.shortestFrom (bits * 30103 / 100000 + 1) 21

end Magnitude

/-- Positional notation of `digits / 10 ^ places`, with all its places. -/
def positional (digits places : Nat) : String :=
  let fraction := toString (digits % Nat.pow 10 places)
  toString (digits / Nat.pow 10 places) ++ "." ++
    String.ofList (List.replicate (places - fraction.length) '0') ++ fraction

end ExprTree
