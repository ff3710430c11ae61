import ExprTree.Query

/-! # Rules about the arms of a connective

These rules compare arms by asking the simplifier whether they are equivalent, so `!!a && !a` counts
as a contradiction although its arms differ. They take it for granted that arms have no side
effects. -/

namespace ExprTree

open Query (equivalent)

/-- `negation` is the negation of something equivalent to `other`. -/
def negates (negation other : Expr) : Query Bool :=
  match negation.not? with
  | some inner => equivalent other inner
  | none => return false

/-- One of the two is the negation of the other. -/
def complementary (a b : Expr) : Query Bool := negates a b <||> negates b a

/-- `a && !a` is false and `a || !a` is true. -/
def collapseComplement : Expr → Query (Option Expr)
  | .logical op left right => do
    if ← complementary right left then return some (.bool op.zero) else return none
  | _ => return none

/-- `other` is a conjunction or disjunction, as `op` says, with a side equivalent to `arm`. -/
def absorbs (op : Connective) (arm other : Expr) : Query Bool :=
  match other.binary? (.logical op) with
  | some (x, y) => equivalent arm x <||> equivalent arm y
  | none => return false

/-- The side that two disjunctions share, if their other sides are negations of each other. The
sides of the left disjunction are tried in order, for each of them those of the right one. -/
def resolvent (left right : Expr) : Query (Option Expr) := do
  match left.binary? (.logical .or), right.binary? (.logical .or) with
  | some (l₀, l₁), some (r₀, r₁) =>
    let layouts := [(l₀, l₁, r₀, r₁), (l₀, l₁, r₁, r₀), (l₁, l₀, r₀, r₁), (l₁, l₀, r₁, r₀)]
    let found ← layouts.findM? fun (shared, rest, candidate, other) =>
      equivalent shared candidate <&&> complementary rest other
    return found.map (·.1)
  | _, _ => return none

/-- `a && a` is `a`; so is `a && (a || x)`, and `(a || x) && (a || !x)`; dually for `||`, the last
of them apart. -/
def eliminateArm : Expr → Query (Option Expr)
  | .logical op left right => do
    if ← equivalent left right then return some left
    if ← absorbs op.dual left right then return some left
    if ← absorbs op.dual right left then return some right
    if op = .and then resolvent left right else return none
  | _ => return none

end ExprTree
