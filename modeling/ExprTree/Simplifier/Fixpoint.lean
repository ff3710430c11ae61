import ExprTree.Simplifier

/-! # Passes until nothing changes -/

namespace ExprTree

inductive FixpointError where
  | zeroPasses
  | unsettled (passes : Nat) (last : Expr)
  deriving DecidableEq

def FixpointError.message : FixpointError → String
  | .zeroPasses => "fixpoint search needs at least one pass"
  | .unsettled passes last =>
    "no fixpoint after " ++ toString passes ++ " passes, last result: " ++ last.text

namespace Fixpoint

/-- The passes after the first `done` ones, `remaining` at most. -/
def settle (pass : Expr → Run Expr) (done : Nat) : Nat → Expr → Run (Except FixpointError Expr)
  | 0, e => return .error (.unsettled done e)
  | remaining + 1, e => do
    let next ← pass e
    Run.report (.pass (done + 1) next.text)
    if next.text = e.text then return .ok next
    else settle pass (done + 1) remaining next

/-- Repeats a pass until it leaves the text of the tree as it was; what that pass left is the
answer. -/
def search (pass : Expr → Run Expr) (e : Expr) (maxPasses : Nat) :
    Run (Except FixpointError Expr) :=
  if maxPasses = 0 then return .error .zeroPasses
  else settle pass 0 maxPasses e

end Fixpoint

def Simplifier.simplifyToFixpoint (s : Simplifier) (e : Expr) (maxPasses : Nat) :
    Run (Except FixpointError Expr) :=
  Fixpoint.search s.simplify e maxPasses

end ExprTree
