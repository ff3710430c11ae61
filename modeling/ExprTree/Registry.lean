import ExprTree.Expr
import ExprTree.Trace

/-! # Reducers of extensions

An extension node has no meaning of its own; a reducer registered for its name lowers it to other
nodes. Lowering happens before anything else is done to a node. -/

namespace ExprTree

/-- What replaces an extension, given its operands. -/
abbrev Reducer := List Expr → Expr

/-- The reducers by name; of two with one name the first counts. -/
structure Registry where
  reducers : List (String × Reducer) := []

namespace Registry

def empty : Registry := {}

def register (r : Registry) (name : String) (reducer : Reducer) : Registry :=
  { reducers := (name, reducer) :: r.reducers }

def find? (r : Registry) (name : String) : Option Reducer := r.reducers.lookup name

def canReduce (r : Registry) (name : String) : Bool := (r.find? name).isSome

@[simp] theorem find?_register (r : Registry) (name other : String) (reducer : Reducer) :
    (r.register name reducer).find? other =
      if other = name then some reducer else r.find? other := by
  simp only [find?, register, List.lookup_cons]
  by_cases h : other = name
  · simp [h]
  · simp [h, beq_eq_false_iff_ne.mpr h]

/-- One replacement of a reducible extension, with its name. -/
def step? (r : Registry) : Expr → Option (String × Expr)
  | .extension name operands => (r.find? name).map fun reducer => (name, reducer operands)
  | _ => none

/-- The longest chain of replacements of one node. -/
def maxSteps : Nat := 64

/-- Replaces the node as long as it is a reducible extension, at most `steps` times. Taking all the
steps counts as not having settled. -/
def reduceWithin (r : Registry) : Nat → Expr → Traced Expr
  | 0, e => do
    Traced.report (.unsettled maxSteps)
    return e
  | steps + 1, e =>
    match r.step? e with
    | none => return e
    | some (name, next) => do
      Traced.report (.reducing name)
      r.reduceWithin steps next

/-- Lowers a node until it is no reducible extension, or the longest chain is used up. -/
def reduce (r : Registry) (e : Expr) : Traced Expr := r.reduceWithin maxSteps e

end Registry

end ExprTree
