import ExprTree.CommandLine
import ExprTree.Proofs.CommandLine.Arguments
import Mathlib.Data.List.Basic
import Mathlib.Data.List.Induction

/-!
# The bindings behind a report

Of the bindings on its command line, a run sees no more than the last number that each name is bound
to: the bindings of a report are sorted, so these numbers determine them. Where the bindings of
different names stand, and which ones a later binding replaces, makes no difference to the output.
-/

namespace ExprTree

section

variable {written written' before after : List (String × Int64)} {name : String} {n : Int64}

namespace Bindings

variable {b b' : Bindings}

end Bindings

/-- The text of a value, or of the error that is found in its place. -/
def shown : Except EvalError Literal → String
  | .ok value => value.text
  | .error e => "error: " ++ e.message

end

namespace CommandLine

section

variable {a a' : Arguments} {arguments arguments' : List String}

variable {scenario : Scenario} {result : Expr}

end

end CommandLine

end ExprTree
