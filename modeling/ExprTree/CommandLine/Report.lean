import ExprTree.CommandLine.Binding
import ExprTree.Expr.Text
import ExprTree.Text.Json

/-! # Reports

What a run shows: the tree before and after, and the values of both where parameters are bound. -/

namespace ExprTree

structure Report where
  scenario : String
  before : Expr
  after : Expr
  bindings : Bindings

namespace Report

def valueText (r : Report) (tree : Expr) : String :=
  match tree.eval r.bindings.environment with
  | .ok value => value.text
  | .error e => "error: " ++ e.message

/-- The values before and after; there are none to show unless something is bound. -/
def values? (r : Report) : Option (String × String) :=
  if r.bindings.isEmpty then none
  else some (r.valueText r.before, r.valueText r.after)

def text (r : Report) : String :=
  "Original:   " ++ r.before.text ++ "\n" ++
  "Simplified: " ++ r.after.text ++ "\n" ++
    match r.values? with
    | none => ""
    | some (before, after) => "Value:      " ++ before ++ " -> " ++ after ++ "\n"

/-- The report as a JSON object; bindings and values are left out where there are none. -/
def json (r : Report) : Json :=
  .object <|
    [("scenario", .string r.scenario),
      ("original", .string r.before.text),
      ("simplified", .string r.after.text)] ++
    (if r.bindings.isEmpty then []
      else
        [("bindings",
          .object (r.bindings.entries.map fun (name, value) => (name, .number value.toInt)))]) ++
    match r.values? with
    | none => []
    | some (before, after) =>
      [("values", .object [("original", .string before), ("simplified", .string after)])]

end Report

end ExprTree
