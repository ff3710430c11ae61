import ExprTree.CommandLine.Help
import ExprTree.CommandLine.Report
import ExprTree.CommandLine.Scenario
import ExprTree.Rules.Boolean
import ExprTree.Simplifier.Fixpoint

/-! # The command line

A run simplifies one of the built-in trees and prints it before and after. -/

namespace ExprTree

structure Outcome where
  code : UInt32
  stdout : String
  stderr : String
  deriving DecidableEq

namespace Outcome

def success (stdout : String) : Outcome := { code := 0, stdout, stderr := "" }

def failure (message : String) : Outcome :=
  { code := 1, stdout := "", stderr := "Error: " ++ message ++ "\n" }

def usage (error : UsageError) : Outcome :=
  { code := 2, stdout := "", stderr := error.message }

end Outcome

namespace CommandLine

def listing : String :=
  String.join (Scenario.all.map fun s => column 14 s.name ++ " " ++ s.description ++ "\n")

inductive RunError where
  | unknownScenario (name : String)
  | noFixpoint (name : String) (error : FixpointError)
  | stopped (failure : Failure)

def RunError.message : RunError → String
  | .unknownScenario name =>
    "unknown scenario `" ++ name ++ "` (known: " ++
      commaSeparated (Scenario.all.map (·.name)) ++ ")"
  | .noFixpoint name error =>
    "simplifying `" ++ name ++ "`\n\nCaused by:\n    " ++ error.message
  | .stopped failure => failure.message

/-- The simplified tree: one pass, or passes until nothing changes. -/
def simplified (a : Arguments) (scenario : Scenario) : Except RunError Expr :=
  if a.fixpoint then
    match (Simplifier.boolean.simplifyToFixpoint scenario.tree a.passes).outcome with
    | .ok (.ok e) => .ok e
    | .ok (.error error) => .error (.noFixpoint scenario.name error)
    | .error failure => .error (.stopped failure)
  else
    match (Simplifier.boolean.simplify scenario.tree).outcome with
    | .ok e => .ok e
    | .error failure => .error (.stopped failure)

def report (a : Arguments) : Except RunError Report := do
  match Scenario.find? a.scenarioName with
  | none => .error (.unknownScenario a.scenarioName)
  | some scenario =>
    return {
      scenario := scenario.name
      before := scenario.tree
      after := ← simplified a scenario
      bindings := .ofList a.bindings }

def execute (a : Arguments) : Outcome :=
  if a.help then .success helpText
  else if a.list then .success listing
  else
    match report a with
    | .error error => .failure error.message
    | .ok r => .success (if a.json then r.json.pretty ++ "\n" else r.text)

def run (arguments : List String) : Outcome :=
  match Arguments.read arguments with
  | .error error => .usage error
  | .ok a => execute a

end CommandLine

end ExprTree
