import ExprTree.CommandLine.Arguments

/-! # Help

The arguments and what each is for. -/

namespace ExprTree

def Flag.description : Flag → String
  | .list => "List scenarios and exit"
  | .fixpoint => "Repeat whole-tree passes until the result stops changing"
  | .json => "Print a JSON report instead of text"
  | .help => "Print help"

def ValueOption.description : ValueOption → String
  | .maxPasses =>
    "Pass limit for --fixpoint [default: " ++ toString Arguments.defaultPasses ++ "]"
  | .bind => "Bind a parameter to an integer, as NAME=INT. Repeatable"

def column (width : Nat) (s : String) : String :=
  s ++ String.ofList (List.replicate (width - s.length) ' ')

private def helpLine (short usage description : String) : String :=
  "  " ++ column 4 short ++ column 27 usage ++ description ++ "\n"

private def flagLine (short : String) (flag : Flag) : String :=
  helpLine short flag.usage flag.description

private def optionLine (option : ValueOption) : String :=
  helpLine "" option.usage option.description

def helpText : String :=
  "Expression tree simplifier\n\nUsage: [OPTIONS] [SCENARIO]\n\nArguments:\n" ++
  "  [SCENARIO]  Scenario to simplify [default: " ++ Arguments.defaultScenario ++ "]\n" ++
  "\nOptions:\n" ++
  flagLine "" .list ++ flagLine "" .fixpoint ++ optionLine .maxPasses ++ flagLine "" .json ++
  optionLine .bind ++ flagLine "-h, " .help

end ExprTree
