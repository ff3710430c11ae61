import ExprTree.CommandLine

/-! # The program -/

def main (arguments : List String) : IO UInt32 := do
  let outcome := ExprTree.CommandLine.run arguments
  IO.print outcome.stdout
  IO.eprint outcome.stderr
  return outcome.code
