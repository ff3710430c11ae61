/-! # Quoted strings -/

namespace ExprTree

/-- A quotation mark, a backslash, a line feed, a tab and a carriage return are escaped; every
other character stands for itself. -/
def escapeChar : Char → List Char
  | '"' => ['\\', '"']
  | '\\' => ['\\', '\\']
  | '\n' => ['\\', 'n']
  | '\t' => ['\\', 't']
  | '\r' => ['\\', 'r']
  | c => [c]

def quoted (s : String) : String :=
  "\"" ++ String.ofList (s.toList.flatMap escapeChar) ++ "\""

end ExprTree
