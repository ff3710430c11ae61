/-! # JSON texts

Objects of strings and numbers, printed over several lines with two blanks of indentation. -/

namespace ExprTree

inductive Json where
  | string (value : String)
  | number (value : Int)
  | object (fields : List (String × Json))

namespace Json

private def hexDigit (n : Nat) : Char :=
  Char.ofNat (if n < 10 then '0'.toNat + n else 'a'.toNat + (n - 10))

/-- Quotation marks, backslashes and control characters are escaped. -/
def escape (c : Char) : List Char :=
  match c with
  | '"' => ['\\', '"']
  | '\\' => ['\\', '\\']
  | '\n' => ['\\', 'n']
  | '\r' => ['\\', 'r']
  | '\t' => ['\\', 't']
  | '\x08' => ['\\', 'b']
  | '\x0c' => ['\\', 'f']
  | c =>
    if c.toNat < 0x20 then
      ['\\', 'u', '0', '0', hexDigit (c.toNat / 16), hexDigit (c.toNat % 16)]
    else [c]

/-- A string between quotation marks. -/
def quote (s : String) : String :=
  "\"" ++ String.ofList (s.toList.flatMap escape) ++ "\""

private def indentation (depth : Nat) : String := String.ofList (List.replicate (2 * depth) ' ')

mutual

/-- The text of a value that stands `depth` objects deep. -/
def prettyAt (depth : Nat) : Json → String
  | string value => quote value
  | number value => toString value
  | object [] => "\x7b\x7d"
  | object (field :: fields) =>
    "\x7b\n" ++ prettyField (depth + 1) field ++ prettyFields (depth + 1) fields ++
      "\n" ++ indentation depth ++ "\x7d"
termination_by structural j => j

private def prettyField (depth : Nat) : String × Json → String
  | (name, value) => indentation depth ++ quote name ++ ": " ++ prettyAt depth value
termination_by structural f => f

private def prettyFields (depth : Nat) : List (String × Json) → String
  | [] => ""
  | field :: fields => ",\n" ++ prettyField depth field ++ prettyFields depth fields
termination_by structural fs => fs

end

def pretty (j : Json) : String := j.prettyAt 0

end Json

end ExprTree
