import ExprTree.Decimal.Shortest
import ExprTree.Text.Quoted

/-! # Literals

The values that constants hold and that evaluation yields: null, booleans, 64-bit integers,
binary64 floats and strings. -/

namespace ExprTree

inductive Literal where
  | null
  | bool (value : Bool)
  | int (value : Int64)
  | float (value : Float)
  | string (value : String)
  deriving DecidableEq

inductive Kind where
  | null | bool | int | float | string
  deriving DecidableEq

def Kind.name : Kind → String
  | .null => "null"
  | .bool => "bool"
  | .int => "int"
  | .float => "float"
  | .string => "string"

namespace Literal

def kind : Literal → Kind
  | .null => .null
  | .bool _ => .bool
  | .int _ => .int
  | .float _ => .float
  | .string _ => .string

def isNull : Literal → Bool
  | .null => true
  | _ => false

def bool? : Literal → Option Bool
  | .bool b => some b
  | _ => none

/-- The comparison behind `==`: literals of different kinds differ, the two zeros are one value,
and so are all NaNs. -/
def sameValue : Literal → Literal → Bool
  | .float a, .float b => a == b || (a.isNaN && b.isNaN)
  | a, b => a = b

/-- Equality that follows the floats' own comparison: the two zeros are equal, a NaN equals
nothing. -/
def agrees : Literal → Literal → Bool
  | .float a, .float b => a == b
  | a, b => a = b

end Literal

/-- The text of a float: whole numbers with every digit and `.0`, other finite numbers as their
shortest decimal, always in positional notation. -/
def floatText (x : Float) : String :=
  match Binary64.ofFloat x with
  | .nan => "NaN"
  | .infinite negative => sign negative ++ "inf"
  | .finite negative magnitude =>
    sign negative ++
      if magnitude.isWhole then toString magnitude.floor ++ ".0"
      else positional magnitude.shortest.digits (-magnitude.shortest.exponent).toNat
where
  sign (negative : Bool) : String := if negative then "-" else ""

def Literal.text : Literal → String
  | .null => "null"
  | .bool b => if b then "true" else "false"
  | .int n => toString n.toInt
  | .float x => floatText x
  | .string s => quoted s

end ExprTree
