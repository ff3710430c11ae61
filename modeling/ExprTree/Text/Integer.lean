/-! # Reading whole numbers -/

namespace ExprTree

inductive NumberError where
  | empty | invalidDigit | tooLarge
  deriving DecidableEq

def NumberError.message : NumberError → String
  | .empty => "cannot parse integer from empty string"
  | .invalidDigit => "invalid digit found in string"
  | .tooLarge => "number too large to fit in target type"

/-- The number that `digits` continue, of which `value` has been read. It is refused at the first
character that is no digit or takes it beyond `limit`. -/
def continueNumber (limit value : Nat) : List Char → Except NumberError Nat
  | [] => .ok value
  | c :: rest =>
    if c.isDigit then
      let next := 10 * value + (c.toNat - '0'.toNat)
      if next ≤ limit then continueNumber limit next rest else .error .tooLarge
    else .error .invalidDigit

/-- The number that one or more decimal digits make, up to `limit`. -/
def readDigits (limit : Nat) : List Char → Except NumberError Nat
  | [] => .error .invalidDigit
  | digits => continueNumber limit 0 digits

def maxWord : Nat := 0xffffffffffffffff

/-- An unsigned 64-bit number, with or without a plus sign. -/
def readWord (s : List Char) : Except NumberError Nat :=
  match s with
  | [] => .error .empty
  | '+' :: digits => readDigits maxWord digits
  | digits => readDigits maxWord digits

/-- A signed 64-bit number: a sign or none, then digits. -/
def readInt64? (s : List Char) : Option Int64 :=
  match s with
  | '-' :: digits =>
    (readDigits 0x8000000000000000 digits).toOption.map fun n : Nat => Int64.ofInt (-n)
  | '+' :: digits =>
    (readDigits 0x7fffffffffffffff digits).toOption.map fun n : Nat => Int64.ofInt n
  | digits => (readDigits 0x7fffffffffffffff digits).toOption.map fun n : Nat => Int64.ofInt n

end ExprTree
