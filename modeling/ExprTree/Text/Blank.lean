/-! # Blanks

The characters with the Unicode property White_Space, and what is left of a text without those at
its ends. -/

namespace ExprTree

/-- The character is white space in the sense of Unicode. -/
def isBlank (c : Char) : Bool :=
  let n := c.toNat
  (0x9 ≤ n && n ≤ 0xd) || n = 0x20 || n = 0x85 || n = 0xa0 || n = 0x1680 ||
    (0x2000 ≤ n && n ≤ 0x200a) || n = 0x2028 || n = 0x2029 || n = 0x202f || n = 0x205f || n = 0x3000

def dropBlanks (s : List Char) : List Char := s.dropWhile isBlank

def trimBlanks (s : List Char) : List Char := (dropBlanks (dropBlanks s).reverse).reverse

end ExprTree
