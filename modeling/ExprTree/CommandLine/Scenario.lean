import ExprTree.Expr

/-! # Built-in trees

All of them are lambdas over the integer parameters `a` and `b`. -/

namespace ExprTree

structure Scenario where
  name : String
  description : String
  tree : Expr

namespace Scenario

private def overAB (body : Expr) : Expr := .lambda none false ["a", "b"] body

private def int (n : Int64) : Expr := .constant (.int n)

private def aIs (n : Int64) : Expr := .equal (.parameter "a") (int n)

private def bIs (n : Int64) : Expr := .equal (.parameter "b") (int n)

private def differenceIsEight (n : Int64) : Expr :=
  .equal (.binary (.arithmetic .sub) (int n) (.parameter "a")) (int 8)

def demo : Scenario where
  name := "demo"
  description := "constant folding through a ternary, then resolution"
  tree :=
    let six := differenceIsEight 6
    let five := differenceIsEight 5
    let ternary :=
      .conditional (.or (.equal (.parameter "a") (.parameter "b")) (.bool true)) (int 4) (int 7)
    let first := .equal (.not (.not (.equal ternary (int 7)))) (.bool false)
    let second := .or six (.not five)
    let third := .or (.not five) (.not six)
    overAB (.not (.not (.and (.and first second) third)))

def selfCompare : Scenario where
  name := "self-compare"
  description := "parameters compared with themselves"
  tree :=
    overAB (.and (.equal (.parameter "a") (.parameter "a"))
      (.or (.notEqual (.parameter "b") (.parameter "b")) (bIs 3)))

def absorption : Scenario where
  name := "absorption"
  description := "x || (x && y) keeps only x"
  tree := overAB (.or (aIs 1) (.and (aIs 1) (bIs 2)))

def resolution : Scenario where
  name := "resolution"
  description := "(x || y) && (x || !y) keeps only x"
  tree := overAB (.and (.or (aIs 1) (bIs 2)) (.or (aIs 1) (.not (bIs 2))))

def contradiction : Scenario where
  name := "contradiction"
  description := "a compound condition and its negation"
  tree :=
    let condition := .or (aIs 1) (.not (.not (bIs 2)))
    overAB (.and condition (.not condition))

def all : List Scenario := [demo, selfCompare, absorption, resolution, contradiction]

def find? (name : String) : Option Scenario := all.find? (·.name = name)

end Scenario

end ExprTree
