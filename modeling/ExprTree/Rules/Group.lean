/-! # Rule groups

The boolean rules come in six groups, which are applied in a fixed order and can be switched on and
off one by one. -/

namespace ExprTree

inductive RuleGroup where
  | doubleNegation
  /-- Tests, negations, comparisons and connectives of constants. -/
  | constantFolding
  /-- `x == x` is true and `x != x` is false, for a parameter `x`. -/
  | selfComparison
  | shortCircuit
  | complement
  /-- Repeated, absorbed and resolved arms. -/
  | armElimination
  deriving DecidableEq

namespace RuleGroup

/-- All groups, in order of application. -/
def all : List RuleGroup :=
  [.doubleNegation, .constantFolding, .selfComparison, .shortCircuit, .complement, .armElimination]

theorem mem_all (g : RuleGroup) : g ∈ all := by cases g <;> decide

def name : RuleGroup → String
  | .doubleNegation => "double-negation"
  | .constantFolding => "constant-folding"
  | .selfComparison => "self-comparison"
  | .shortCircuit => "short-circuit"
  | .complement => "complement"
  | .armElimination => "arm-elimination"

end RuleGroup

structure RuleSet where
  enabled : RuleGroup → Bool

namespace RuleSet

theorem ext {r s : RuleSet} (h : ∀ g, r.enabled g = s.enabled g) : r = s := by
  cases r; cases s; congr; exact funext h

instance : DecidableEq RuleSet := fun r s =>
  decidable_of_iff (∀ g ∈ RuleGroup.all, r.enabled g = s.enabled g)
    ⟨fun h => ext fun g => h g g.mem_all, fun h _ _ => h ▸ rfl⟩

def full : RuleSet := ⟨fun _ => true⟩

def empty : RuleSet := ⟨fun _ => false⟩

def insert (r : RuleSet) (g : RuleGroup) : RuleSet := ⟨fun h => h = g || r.enabled h⟩

def erase (r : RuleSet) (g : RuleGroup) : RuleSet := ⟨fun h => h ≠ g && r.enabled h⟩

def singleton (g : RuleGroup) : RuleSet := empty.insert g

/-- The enabled groups, in order of application. -/
def groups (r : RuleSet) : List RuleGroup := RuleGroup.all.filter r.enabled

@[simp] theorem enabled_full (g : RuleGroup) : full.enabled g = true := rfl

@[simp] theorem enabled_empty (g : RuleGroup) : empty.enabled g = false := rfl

@[simp] theorem enabled_insert (r : RuleSet) (g h : RuleGroup) :
    (r.insert g).enabled h = (h = g || r.enabled h) := rfl

@[simp] theorem enabled_erase (r : RuleSet) (g h : RuleGroup) :
    (r.erase g).enabled h = (h ≠ g && r.enabled h) := rfl

theorem mem_groups {r : RuleSet} {g : RuleGroup} : g ∈ r.groups ↔ r.enabled g = true := by
  simp [groups, RuleGroup.mem_all]

end RuleSet

end ExprTree
