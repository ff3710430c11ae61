import ExprTree.Expr.Equality
import ExprTree.Expr.Text
import ExprTree.Trace

/-! # Runs

A run reports messages and may fail; what it reported before it failed stays. The main statements
say how outcome and messages of a run are put together from its parts. -/

namespace ExprTree

/-- The nodes that can stand in a position. -/
inductive Slot where
  | any
  | only (category : Category)
  deriving DecidableEq

namespace Slot

def name : Slot → String
  | .any => "expression"
  | .only category => category.name

/-- The expression may stand in the position. -/
def admits : Slot → Expr → Bool
  | .any, _ => true
  | .only category, e => e.category = category

end Slot

inductive Failure where
  /-- A transformer left a node that may not stand in its position. -/
  | misplaced (slot : Slot) (found : Expr)
  /-- The questions of the rules, or the products of the reducers, are nested too deeply. -/
  | tooDeep
  deriving DecidableEq

def Failure.message : Failure → String
  | .misplaced slot found =>
    "transformer changed a " ++ slot.name ++ " node into a " ++ found.category.name ++
      " node: " ++ found.text
  | .tooDeep => "simplification is nested too deeply"

/-- A computation that reports messages and may fail. -/
abbrev Run := ExceptT Failure Traced

namespace Run

variable {α β : Type}

def log (r : Run α) : List Message := (ExceptT.run r).log

def outcome (r : Run α) : Except Failure α := (ExceptT.run r).value

def report (message : Message) : Run Unit := liftM (Traced.report message)

@[simp] theorem outcome_pure (a : α) : (pure a : Run α).outcome = .ok a := rfl

@[simp] theorem log_pure (a : α) : (pure a : Run α).log = [] := rfl

@[simp] theorem outcome_throw (f : Failure) : (throw f : Run α).outcome = .error f := rfl

@[simp] theorem log_throw (f : Failure) : (throw f : Run α).log = [] := rfl

@[simp] theorem outcome_report (message : Message) : (report message).outcome = .ok () := rfl

@[simp] theorem log_report (message : Message) : (report message).log = [message] := rfl

@[simp] theorem outcome_liftM (x : Traced α) : (liftM x : Run α).outcome = .ok x.value := rfl

@[simp] theorem log_liftM (x : Traced α) : (liftM x : Run α).log = x.log :=
  List.append_nil _

theorem outcome_bind (r : Run α) (f : α → Run β) :
    (r >>= f).outcome = r.outcome.bind fun a => (f a).outcome := by
  rcases r with ⟨_, _ | _⟩ <;> rfl

theorem outcome_bind_of_ok {r : Run α} {a : α} (h : r.outcome = .ok a) (f : α → Run β) :
    (r >>= f).outcome = (f a).outcome := by
  rw [outcome_bind, h]
  rfl

theorem log_bind (r : Run α) (f : α → Run β) :
    (r >>= f).log = r.log ++ match r.outcome with
      | .ok a => (f a).log
      | .error _ => [] := by
  rcases r with ⟨_, _ | _⟩ <;> rfl

theorem log_bind_of_ok {r : Run α} {a : α} (h : r.outcome = .ok a) (f : α → Run β) :
    (r >>= f).log = r.log ++ (f a).log := by
  rw [log_bind, h]

/-- A run needs its continuation only for what it ends in. -/
theorem bind_congr_of_ok {r : Run α} {f g : α → Run β} (h : ∀ a, r.outcome = .ok a → f a = g a) :
    (r >>= f) = (r >>= g) := by
  rcases r with ⟨log, failure | a⟩
  · rfl
  · have heq := h a rfl
    change (⟨log ++ (f a).log, (f a).outcome⟩ : Traced _) = ⟨log ++ (g a).log, (g a).outcome⟩
    rw [heq]

/-- What a position of fixed category needs of a node, read back from a simplified one. -/
def expect (category : Category) (read : Expr → Option α) (e : Expr) : Run α :=
  match read e with
  | some a => pure a
  | none => throw (.misplaced (.only category) e)

end Run

end ExprTree
