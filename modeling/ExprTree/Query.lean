import ExprTree.Expr.Text
import ExprTree.Trace

/-! # Queries

A rule may ask the simplifier that applies it: to simplify an expression, or whether two expressions
are equivalent. `Query` is such a computation as data, a tree of questions, so what a rule asks can
be read off it without running anything. -/

namespace ExprTree

/-- A computation that can ask for expressions to be simplified. -/
inductive Query (α : Type) where
  | done (value : α)
  | report (message : Message) (next : Query α)
  | simplify (e : Expr) (next : Expr → Query α)

namespace Query

variable {α β γ : Type}

def bind : Query α → (α → Query β) → Query β
  | done value, f => f value
  | report message next, f => report message (next.bind f)
  | simplify e next, f => simplify e fun result => (next result).bind f

instance : Monad Query where
  pure := done
  bind := bind

@[simp] theorem pure_eq_done (a : α) : (pure a : Query α) = done a := rfl

@[simp] theorem bind_eq (x : Query α) (f : α → Query β) : (x >>= f) = x.bind f := rfl

@[simp] theorem done_bind (a : α) (f : α → Query β) : (done a).bind f = f a := rfl

@[simp] theorem report_bind (message : Message) (x : Query α) (f : α → Query β) :
    (report message x).bind f = report message (x.bind f) := rfl

@[simp] theorem simplify_bind (e : Expr) (next : Expr → Query α) (f : α → Query β) :
    (simplify e next).bind f = simplify e fun result => (next result).bind f := rfl

theorem bind_done (x : Query α) : x.bind done = x := by
  induction x with
  | done => rfl
  | report _ _ ih => simp only [report_bind, ih]
  | simplify _ _ ih => simp only [simplify_bind, ih]

theorem bind_assoc (x : Query α) (f : α → Query β) (g : β → Query γ) :
    (x.bind f).bind g = x.bind fun a => (f a).bind g := by
  induction x with
  | done => rfl
  | report _ _ ih => simp only [report_bind, ih]
  | simplify _ _ ih => simp only [simplify_bind, ih]

instance : LawfulMonad Query := LawfulMonad.mk' Query
  (fun x => bind_done x)
  (fun _ _ => rfl)
  (fun x f g => bind_assoc x f g)

/-- Runs a query in a monad that can simplify and report. -/
def run {m : Type → Type} [Monad m] (simplifier : Expr → m Expr) (reporter : Message → m Unit) :
    Query α → m α
  | done value => pure value
  | report message next => do
    reporter message
    next.run simplifier reporter
  | simplify e next => do
    let result ← simplifier e
    (next result).run simplifier reporter

def ask (e : Expr) : Query Expr := simplify e done

/-- Two expressions are equivalent when they have the same text once simplified. -/
def equivalent (left right : Expr) : Query Bool := do
  let left ← ask left
  let right ← ask right
  return left.text = right.text

/-- Reports a replaced expression under `name`, unless its text stayed the same. -/
def reportChange (name : String) (before after : Expr) : Query Unit :=
  let before := before.text
  let after := after.text
  if before = after then done ()
  else report (.changed name before after) (done ())

/-- Applies a rule and reports under `name` what it replaced. -/
def named (name : String) (rule : Expr → Query (Option Expr)) (e : Expr) :
    Query (Option Expr) := do
  match ← rule e with
  | none => return none
  | some after =>
    reportChange name e after
    return some after

/-- Applies rules in turn, each to what the rule before it left. The result is `none` when no rule
applied. -/
def inTurn (rules : List (Expr → Query (Option Expr))) (e : Expr) : Query (Option Expr) :=
  match rules with
  | [] => return none
  | rule :: rest => do
    match ← rule e with
    | none => inTurn rest e
    | some after => return some ((← inTurn rest after).getD after)

end Query

end ExprTree
