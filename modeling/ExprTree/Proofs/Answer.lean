import ExprTree.Proofs.Reach
import ExprTree.Query
import ExprTree.Run

/-!
# Answered queries

A query has a value once its questions have answers, and `Asks` says which questions it comes to
under these answers. A run that simplifies each of them to its answer ends in the value of the
query.
-/

namespace ExprTree.Query

variable {α β : Type}

/-- The value of a query under the given answers; its reports are dropped. -/
def value (answer : Expr → Expr) : Query α → α
  | done a => a
  | report _ next => next.value answer
  | simplify e next => (next (answer e)).value answer

/-- Under the given answers, every expression that the query asks about satisfies `p`. -/
def Asks (answer : Expr → Expr) (p : Expr → Prop) : Query α → Prop
  | done _ => True
  | report _ next => next.Asks answer p
  | simplify e next => p e ∧ (next (answer e)).Asks answer p

variable (answer : Expr → Expr)

@[simp] theorem value_done (a : α) : (done a).value answer = a := rfl

@[simp] theorem value_bind (x : Query α) (f : α → Query β) :
    (x.bind f).value answer = (f (x.value answer)).value answer := by
  induction x with
  | done => rfl
  | report _ _ ih => exact ih
  | simplify _ _ ih => exact ih _

@[simp] theorem value_equivalent (left right : Expr) :
    (equivalent left right).value answer = decide ((answer left).text = (answer right).text) := rfl

@[simp] theorem value_or (x y : Query Bool) :
    (x <||> y).value answer = (x.value answer || y.value answer) := by
  change (x.bind _).value answer = _
  rw [value_bind]
  cases x.value answer <;> rfl

@[simp] theorem value_and (x y : Query Bool) :
    (x <&&> y).value answer = (x.value answer && y.value answer) := by
  change (x.bind _).value answer = _
  rw [value_bind]
  cases x.value answer <;> rfl

@[simp] theorem value_findM (p : α → Query Bool) (xs : List α) :
    (xs.findM? p).value answer = xs.find? fun x => (p x).value answer := by
  induction xs with
  | nil => rfl
  | cons x xs ih =>
    change ((p x).bind _).value answer = _
    rw [value_bind, List.find?_cons]
    cases (p x).value answer with
    | true => rfl
    | false => exact ih

@[simp] theorem value_named (name : String) (rule : Expr → Query (Option Expr)) (e : Expr) :
    (named name rule e).value answer = (rule e).value answer := by
  change ((rule e).bind _).value answer = _
  rw [value_bind]
  cases (rule e).value answer with
  | none => rfl
  | some after =>
    change ((reportChange name e after).bind _).value answer = _
    rw [value_bind]
    rfl

variable {answer} in
theorem value_inTurn_of_none {rule : Expr → Query (Option Expr)} {e : Expr}
    (h : (rule e).value answer = none) (rest : List (Expr → Query (Option Expr))) :
    (inTurn (rule :: rest) e).value answer = (inTurn rest e).value answer := by
  change ((rule e).bind _).value answer = _
  rw [value_bind, h]

variable {answer} in
theorem value_inTurn_of_some {rule : Expr → Query (Option Expr)} {e after : Expr}
    (h : (rule e).value answer = some after) (rest : List (Expr → Query (Option Expr))) :
    (inTurn (rule :: rest) e).value answer =
      some (((inTurn rest after).value answer).getD after) := by
  change ((rule e).bind _).value answer = _
  rw [value_bind, h]
  change ((inTurn rest after).bind _).value answer = _
  rw [value_bind]
  rfl

theorem getD_value_inTurn (rules : List (Expr → Query (Option Expr))) (e : Expr) :
    ((inTurn rules e).value answer).getD e =
      rules.foldl (fun d rule => ((rule d).value answer).getD d) e := by
  induction rules generalizing e with
  | nil => rfl
  | cons rule rest ih =>
    rw [List.foldl_cons]
    cases h : (rule e).value answer with
    | none =>
      rw [value_inTurn_of_none h]
      exact ih e
    | some after =>
      rw [value_inTurn_of_some h]
      exact ih after

theorem value_inTurn_eq_none (rules : List (Expr → Query (Option Expr))) (e : Expr) :
    (inTurn rules e).value answer = none ↔ ∀ rule ∈ rules, (rule e).value answer = none := by
  induction rules with
  | nil => simp [inTurn]
  | cons rule rest ih =>
    rw [List.forall_mem_cons]
    cases h : (rule e).value answer with
    | none =>
      rw [value_inTurn_of_none h, ih]
      exact ⟨fun hrest => ⟨rfl, hrest⟩, fun hall => hall.2⟩
    | some after =>
      rw [value_inTurn_of_some h]
      exact ⟨fun hnone => (nomatch hnone), fun hall => (nomatch hall.1)⟩

theorem value_inTurn_named_eq_none {ι : Type} (xs : List ι) (name : ι → String)
    (rule : ι → Expr → Query (Option Expr)) (e : Expr) :
    (inTurn (xs.map fun x => named (name x) (rule x)) e).value answer = none ↔
      ∀ x ∈ xs, (rule x e).value answer = none := by
  rw [value_inTurn_eq_none, List.forall_mem_map]
  simp only [value_named]

variable {answer} {p : Expr → Prop}

@[simp] theorem asks_done (a : α) : (done a).Asks answer p := trivial

@[simp] theorem asks_bind (x : Query α) (f : α → Query β) :
    (x.bind f).Asks answer p ↔ x.Asks answer p ∧ (f (x.value answer)).Asks answer p := by
  induction x with
  | done => exact ⟨fun h => ⟨trivial, h⟩, fun h => h.2⟩
  | report _ _ ih => exact ih
  | simplify e next ih =>
    change p e ∧ ((next (answer e)).bind f).Asks answer p ↔ _
    rw [ih, ← and_assoc]
    rfl

@[simp] theorem asks_equivalent (left right : Expr) :
    (equivalent left right).Asks answer p ↔ p left ∧ p right := by
  simp [equivalent, ask, Asks]

theorem Asks.or {x y : Query Bool} (hx : x.Asks answer p) (hy : y.Asks answer p) :
    (x <||> y).Asks answer p := by
  change (x.bind _).Asks answer p
  rw [asks_bind]
  refine ⟨hx, ?_⟩
  cases x.value answer with
  | true => trivial
  | false => exact hy

theorem Asks.and {x y : Query Bool} (hx : x.Asks answer p) (hy : y.Asks answer p) :
    (x <&&> y).Asks answer p := by
  change (x.bind _).Asks answer p
  rw [asks_bind]
  refine ⟨hx, ?_⟩
  cases x.value answer with
  | true => exact hy
  | false => trivial

theorem asks_findM {test : α → Query Bool} {xs : List α}
    (h : ∀ x ∈ xs, (test x).Asks answer p) : (xs.findM? test).Asks answer p := by
  induction xs with
  | nil => trivial
  | cons x xs ih =>
    change ((test x).bind _).Asks answer p
    rw [asks_bind]
    refine ⟨h x List.mem_cons_self, ?_⟩
    cases (test x).value answer with
    | true => trivial
    | false => exact ih fun y hy => h y (List.mem_cons_of_mem x hy)

@[simp] theorem asks_reportChange (name : String) (before after : Expr) :
    (reportChange name before after).Asks answer p := by
  unfold reportChange
  dsimp only
  split <;> trivial

@[simp] theorem asks_named (name : String) (rule : Expr → Query (Option Expr)) (e : Expr) :
    (named name rule e).Asks answer p ↔ (rule e).Asks answer p := by
  change ((rule e).bind _).Asks answer p ↔ _
  rw [asks_bind]
  cases (rule e).value answer with
  | none => exact ⟨fun h => h.1, fun h => ⟨h, trivial⟩⟩
  | some after =>
    change _ ∧ ((reportChange name e after).bind _).Asks answer p ↔ _
    simp

theorem asks_inTurn_cons (rule : Expr → Query (Option Expr))
    (rest : List (Expr → Query (Option Expr))) (e : Expr) :
    (inTurn (rule :: rest) e).Asks answer p ↔
      (rule e).Asks answer p ∧
        (inTurn rest (((rule e).value answer).getD e)).Asks answer p := by
  change ((rule e).bind _).Asks answer p ↔ _
  rw [asks_bind]
  cases (rule e).value answer with
  | none => rfl
  | some after =>
    change _ ∧ ((inTurn rest after).bind _).Asks answer p ↔ _
    simp

theorem asks_inTurn_append (rules rest : List (Expr → Query (Option Expr))) (e : Expr) :
    (inTurn (rules ++ rest) e).Asks answer p ↔
      (inTurn rules e).Asks answer p ∧
        (inTurn rest (((inTurn rules e).value answer).getD e)).Asks answer p := by
  induction rules generalizing e with
  | nil => exact ⟨fun h => ⟨trivial, h⟩, fun h => h.2⟩
  | cons rule rules ih =>
    rw [List.cons_append, asks_inTurn_cons, asks_inTurn_cons, ih, and_assoc]
    simp only [getD_value_inTurn, List.foldl_cons]

theorem Asks.mono {q : Expr → Prop} {x : Query α} (hx : x.Asks answer p) (h : ∀ e, p e → q e) :
    x.Asks answer q := by
  induction x with
  | done => trivial
  | report _ _ ih => exact ih hx
  | simplify e _ ih => exact ⟨h e hx.1, ih _ hx.2⟩

/-- Other answers lead to the same value if they agree on all that the query comes to ask. -/
theorem Asks.value_congr {other : Expr → Expr} {x : Query α}
    (hx : x.Asks answer fun e => answer e = other e) : x.value answer = x.value other := by
  induction x with
  | done => rfl
  | report _ _ ih => exact ih hx
  | simplify e next ih =>
    obtain ⟨he, hnext⟩ := hx
    rw [value, value, ← he]
    exact ih _ hnext

/-- A run that simplifies to its answer whatever a query asks about ends in the value of the
query. -/
theorem Asks.outcome_run {simplifier : Expr → Run Expr} {x : Query α}
    (hx : x.Asks answer fun e => (simplifier e).outcome = .ok (answer e)) :
    (x.run simplifier Run.report).outcome = .ok (x.value answer) := by
  induction x with
  | done => rfl
  | report message next ih =>
    rw [run, Run.outcome_bind_of_ok (Run.outcome_report message)]
    exact ih hx
  | simplify e next ih =>
    rw [run, Run.outcome_bind_of_ok hx.1]
    exact ih _ hx.2

theorem exists_value_of_outcome_run {simplifier : Expr → Run Expr} {x : Query α} {a : α}
    (h : (x.run simplifier Run.report).outcome = .ok a) : ∃ answer, x.value answer = a := by
  refine ⟨fun e => ((simplifier e).outcome.toOption).getD e, ?_⟩
  induction x with
  | done =>
    cases h
    rfl
  | report message next ih =>
    rw [run, Run.outcome_bind_of_ok (Run.outcome_report message)] at h
    exact ih h
  | simplify e next ih =>
    rw [run, Run.outcome_bind] at h
    rw [value]
    cases he : (simplifier e).outcome with
    | error x =>
      rw [he] at h
      cases h
    | ok r =>
      rw [he] at h
      exact ih r h

end ExprTree.Query
