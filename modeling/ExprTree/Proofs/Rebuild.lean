import ExprTree.Node.Rebuild
import ExprTree.Proofs.Reach
import ExprTree.Run

/-!
# Rebuilding a node

A pass visits the positions of a node in a fixed order. What is known of every visit adds up to what
is known of the whole: rebuilding fails as the first failing visit does, or the node is rebuilt from
what the visits leave and reports what they report. A relation of runs that is kept step by step
holds between two rebuilds when it holds between their visits.
-/

namespace ExprTree

variable {α β ε : Type}

/-- What stands at a position that a pass enters: an expression, a declared variable, or the
construction below an initialiser. -/
inductive Position (ε : Type) where
  | expression (e : ε)
  | parameter (name : String)
  | construct (c : Construct ε)

def Position.map (f : α → β) : Position α → Position β
  | expression e => expression (f e)
  | parameter name => parameter name
  | construct c => construct (c.map f)

def Handler.positions (h : Handler ε) : List (Position ε) :=
  h.binder.toList.map .parameter ++ h.filter.toList.map .expression ++ [.expression h.body]

def Case.positions (c : Case ε) : List (Position ε) :=
  c.values.map .expression ++ [.expression c.body]

def ElementInit.positions (e : ElementInit ε) : List (Position ε) := e.arguments.map .expression

def Handler.mapBinder (σ : String → String) (h : Handler ε) : Handler ε :=
  { h with binder := h.binder.map σ }

namespace Node

/-- The positions that a pass enters, in order of evaluation. -/
def positions : Node ε → List (Position ε)
  | .unary _ operand => [.expression operand]
  | .binary _ left right => [.expression left, .expression right]
  | .conditional test ifTrue ifFalse => [.expression test, .expression ifTrue, .expression ifFalse]
  | .block names expressions => names.map .parameter ++ expressions.map .expression
  | .loop body _ _ => [.expression body]
  | .goto _ _ value => value.toList.map .expression
  | .label _ value => value.toList.map .expression
  | .tryCatch body handlers finallyBody faultBody =>
    .expression body :: handlers.flatMap (·.positions) ++
      finallyBody.toList.map .expression ++ faultBody.toList.map .expression
  | .switch value cases fallback =>
    .expression value :: cases.flatMap (·.positions) ++ fallback.toList.map .expression
  | .new construct => construct.arguments.map .expression
  | .newArray _ _ expressions => expressions.map .expression
  | .listInit construct elements => .construct construct :: elements.flatMap (·.positions)
  | .memberInit construct _ => [.construct construct]
  | .invocation target arguments => .expression target :: arguments.map .expression
  | .methodCall object _ arguments => object.toList.map .expression ++ arguments.map .expression
  | .member object _ => object.toList.map .expression
  | .index object _ arguments => .expression object :: arguments.map .expression
  | .typeTest _ operand _ => [.expression operand]
  | .dynamic _ arguments => arguments.map .expression
  | .runtimeVariables names => names.map .parameter
  | .lambda _ _ parameters body => .expression body :: parameters.map .parameter
  | .constant _ | .parameter _ | .default _ | .extension .. => []

@[simp] theorem positions_map (f : α → β) (n : Node α) :
    (n.map f).positions = n.positions.map (·.map f) := by
  cases n <;>
    simp [positions, map, Function.comp_def, List.map_flatMap, List.flatMap_map, Position.map,
      Handler.positions, Handler.map, Case.positions, Case.map, ElementInit.positions,
      ElementInit.map, Construct.map, Option.toList_map]

/-- Replaces the variables that a node declares. -/
def mapDeclared (σ : String → String) : Node ε → Node ε
  | .block names expressions => .block (names.map σ) expressions
  | .tryCatch body handlers finallyBody faultBody =>
    .tryCatch body (handlers.map (·.mapBinder σ)) finallyBody faultBody
  | .runtimeVariables names => .runtimeVariables (names.map σ)
  | .lambda name tailCall parameters body => .lambda name tailCall (parameters.map σ) body
  | n => n

end Node

/-- A description of runs by a list and a value: a run that goes on has the list of its continuation
behind its own. -/
structure Run.Sequential {ι : Type} (P : ∀ {α : Type}, Run α → List ι → α → Prop) : Prop where
  pure : ∀ {α : Type} (a : α), P (Pure.pure a) [] a
  bind : ∀ {α β : Type} {r : Run α} {xs ys : List ι} {a : α} {g : α → Run β} {b : β},
    P r xs a → P (g a) ys b → P (r >>= g) (xs ++ ys) b

namespace Run.Sequential

variable {ι : Type} {P : ∀ {α : Type}, Run α → List ι → α → Prop} (hP : Sequential P)
include hP

theorem map {r : Run α} {xs : List ι} {a : α} (h : P r xs a) (g : α → β) :
    P (r >>= fun a => Pure.pure (g a)) xs (g a) := by
  have hg : P (r >>= fun a => Pure.pure (g a)) (xs ++ []) (g a) := hP.bind h (hP.pure (g a))
  rwa [List.append_nil] at hg

variable {g : α → Run β} {marks : α → List ι} {f : α → β}

theorem list {xs : List α} (h : ∀ x ∈ xs, P (g x) (marks x) (f x)) :
    P (xs.mapM g) (xs.flatMap marks) (xs.map f) := by
  induction xs with
  | nil => exact hP.pure _
  | cons x xs ih =>
    have hxs := ih fun y hy => h y (List.mem_cons_of_mem x hy)
    rw [List.mapM_cons, List.flatMap_cons]
    exact hP.bind (h x List.mem_cons_self) (hP.map hxs _)

theorem option {x : Option α} (h : ∀ a ∈ x, P (g a) (marks a) (f a)) :
    P (x.mapM g) (x.toList.flatMap marks) (x.map f) := by
  cases x with
  | none => exact hP.pure _
  | some a =>
    have ha := hP.map (h a rfl) some
    rwa [Option.mapM_some, ← bind_pure_comp, Option.toList_some, List.flatMap_singleton]

end Run.Sequential

/-- The run stops at the first of the failures, or leaves `a` if there are none. -/
def Run.EndsIn (r : Run α) (failures : List Failure) (a : α) : Prop :=
  r.outcome = match failures with
    | [] => .ok a
    | x :: _ => .error x

theorem Run.EndsIn.bind {r : Run α} {xs ys : List Failure} {a : α} {g : α → Run β} {b : β}
    (h : r.EndsIn xs a) (hg : (g a).EndsIn ys b) : (r >>= g).EndsIn (xs ++ ys) b := by
  unfold EndsIn at *
  rw [outcome_bind, h]
  cases xs with
  | nil => exact hg
  | cons x xs => rfl

theorem Run.EndsIn.sequential : Run.Sequential Run.EndsIn where
  pure _ := rfl
  bind := bind

/-- The run reports the messages and leaves `a`. -/
def Run.Leaves (r : Run α) (messages : List Message) (a : α) : Prop :=
  r.log = messages ∧ r.outcome = .ok a

theorem Run.Leaves.sequential : Run.Sequential Run.Leaves where
  pure _ := ⟨rfl, rfl⟩
  bind h hg :=
    ⟨by rw [log_bind_of_ok h.2, h.1, hg.1], by rw [outcome_bind_of_ok h.2, hg.2]⟩

section Rebuild

variable {ι : Type} (P : ∀ {α : Type}, Run α → List ι → α → Prop) (v : Visitor Run ε)
  (marks : Position ε → List ι) (f : ε → ε) (σ : String → String)

/-- The visitor does `f` to an expression, also within a construction, and `σ` to a declared
variable, in runs that are described by `marks`. -/
def Visitor.Does : Position ε → Prop
  | .expression e => P (v.expression e) (marks (.expression e)) (f e)
  | .parameter name => P (v.parameter name) (marks (.parameter name)) (σ name)
  | .construct c => P (v.construct c) (marks (.construct c)) (c.map f)

variable {P v marks f σ} (hP : Run.Sequential P)
include hP

private theorem does_expressions (es : List ε) (h : ∀ e ∈ es, v.Does P marks f σ (.expression e)) :
    P (es.mapM v.expression) ((es.map .expression).flatMap marks) (es.map f) := by
  rw [List.flatMap_map]
  exact hP.list h

private theorem does_expression? (e : Option ε)
    (h : ∀ a ∈ e.toList, v.Does P marks f σ (.expression a)) :
    P (e.mapM v.expression) ((e.toList.map .expression).flatMap marks) (e.map f) := by
  rw [List.flatMap_map]
  exact hP.option fun a ha => h a (Option.mem_toList.mpr ha)

private theorem does_parameters (names : List String)
    (h : ∀ x ∈ names, v.Does P marks f σ (.parameter x)) :
    P (names.mapM v.parameter) ((names.map .parameter).flatMap marks) (names.map σ) := by
  rw [List.flatMap_map]
  exact hP.list h

private theorem does_handler {h : Handler ε} (hd : ∀ p ∈ h.positions, v.Does P marks f σ p) :
    P (h.rebuild v) (h.positions.flatMap marks) ((h.map f).mapBinder σ) := by
  simp only [Handler.positions, List.forall_mem_append, List.forall_mem_map,
    List.forall_mem_singleton] at hd
  simp only [Handler.positions, List.append_assoc, List.flatMap_append, List.flatMap_singleton]
  obtain ⟨⟨hbinder, hfilter⟩, hbody⟩ := hd
  have hname : P (h.binder.mapM v.parameter)
      ((h.binder.toList.map .parameter).flatMap marks) (h.binder.map σ) := by
    rw [List.flatMap_map]
    exact hP.option fun x hx => hbinder x (Option.mem_toList.mpr hx)
  exact hP.bind hname (hP.bind (does_expression? hP _ hfilter) (hP.map hbody _))

private theorem does_case {c : Case ε} (hd : ∀ p ∈ c.positions, v.Does P marks f σ p) :
    P (c.rebuild v) (c.positions.flatMap marks) (c.map f) := by
  simp only [Case.positions, List.forall_mem_append, List.forall_mem_map,
    List.forall_mem_singleton] at hd
  simp only [Case.positions, List.flatMap_append, List.flatMap_singleton]
  exact hP.bind (does_expressions hP _ hd.1) (hP.map hd.2 _)

private theorem does_element {e : ElementInit ε} (hd : ∀ p ∈ e.positions, v.Does P marks f σ p) :
    P (e.rebuild v) (e.positions.flatMap marks) (e.map f) :=
  hP.map (does_expressions hP _ (List.forall_mem_map.mp hd)) _

/-- Rebuilding a node is described by its visits in order. It replaces what a pass enters and
nothing else. -/
theorem Run.Sequential.rebuild {n : Node ε} (h : ∀ p ∈ n.positions, v.Does P marks f σ p) :
    P (n.rebuild v) (n.positions.flatMap marks) ((n.mapReached f).mapDeclared σ) := by
  have parts {τ : Type} (xs : List τ) (positions : τ → List (Position ε)) (rebuild : τ → Run τ)
      (g : τ → τ) (hx : ∀ x ∈ xs, P (rebuild x) ((positions x).flatMap marks) (g x)) :
      P (xs.mapM rebuild) ((xs.flatMap positions).flatMap marks) (xs.map g) := by
    rw [List.flatMap_assoc]
    exact hP.list hx
  cases n <;>
    simp only [Node.positions, List.forall_mem_cons, List.forall_mem_append, List.forall_mem_map,
      List.cons_append] at h <;>
    simp only [Node.positions, List.cons_append, List.append_assoc, List.flatMap_cons,
      List.flatMap_append, List.flatMap_nil, List.append_nil]
  case constant | parameter | default | extension => exact hP.pure _
  case unary => exact hP.map h.1 _
  case binary => exact hP.bind h.1 (hP.map h.2.1 _)
  case conditional => exact hP.bind h.1 (hP.bind h.2.1 (hP.map h.2.2.1 _))
  case block => exact hP.bind (does_parameters hP _ h.1) (hP.map (does_expressions hP _ h.2) _)
  case loop | typeTest => exact hP.map h.1 _
  case goto | label | member => exact hP.map (does_expression? hP _ h) _
  case tryCatch body handlers finallyBody faultBody =>
    obtain ⟨hbody, ⟨hhandlers, hfinally⟩, hfault⟩ := h
    have hrebuilt : P (handlers.mapM (·.rebuild v))
        ((handlers.flatMap (·.positions)).flatMap marks)
        ((handlers.map (·.map f)).map (·.mapBinder σ)) := by
      rw [List.map_map]
      exact parts _ _ _ _ fun c hc =>
        does_handler hP fun p hp => hhandlers p (List.mem_flatMap_of_mem hc hp)
    exact hP.bind hbody (hP.bind hrebuilt
      (hP.bind (does_expression? hP _ hfinally) (hP.map (does_expression? hP _ hfault) _)))
  case switch value cases fallback =>
    obtain ⟨hvalue, hcases, hfallback⟩ := h
    have hrebuilt := parts cases _ (·.rebuild v) _ fun c hc =>
      does_case hP fun p hp => hcases p (List.mem_flatMap_of_mem hc hp)
    exact hP.bind hvalue (hP.bind hrebuilt (hP.map (does_expression? hP _ hfallback) _))
  case new | newArray | dynamic => exact hP.map (does_expressions hP _ h) _
  case listInit construct elements =>
    have hrebuilt := parts elements _ (·.rebuild v) _ fun e he =>
      does_element hP fun p hp => h.2 p (List.mem_flatMap_of_mem he hp)
    exact hP.bind h.1 (hP.map hrebuilt _)
  case memberInit => exact hP.map h.1 _
  case invocation | index => exact hP.bind h.1 (hP.map (does_expressions hP _ h.2) _)
  case methodCall =>
    exact hP.bind (does_expression? hP _ h.1) (hP.map (does_expressions hP _ h.2) _)
  case runtimeVariables => exact hP.map (does_parameters hP _ h) _
  case lambda => exact hP.bind h.1 (hP.map (does_parameters hP _ h.2) _)

end Rebuild

namespace Node

variable {n : Node ε}

theorem mem_reached_of_mem_positions {e : ε} (h : .expression e ∈ n.positions) :
    e ∈ n.reached := by
  cases n <;>
    simp_all [positions, reached, children, Handler.positions, Handler.children, Case.positions,
      Case.children, ElementInit.positions]

theorem mem_declared_iff {x : String} : x ∈ n.declared ↔ .parameter x ∈ n.positions := by
  cases n <;>
    simp [positions, declared, Handler.positions, Case.positions, ElementInit.positions]

theorem initialised_eq_some_iff {c : Construct ε} :
    n.initialised = some c ↔ .construct c ∈ n.positions := by
  cases n <;>
    simp [positions, initialised, Handler.positions, Case.positions, ElementInit.positions, eq_comm]

end Node

section Expressions

open ExprTree.Expr

variable {n : Node Expr}

/-- What is simplified at a position: a declared variable or a construction as a node. -/
def Position.toExpr : Position Expr → Expr
  | expression e => e
  | parameter name => .parameter name
  | construct c => .new c

theorem Position.size_toExpr_lt {p : Position Expr} (h : p ∈ n.positions) :
    p.toExpr.size < (node n).size := by
  cases p with
  | expression e => exact size_lt_of_mem_reached (Node.mem_reached_of_mem_positions h)
  | parameter x => exact size_parameter_lt (Node.mem_declared_iff.mpr h)
  | construct c => exact size_new_lt (Node.initialised_eq_some_iff.mpr h)

theorem Expr.reaches_of_mem_positions {p : Position Expr} (h : p ∈ n.positions) :
    Reaches (node n) p.toExpr := by
  cases p with
  | expression e => exact .child (Node.mem_reached_of_mem_positions h) (.refl _)
  | parameter x => exact .declared (Node.mem_declared_iff.mpr h)
  | construct c => exact .construct (Node.initialised_eq_some_iff.mpr h)

theorem Expr.exists_mem_positions_of_mem_reached {e : Expr} (h : e ∈ n.reached) :
    ∃ p ∈ n.positions, p = .expression e ∨ ∃ c, p = .construct c ∧ e ∈ c.arguments := by
  cases n with
  | listInit c elements =>
    rcases List.mem_append.mp h with he | he
    · exact ⟨_, List.mem_cons_self, .inr ⟨c, rfl, he⟩⟩
    · refine ⟨_, List.mem_cons_of_mem _ ?_, .inl rfl⟩
      simpa [ElementInit.positions] using he
  | memberInit c bindings => exact ⟨_, List.mem_cons_self, .inr ⟨c, rfl, h⟩⟩
  | _ =>
    refine ⟨.expression e, ?_, .inl rfl⟩
    simp_all [Node.reached, Node.children, Node.positions, Handler.children, Handler.positions,
      Case.children, Case.positions]

end Expressions

/-- At the positions of a node the visitor leaves variables and the types of constructions alone,
and does `f` to expressions. -/
structure Visitor.Follows (v : Visitor Run ε) (f : ε → ε) (n : Node ε) : Prop where
  expression : ∀ e ∈ n.reached, (v.expression e).outcome = .ok (f e)
  parameter : ∀ name ∈ n.declared, (v.parameter name).outcome = .ok name
  construct : ∀ c ∈ n.initialised, (v.construct c).outcome = .ok (c.map f)

@[simp] theorem Node.mapDeclared_id (n : Node ε) : n.mapDeclared id = n := by
  cases n <;> simp [mapDeclared, Handler.mapBinder]

/-- What the visitor reports at a position. -/
def Visitor.log (v : Visitor Run ε) : Position ε → List Message
  | .expression e => (v.expression e).log
  | .parameter name => (v.parameter name).log
  | .construct c => (v.construct c).log

/-- Rebuilding a node replaces what a pass enters and nothing else, and reports what the visits
report, in order of evaluation. -/
theorem Visitor.Follows.leaves_rebuild {v : Visitor Run ε} {f : ε → ε} {n : Node ε}
    (h : v.Follows f n) :
    (n.rebuild v).Leaves (n.positions.flatMap v.log) (n.mapReached f) := by
  have hdoes : ∀ p ∈ n.positions, v.Does Run.Leaves v.log f id p := by
    intro p hp
    cases p with
    | expression e => exact ⟨rfl, h.expression e (Node.mem_reached_of_mem_positions hp)⟩
    | parameter x => exact ⟨rfl, h.parameter x (Node.mem_declared_iff.mpr hp)⟩
    | construct c => exact ⟨rfl, h.construct c (Node.initialised_eq_some_iff.mpr hp)⟩
  have hleaves := Run.Leaves.sequential.rebuild hdoes
  rwa [Node.mapDeclared_id] at hleaves

theorem Visitor.Follows.outcome_rebuild {v : Visitor Run ε} {f : ε → ε} {n : Node ε}
    (h : v.Follows f n) : (n.rebuild v).outcome = .ok (n.mapReached f) :=
  h.leaves_rebuild.2

/-- A relation of runs that is kept when related runs go on alike. -/
structure Run.Compositional (R : ∀ {α : Type}, Run α → Run α → Prop) : Prop where
  pure : ∀ {α : Type} (a : α), R (Pure.pure a) (Pure.pure a)
  report : ∀ message, R (Run.report message) (Run.report message)
  bind : ∀ {α β : Type} {r t : Run α} {f g : α → Run β},
    R r t → (∀ a, R (f a) (g a)) → R (r >>= f) (t >>= g)

/-- The visits are related at every position. -/
structure Visitor.Related (R : ∀ {α : Type}, Run α → Run α → Prop) (v w : Visitor Run ε) :
    Prop where
  expression : ∀ e, R (v.expression e) (w.expression e)
  parameter : ∀ name, R (v.parameter name) (w.parameter name)
  construct : ∀ c, R (v.construct c) (w.construct c)

namespace Run.Compositional

variable {R : ∀ {α : Type}, Run α → Run α → Prop} (hR : Compositional R)
include hR

theorem list {f g : α → Run β} (h : ∀ a, R (f a) (g a)) (xs : List α) :
    R (xs.mapM f) (xs.mapM g) := by
  induction xs with
  | nil => exact hR.pure _
  | cons x xs ih =>
    rw [List.mapM_cons, List.mapM_cons]
    exact hR.bind (h x) fun _ => hR.bind ih fun _ => hR.pure _

theorem option {f g : α → Run β} (h : ∀ a, R (f a) (g a)) (x : Option α) :
    R (x.mapM f) (x.mapM g) := by
  cases x with
  | none => exact hR.pure _
  | some a =>
    rw [Option.mapM_some, Option.mapM_some, ← bind_pure_comp, ← bind_pure_comp]
    exact hR.bind (h a) fun _ => hR.pure _

variable {v w : Visitor Run ε} (h : v.Related R w)
include h

private theorem handler (c : Handler ε) : R (c.rebuild v) (c.rebuild w) :=
  hR.bind (hR.option h.parameter c.binder) fun _ =>
    hR.bind (hR.option h.expression c.filter) fun _ =>
      hR.bind (h.expression c.body) fun _ => hR.pure _

private theorem case (c : Case ε) : R (c.rebuild v) (c.rebuild w) :=
  hR.bind (hR.list h.expression c.values) fun _ =>
    hR.bind (h.expression c.body) fun _ => hR.pure _

private theorem element (i : ElementInit ε) : R (i.rebuild v) (i.rebuild w) :=
  hR.bind (hR.list h.expression i.arguments) fun _ => hR.pure _

theorem rebuild (n : Node ε) : R (n.rebuild v) (n.rebuild w) := by
  cases n
  all_goals
    repeat' first
      | exact hR.pure _
      | exact h.expression _
      | exact h.construct _
      | exact hR.list h.parameter _
      | exact hR.list h.expression _
      | exact hR.option h.expression _
      | exact hR.list (hR.handler h) _
      | exact hR.list (hR.case h) _
      | exact hR.list (hR.element h) _
      | refine hR.bind ?_ fun _ => ?_

end Run.Compositional

end ExprTree
