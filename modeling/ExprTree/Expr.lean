import ExprTree.Node

/-! # Expression trees

An expression is a node whose children are expressions. Functions over whole trees that treat all
categories alike are folds: they say what to do with one node whose children are done. -/

namespace ExprTree

inductive Expr where
  | node (root : Node Expr)

namespace Expr

def root : Expr → Node Expr
  | node n => n

@[simp] theorem root_node (n : Node Expr) : (node n).root = n := rfl

@[simp] theorem node_root (e : Expr) : node e.root = e := by cases e; rfl

@[match_pattern] abbrev constant (value : Literal) : Expr := node (.constant value)
@[match_pattern] abbrev parameter (name : String) : Expr := node (.parameter name)
@[match_pattern] abbrev unary (op : UnaryOp) (operand : Expr) : Expr := node (.unary op operand)
@[match_pattern] abbrev binary (op : BinaryOp) (left right : Expr) : Expr :=
  node (.binary op left right)
@[match_pattern] abbrev conditional (test ifTrue ifFalse : Expr) : Expr :=
  node (.conditional test ifTrue ifFalse)
@[match_pattern] abbrev lambda (name : Option String) (tailCall : Bool) (parameters : List String)
    (body : Expr) : Expr :=
  node (.lambda name tailCall parameters body)
@[match_pattern] abbrev new (construct : Construct Expr) : Expr := node (.new construct)
@[match_pattern] abbrev extension (name : String) (operands : List Expr) : Expr :=
  node (.extension name operands)

@[match_pattern] abbrev bool (value : Bool) : Expr := constant (.bool value)
@[match_pattern] abbrev not (operand : Expr) : Expr := unary .not operand
@[match_pattern] abbrev negate (operand : Expr) : Expr := unary .negate operand
/-- `left && right` or `left || right`. -/
@[match_pattern] abbrev logical (op : Connective) (left right : Expr) : Expr :=
  binary (.logical op) left right
@[match_pattern] abbrev and (left right : Expr) : Expr := logical .and left right
@[match_pattern] abbrev or (left right : Expr) : Expr := logical .or left right
@[match_pattern] abbrev equal (left right : Expr) : Expr := binary (.equality .equal) left right
@[match_pattern] abbrev notEqual (left right : Expr) : Expr :=
  binary (.equality .notEqual) left right

def category (e : Expr) : Category := e.root.category

def literal? : Expr → Option Literal
  | constant value => some value
  | _ => none

def bool? (e : Expr) : Option Bool := e.literal?.bind Literal.bool?

def isBool (e : Expr) (value : Bool) : Bool := e.bool? = some value

def not? : Expr → Option Expr
  | not operand => some operand
  | _ => none

/-- The operands of a binary node with the given operator. -/
def binary? (op : BinaryOp) : Expr → Option (Expr × Expr)
  | binary o left right => if o = op then some (left, right) else none
  | _ => none

def parameter? : Expr → Option String
  | parameter name => some name
  | _ => none

def construct? : Expr → Option (Construct Expr)
  | new construct => some construct
  | _ => none

section Fold

variable {α : Type} (step : Node α → α)

mutual

/-- Computes bottom-up: `step` gets each node with the results of its children. -/
def fold : Expr → α
  | node n => step (foldNode n)
termination_by structural e => e

private def foldNode : Node Expr → Node α
  | .constant value => .constant value
  | .parameter name => .parameter name
  | .unary op operand => .unary op (fold operand)
  | .binary op left right => .binary op (fold left) (fold right)
  | .conditional test ifTrue ifFalse => .conditional (fold test) (fold ifTrue) (fold ifFalse)
  | .block names expressions => .block names (foldList expressions)
  | .loop body breakLabel continueLabel => .loop (fold body) breakLabel continueLabel
  | .goto jump target value => .goto jump target (foldOption value)
  | .label target value => .label target (foldOption value)
  | .tryCatch body handlers finallyBody faultBody =>
    .tryCatch (fold body) (foldHandlers handlers) (foldOption finallyBody) (foldOption faultBody)
  | .switch value cases fallback => .switch (fold value) (foldCases cases) (foldOption fallback)
  | .new construct => .new (foldConstruct construct)
  | .newArray form elementType expressions => .newArray form elementType (foldList expressions)
  | .listInit construct elements => .listInit (foldConstruct construct) (foldElements elements)
  | .memberInit construct bindings => .memberInit (foldConstruct construct) (foldBindings bindings)
  | .invocation target arguments => .invocation (fold target) (foldList arguments)
  | .methodCall object method arguments =>
    .methodCall (foldOption object) method (foldList arguments)
  | .member object field => .member (foldOption object) field
  | .index object indexer arguments => .index (fold object) indexer (foldList arguments)
  | .typeTest test operand type => .typeTest test (fold operand) type
  | .dynamic binder arguments => .dynamic binder (foldList arguments)
  | .runtimeVariables names => .runtimeVariables names
  | .lambda name tailCall parameters body => .lambda name tailCall parameters (fold body)
  | .default type => .default type
  | .extension name operands => .extension name (foldList operands)
termination_by structural n => n

private def foldList : List Expr → List α
  | [] => []
  | e :: es => fold e :: foldList es
termination_by structural es => es

private def foldOption : Option Expr → Option α
  | none => none
  | some e => some (fold e)
termination_by structural e => e

private def foldConstruct : Construct Expr → Construct α
  | ⟨type, arguments⟩ => ⟨type, foldList arguments⟩
termination_by structural c => c

private def foldHandler : Handler Expr → Handler α
  | ⟨type, binder, filter, body⟩ => ⟨type, binder, foldOption filter, fold body⟩
termination_by structural h => h

private def foldHandlers : List (Handler Expr) → List (Handler α)
  | [] => []
  | h :: hs => foldHandler h :: foldHandlers hs
termination_by structural hs => hs

private def foldCase : Case Expr → Case α
  | ⟨values, body⟩ => ⟨foldList values, fold body⟩
termination_by structural c => c

private def foldCases : List (Case Expr) → List (Case α)
  | [] => []
  | c :: cs => foldCase c :: foldCases cs
termination_by structural cs => cs

private def foldElement : ElementInit Expr → ElementInit α
  | ⟨method, arguments⟩ => ⟨method, foldList arguments⟩
termination_by structural e => e

private def foldElements : List (ElementInit Expr) → List (ElementInit α)
  | [] => []
  | e :: es => foldElement e :: foldElements es
termination_by structural es => es

private def foldBinding : Binding Expr → Binding α
  | ⟨member, value⟩ => ⟨member, fold value⟩
termination_by structural b => b

private def foldBindings : List (Binding Expr) → List (Binding α)
  | [] => []
  | b :: bs => foldBinding b :: foldBindings bs
termination_by structural bs => bs

end

private theorem foldList_eq_map (es : List Expr) : foldList step es = es.map (fold step) := by
  induction es with
  | nil => rfl
  | cons e es ih => simp only [foldList, List.map_cons, ih]

private theorem foldOption_eq_map (e : Option Expr) : foldOption step e = e.map (fold step) := by
  cases e <;> rfl

private theorem foldConstruct_eq_map (c : Construct Expr) :
    foldConstruct step c = c.map (fold step) := by
  cases c; simp only [foldConstruct, foldList_eq_map, Construct.map]

private theorem foldHandlers_eq_map (hs : List (Handler Expr)) :
    foldHandlers step hs = hs.map (·.map (fold step)) := by
  induction hs with
  | nil => rfl
  | cons h hs ih =>
    cases h
    simp only [foldHandlers, foldHandler, foldOption_eq_map, ih, List.map_cons, Handler.map]

private theorem foldCases_eq_map (cs : List (Case Expr)) :
    foldCases step cs = cs.map (·.map (fold step)) := by
  induction cs with
  | nil => rfl
  | cons c cs ih =>
    cases c
    simp only [foldCases, foldCase, foldList_eq_map, ih, List.map_cons, Case.map]

private theorem foldElements_eq_map (es : List (ElementInit Expr)) :
    foldElements step es = es.map (·.map (fold step)) := by
  induction es with
  | nil => rfl
  | cons e es ih =>
    cases e
    simp only [foldElements, foldElement, foldList_eq_map, ih, List.map_cons, ElementInit.map]

private theorem foldBindings_eq_map (bs : List (Binding Expr)) :
    foldBindings step bs = bs.map (·.map (fold step)) := by
  induction bs with
  | nil => rfl
  | cons b bs ih =>
    cases b
    simp only [foldBindings, foldBinding, ih, List.map_cons, Binding.map]

theorem fold_node (n : Node Expr) : fold step (node n) = step (n.map (fold step)) := by
  rw [fold]
  congr 1
  cases n <;>
    simp only [foldNode, Node.map, foldList_eq_map, foldOption_eq_map, foldConstruct_eq_map,
      foldHandlers_eq_map, foldCases_eq_map, foldElements_eq_map, foldBindings_eq_map]

end Fold

end Expr

end ExprTree
