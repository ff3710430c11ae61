import ExprTree.Node

/-! # Rebuilding a node

A pass enters the children of a node in a fixed order and rebuilds the node from what it makes of
them. -/

namespace ExprTree

variable {ε : Type}

/-- What a pass does at the three kinds of position it enters: expressions, parameters, and the
object construction below a collection or member initialiser. -/
structure Visitor (m : Type → Type) (ε : Type) where
  expression : ε → m ε
  parameter : String → m String
  construct : Construct ε → m (Construct ε)

variable {m : Type → Type} [Monad m]

def Handler.rebuild (v : Visitor m ε) (h : Handler ε) : m (Handler ε) := do
  let binder ← h.binder.mapM v.parameter
  let filter ← h.filter.mapM v.expression
  let body ← v.expression h.body
  pure { h with binder, filter, body }

def Case.rebuild (v : Visitor m ε) (c : Case ε) : m (Case ε) := do
  let values ← c.values.mapM v.expression
  let body ← v.expression c.body
  pure { values, body }

def ElementInit.rebuild (v : Visitor m ε) (e : ElementInit ε) : m (ElementInit ε) := do
  let arguments ← e.arguments.mapM v.expression
  pure { e with arguments }

/-- Rebuilds a node from its visited children, in order of evaluation: a lambda's body comes before
its parameters. The operands of an extension and the values of a member initialiser are carried
over as they are. -/
def Node.rebuild (v : Visitor m ε) : Node ε → m (Node ε)
  | .unary op operand => do
    let operand ← v.expression operand
    pure (.unary op operand)
  | .binary op left right => do
    let left ← v.expression left
    let right ← v.expression right
    pure (.binary op left right)
  | .conditional test ifTrue ifFalse => do
    let test ← v.expression test
    let ifTrue ← v.expression ifTrue
    let ifFalse ← v.expression ifFalse
    pure (.conditional test ifTrue ifFalse)
  | .block names expressions => do
    let names ← names.mapM v.parameter
    let expressions ← expressions.mapM v.expression
    pure (.block names expressions)
  | .loop body breakLabel continueLabel => do
    let body ← v.expression body
    pure (.loop body breakLabel continueLabel)
  | .goto jump target value => do
    let value ← value.mapM v.expression
    pure (.goto jump target value)
  | .label target value => do
    let value ← value.mapM v.expression
    pure (.label target value)
  | .tryCatch body handlers finallyBody faultBody => do
    let body ← v.expression body
    let handlers ← handlers.mapM (·.rebuild v)
    let finallyBody ← finallyBody.mapM v.expression
    let faultBody ← faultBody.mapM v.expression
    pure (.tryCatch body handlers finallyBody faultBody)
  | .switch value cases fallback => do
    let value ← v.expression value
    let cases ← cases.mapM (·.rebuild v)
    let fallback ← fallback.mapM v.expression
    pure (.switch value cases fallback)
  | .new construct => do
    let arguments ← construct.arguments.mapM v.expression
    pure (.new { construct with arguments })
  | .newArray form elementType expressions => do
    let expressions ← expressions.mapM v.expression
    pure (.newArray form elementType expressions)
  | .listInit construct elements => do
    let construct ← v.construct construct
    let elements ← elements.mapM (·.rebuild v)
    pure (.listInit construct elements)
  | .memberInit construct bindings => do
    let construct ← v.construct construct
    pure (.memberInit construct bindings)
  | .invocation target arguments => do
    let target ← v.expression target
    let arguments ← arguments.mapM v.expression
    pure (.invocation target arguments)
  | .methodCall object method arguments => do
    let object ← object.mapM v.expression
    let arguments ← arguments.mapM v.expression
    pure (.methodCall object method arguments)
  | .member object field => do
    let object ← object.mapM v.expression
    pure (.member object field)
  | .index object indexer arguments => do
    let object ← v.expression object
    let arguments ← arguments.mapM v.expression
    pure (.index object indexer arguments)
  | .typeTest test operand type => do
    let operand ← v.expression operand
    pure (.typeTest test operand type)
  | .dynamic binder arguments => do
    let arguments ← arguments.mapM v.expression
    pure (.dynamic binder arguments)
  | .runtimeVariables names => do
    let names ← names.mapM v.parameter
    pure (.runtimeVariables names)
  | .lambda name tailCall parameters body => do
    let body ← v.expression body
    let parameters ← parameters.mapM v.parameter
    pure (.lambda name tailCall parameters body)
  | .constant value => pure (.constant value)
  | .parameter name => pure (.parameter name)
  | .default type => pure (.default type)
  | .extension name operands => pure (.extension name operands)

end ExprTree
