import ExprTree.Literal
import ExprTree.Operator

/-! # Nodes

One layer of an expression tree: the twenty-five node categories with their children left open.
What a node holds is said once here, for children of any type. -/

namespace ExprTree

/-- A method, field or property with the type that declares it. -/
structure MemberRef where
  declaringType : String
  name : String
  deriving DecidableEq

/-- The object construction `new T(args)`. -/
structure Construct (ε : Type) where
  type : String
  arguments : List ε
  deriving DecidableEq

structure Handler (ε : Type) where
  type : String
  binder : Option String
  filter : Option ε
  body : ε
  deriving DecidableEq

structure Case (ε : Type) where
  values : List ε
  body : ε
  deriving DecidableEq

structure ElementInit (ε : Type) where
  method : MemberRef
  arguments : List ε
  deriving DecidableEq

structure Binding (ε : Type) where
  member : MemberRef
  value : ε
  deriving DecidableEq

inductive Jump where
  | goto | return | break | continue
  deriving DecidableEq

inductive ArrayForm where
  | elements | bounds
  deriving DecidableEq

inductive TypeTest where
  | subtype | exactly
  deriving DecidableEq

inductive Node (ε : Type) where
  | constant (value : Literal)
  | parameter (name : String)
  | unary (op : UnaryOp) (operand : ε)
  | binary (op : BinaryOp) (left right : ε)
  | conditional (test ifTrue ifFalse : ε)
  | block (names : List String) (expressions : List ε)
  | loop (body : ε) (breakLabel continueLabel : Option String)
  /-- A jump to a label, which may carry a value. -/
  | goto (jump : Jump) (target : String) (value : Option ε)
  /-- A jump target with the value of falling through to it. -/
  | label (target : String) (value : Option ε)
  | tryCatch (body : ε) (handlers : List (Handler ε)) (finallyBody faultBody : Option ε)
  | switch (value : ε) (cases : List (Case ε)) (fallback : Option ε)
  | new (construct : Construct ε)
  | newArray (form : ArrayForm) (elementType : String) (expressions : List ε)
  /-- `new T(args) { elements }`. -/
  | listInit (construct : Construct ε) (elements : List (ElementInit ε))
  /-- `new T(args) { Member = value }`. -/
  | memberInit (construct : Construct ε) (bindings : List (Binding ε))
  | invocation (target : ε) (arguments : List ε)
  /-- A method call; without an object the method is static. -/
  | methodCall (object : Option ε) (method : MemberRef) (arguments : List ε)
  /-- A field or property; without an object it is static. -/
  | member (object : Option ε) (field : MemberRef)
  | index (object : ε) (indexer : Option MemberRef) (arguments : List ε)
  | typeTest (test : TypeTest) (operand : ε) (type : String)
  /-- An operation bound at run time, of which only the arguments are known. -/
  | dynamic (binder : String) (arguments : List ε)
  | runtimeVariables (names : List String)
  | lambda (name : Option String) (tailCall : Bool) (parameters : List String) (body : ε)
  | default (type : String)
  /-- A node of a named kind that a registered reducer can lower. -/
  | extension (name : String) (operands : List ε)
  deriving DecidableEq

inductive Category where
  | constant | parameter | unary | binary | conditional | block | loop | goto | label | tryCatch
  | switch | new | newArray | listInit | memberInit | invocation | methodCall | member | index
  | typeTest | dynamic | runtimeVariables | lambda | default | extension
  deriving DecidableEq

def Category.name : Category → String
  | .constant => "constant"
  | .parameter => "parameter"
  | .unary => "unary"
  | .binary => "binary"
  | .conditional => "conditional"
  | .block => "block"
  | .loop => "loop"
  | .goto => "goto"
  | .label => "label"
  | .tryCatch => "try"
  | .switch => "switch"
  | .new => "new"
  | .newArray => "new-array"
  | .listInit => "list-init"
  | .memberInit => "member-init"
  | .invocation => "invocation"
  | .methodCall => "method-call"
  | .member => "member"
  | .index => "index"
  | .typeTest => "type-binary"
  | .dynamic => "dynamic"
  | .runtimeVariables => "runtime-variables"
  | .lambda => "lambda"
  | .default => "default"
  | .extension => "extension"

variable {α β γ ε : Type}

def Node.category : Node ε → Category
  | .constant _ => .constant
  | .parameter _ => .parameter
  | .unary .. => .unary
  | .binary .. => .binary
  | .conditional .. => .conditional
  | .block .. => .block
  | .loop .. => .loop
  | .goto .. => .goto
  | .label .. => .label
  | .tryCatch .. => .tryCatch
  | .switch .. => .switch
  | .new _ => .new
  | .newArray .. => .newArray
  | .listInit .. => .listInit
  | .memberInit .. => .memberInit
  | .invocation .. => .invocation
  | .methodCall .. => .methodCall
  | .member .. => .member
  | .index .. => .index
  | .typeTest .. => .typeTest
  | .dynamic .. => .dynamic
  | .runtimeVariables _ => .runtimeVariables
  | .lambda .. => .lambda
  | .default _ => .default
  | .extension .. => .extension

def Construct.map (f : α → β) (c : Construct α) : Construct β :=
  { type := c.type, arguments := c.arguments.map f }

def Handler.map (f : α → β) (h : Handler α) : Handler β :=
  { type := h.type, binder := h.binder, filter := h.filter.map f, body := f h.body }

def Case.map (f : α → β) (c : Case α) : Case β :=
  { values := c.values.map f, body := f c.body }

def ElementInit.map (f : α → β) (e : ElementInit α) : ElementInit β :=
  { method := e.method, arguments := e.arguments.map f }

def Binding.map (f : α → β) (b : Binding α) : Binding β :=
  { member := b.member, value := f b.value }

def Node.map (f : α → β) : Node α → Node β
  | .constant value => .constant value
  | .parameter name => .parameter name
  | .unary op operand => .unary op (f operand)
  | .binary op left right => .binary op (f left) (f right)
  | .conditional test ifTrue ifFalse => .conditional (f test) (f ifTrue) (f ifFalse)
  | .block names expressions => .block names (expressions.map f)
  | .loop body breakLabel continueLabel => .loop (f body) breakLabel continueLabel
  | .goto jump target value => .goto jump target (value.map f)
  | .label target value => .label target (value.map f)
  | .tryCatch body handlers finallyBody faultBody =>
    .tryCatch (f body) (handlers.map (·.map f)) (finallyBody.map f) (faultBody.map f)
  | .switch value cases fallback => .switch (f value) (cases.map (·.map f)) (fallback.map f)
  | .new construct => .new (construct.map f)
  | .newArray form elementType expressions => .newArray form elementType (expressions.map f)
  | .listInit construct elements => .listInit (construct.map f) (elements.map (·.map f))
  | .memberInit construct bindings => .memberInit (construct.map f) (bindings.map (·.map f))
  | .invocation target arguments => .invocation (f target) (arguments.map f)
  | .methodCall object method arguments => .methodCall (object.map f) method (arguments.map f)
  | .member object field => .member (object.map f) field
  | .index object indexer arguments => .index (f object) indexer (arguments.map f)
  | .typeTest test operand type => .typeTest test (f operand) type
  | .dynamic binder arguments => .dynamic binder (arguments.map f)
  | .runtimeVariables names => .runtimeVariables names
  | .lambda name tailCall parameters body => .lambda name tailCall parameters (f body)
  | .default type => .default type
  | .extension name operands => .extension name (operands.map f)

@[simp] theorem Node.category_map (f : α → β) (n : Node α) : (n.map f).category = n.category := by
  cases n <;> rfl

end ExprTree
