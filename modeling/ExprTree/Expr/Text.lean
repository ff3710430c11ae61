import ExprTree.Expr

/-! # The canonical text of an expression

Every binary operation stands in parentheses, except the access to an element of an array. Two
expressions count as equivalent when their simplified forms have the same text. -/

namespace ExprTree

def commaSeparated (items : List String) : String := ", ".intercalate items

/-- A text that an absent part leaves out. -/
def present (part : Option String) (write : String → String) : String :=
  match part with
  | none => ""
  | some text => write text

def braced (body : String) : String := "\x7b " ++ body ++ " \x7d"

def Jump.keyword : Jump → String
  | .goto => "goto"
  | .return => "return"
  | .break => "break"
  | .continue => "continue"

/-- A construction is written `new T(args)`. -/
def Construct.text (c : Construct String) : String :=
  "new " ++ c.type ++ "(" ++ commaSeparated c.arguments ++ ")"

/-- A clause is written `catch (T x) when (filter) { body }`. -/
def Handler.text (h : Handler String) : String :=
  "catch (" ++ h.type ++ present h.binder (" " ++ ·) ++ ")" ++
    present h.filter (" when (" ++ · ++ ")") ++ " " ++ braced h.body

/-- A case is written `case a, b: body;`. -/
def Case.text (c : Case String) : String :=
  "case " ++ commaSeparated c.values ++ ": " ++ c.body ++ ";"

def ElementInit.text (e : ElementInit String) : String :=
  e.method.name ++ "(" ++ commaSeparated e.arguments ++ ")"

/-- A member assignment is written `Member = value`. -/
def Binding.text (b : Binding String) : String :=
  b.member.name ++ " = " ++ b.value

/-- What an access starts from: the object, or the declaring type when there is none. -/
def receiver (object : Option String) (member : MemberRef) : String :=
  object.getD member.declaringType

def Node.text : Node String → String
  | .constant value => value.text
  | .parameter name => name
  | .unary op operand => op.applied operand
  | .binary .arrayIndex left right => left ++ "[" ++ right ++ "]"
  | .binary op left right => "(" ++ left ++ " " ++ op.symbol ++ " " ++ right ++ ")"
  | .conditional test ifTrue ifFalse =>
    "(" ++ test ++ " ? " ++ ifTrue ++ " : " ++ ifFalse ++ ")"
  | .block names expressions =>
    "\x7b" ++ (if names.isEmpty then "" else " var " ++ commaSeparated names ++ ";") ++
      String.join (expressions.map (" " ++ · ++ ";")) ++ " \x7d"
  | .loop body breakLabel continueLabel =>
    "loop" ++ present breakLabel (" break:" ++ ·) ++ present continueLabel (" continue:" ++ ·) ++
      " " ++ braced body
  | .goto jump target value =>
    jump.keyword ++ " " ++ target ++ present value ("(" ++ · ++ ")")
  | .label target value => target ++ ":" ++ present value (" " ++ ·)
  | .tryCatch body handlers finallyBody faultBody =>
    "try " ++ braced body ++ String.join (handlers.map (" " ++ ·.text)) ++
      present finallyBody (" finally " ++ braced ·) ++ present faultBody (" fault " ++ braced ·)
  | .switch value cases fallback =>
    "switch (" ++ value ++ ") \x7b" ++ String.join (cases.map (" " ++ ·.text)) ++
      present fallback (" default: " ++ · ++ ";") ++ " \x7d"
  | .new construct => construct.text
  | .newArray .elements elementType expressions =>
    "new " ++ elementType ++ "[] " ++ braced (commaSeparated expressions)
  | .newArray .bounds elementType expressions =>
    "new " ++ elementType ++ "[" ++ commaSeparated expressions ++ "]"
  | .listInit construct elements =>
    construct.text ++ " " ++ braced (commaSeparated (elements.map (·.text)))
  | .memberInit construct bindings =>
    construct.text ++ " " ++ braced (commaSeparated (bindings.map (·.text)))
  | .invocation target arguments => target ++ ".Invoke(" ++ commaSeparated arguments ++ ")"
  | .methodCall object method arguments =>
    receiver object method ++ "." ++ method.name ++ "(" ++ commaSeparated arguments ++ ")"
  | .member object field => receiver object field ++ "." ++ field.name
  | .index object _ arguments => object ++ "[" ++ commaSeparated arguments ++ "]"
  | .typeTest .subtype operand type => "(" ++ operand ++ " is " ++ type ++ ")"
  | .typeTest .exactly operand type => "(" ++ operand ++ " is exactly " ++ type ++ ")"
  | .dynamic binder arguments =>
    "dynamic " ++ binder ++ "(" ++ commaSeparated arguments ++ ")"
  | .runtimeVariables names => "runtime_vars(" ++ commaSeparated names ++ ")"
  | .lambda name tailCall parameters body =>
    (if tailCall then "tailcall " else "") ++ present name (· ++ " ") ++
      "(" ++ commaSeparated parameters ++ ") => " ++ body
  | .default type => "default(" ++ type ++ ")"
  | .extension name operands => "@" ++ name ++ "(" ++ commaSeparated operands ++ ")"

def Expr.text : Expr → String := Expr.fold Node.text

theorem Expr.text_node (n : Node Expr) : (Expr.node n).text = (n.map Expr.text).text :=
  Expr.fold_node Node.text n

end ExprTree
