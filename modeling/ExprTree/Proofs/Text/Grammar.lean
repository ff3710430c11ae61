import ExprTree.Proofs.Text.Parser
import ExprTree.Proofs.Text.Spine

/-!
# The grammar of texts

A parser for the texts of all trees. Names may be keywords, so what a word stands for is decided by
what follows it; behind a blank, this is whether an expression begins there. Each level of the
parser gets the parser of the level below for the parts.
-/

namespace ExprTree

open Piece ExprTree.Expr ExprTree.Parser

def signOf? : Char → Option { op : UnaryOp // op.isSign = true }
  | '!' => some ⟨.not, rfl⟩
  | '-' => some ⟨.negate, UnaryOp.isSign_negate⟩
  | '+' => some ⟨.plus, rfl⟩
  | '~' => some ⟨.complement, rfl⟩
  | _ => none

/-- A type test behind its operand, up to the bracket that closes it. -/
def typeTest? : Parser (TypeTest × String)
  | word w :: blank :: word v :: blank :: word type :: mark ')' :: ps =>
    if w = "is" ∧ v = "exactly" then some ((.exactly, type), ps) else none
  | word w :: blank :: word type :: mark ')' :: ps =>
    if w = "is" then some ((.subtype, type), ps) else none
  | _ => none

/-- Behind a blank, an expression begins here, and no operator. -/
def opensExpr : List Piece → Bool
  | [] => false
  | string _ :: _ => true
  | word w :: ps => (typeTest? (word w :: ps)).isNone
  | mark c :: ps =>
    c ∈ ['(', '\x7b', '@'] ||
      ((signOf? c).isSome && ps.head? ≠ some blank && ps.head? ≠ some (mark '='))

/-- An expression ends here. A colon behind a name would make a label of it. -/
def stops (named : Bool) : List Piece → Bool
  | [] => true
  | mark c :: ps =>
    if c = ' ' then !opensExpr ps else c ∈ [',', ')', ']', ';'] || (c = ':' && !named)
  | _ => false

/-- An expression without accesses ends here. -/
def rests (named : Bool) (ps : List Piece) : Bool :=
  stops named ps || ps.head? = some (mark '.') || ps.head? = some (mark '[')

/-- Behind an opening bracket, this is the beginning of a list of names. -/
def opensNames : List Piece → Bool
  | mark ')' :: _ | word _ :: mark ')' :: _ | word _ :: mark ',' :: _ => true
  | _ => false

/-- Behind `switch (`, this is a value to be distinguished, and no list of parameters. -/
def opensSwitch (ps : List Piece) : Bool :=
  match ps with
  | word _ :: mark ')' :: blank :: mark '\x7b' :: _ => true
  | ps => !opensNames ps

/-- The smallest number without its sign, which is no number by itself. -/
def smallestDigits : String := "9223372036854775808"

/-- A word that stands alone. -/
def atom? (w : String) : Option Expr :=
  if isIdentifier w then some (parameter w)
  else if w = "null" then some (constant .null)
  else if w = "true" then some (bool true)
  else if w = "false" then some (bool false)
  else (readInt64? w.toList).map fun n => constant (.int n)

/-- The parameters of a lambda with what stands around them. -/
def readHeader : Parser (List String) := fun ps => do
  let (parameters, ps) ← enclosed name '(' ')' ps
  let ps ← expect (marks " => ") ps
  return (parameters, ps)

/-- A label that is announced by a keyword. -/
def readTarget (keyword : String) (ps : List Piece) : Option String × List Piece :=
  match expect [blank, word keyword, mark ':'] ps with
  | some (word target :: ps) => (some target, ps)
  | _ => (none, ps)

/-- The variables of a block. -/
def readVariables (ps : List Piece) : Option (List String × List Piece) :=
  match expect [blank, word "var", blank] ps with
  | some (word x :: ps) => do
    let (names, ps) ← sequence name ';' (word x :: ps)
    let ps ← expect [mark ';'] ps
    return (names, ps)
  | _ => some ([], ps)

def readSymbol (ps : List Piece) : List Char × List Piece :=
  (flatten (ps.takeWhile (· ≠ blank)), ps.dropWhile (· ≠ blank))

/-- An operator that is written between its operands, from its symbol. -/
def BinaryOp.ofSymbol? (symbol : List Char) : Option BinaryOp :=
  operators.find? fun op => op.symbol.toList = symbol
where
  operators : List BinaryOp :=
    [.arithmetic .add, .arithmetic .sub, .arithmetic .mul, .arithmetic .div, .arithmetic .mod,
      .arithmetic .power, .bitwise .and, .bitwise .or, .bitwise .xor, .shift .left, .shift .right,
      .equality .equal, .equality .notEqual, .order .less, .order .lessEqual, .order .greater,
      .order .greaterEqual, .logical .and, .logical .or, .coalesce, .assign]

theorem BinaryOp.ofSymbol?_symbol {op : BinaryOp} (h : op ≠ .arrayIndex) :
    ofSymbol? op.symbol.toList = some op := by
  rcases op with op | op | op | op | op | op | _ | _ | _
  case arrayIndex => exact absurd rfl h
  case coalesce | assign => decide
  all_goals cases op <;> decide

def jumpOf? (w : String) : Option Jump :=
  [Jump.goto, .return, .break, .continue].find? fun jump => jump.keyword = w

def functionOf? (w : String) : Option UnaryOp :=
  [UnaryOp.increment, .decrement, .isTrue, .isFalse, .length, .quote, .throw].find?
    fun op => op.symbol = w

section

variable (inner : Parser Spine)

def readExpr : Parser Expr := fun ps => (inner ps).map fun (s, ps) => (s.toExpr, ps)

def readArguments : Parser (List Expr) := enclosed (readExpr inner) '(' ')'

def readIndices : Parser (List Expr) := enclosed (readExpr inner) '[' ']'

/-- An expression in brackets. -/
def readArgument : Parser Expr := fun ps => do
  let ps ← expect [mark '('] ps
  let (e, ps) ← readExpr inner ps
  let ps ← expect [mark ')'] ps
  return (e, ps)

def readBraced : Parser Expr := fun ps => do
  let ps ← expect [mark '\x7b', blank] ps
  let (e, ps) ← readExpr inner ps
  let ps ← expect [blank, mark '\x7d'] ps
  return (e, ps)

def readAccess : Parser (Access Expr)
  | mark '.' :: word name :: mark '(' :: ps =>
    (readArguments inner (mark '(' :: ps)).map fun (arguments, ps) => (.call name arguments, ps)
  | mark '.' :: word name :: ps => some (.member name, ps)
  | ps => (readIndices inner ps).map fun (arguments, ps) => (.index arguments, ps)

/-- An operator, a conditional or a type test behind its opening bracket. -/
def readBracketed : Parser Expr := fun ps => do
  let (left, ps) ← readExpr inner ps
  let ps ← expect [blank] ps
  match typeTest? ps with
  | some ((test, type), ps) => return (.node (.typeTest test left type), ps)
  | none =>
    let (symbol, ps) := readSymbol ps
    let ps ← expect [blank] ps
    let (right, ps) ← readExpr inner ps
    if symbol = ['?'] then
      let ps ← expect (marks " : ") ps
      let (last, ps) ← readExpr inner ps
      let ps ← expect [mark ')'] ps
      return (conditional left right last, ps)
    else
      let op ← BinaryOp.ofSymbol? symbol
      let ps ← expect [mark ')'] ps
      return (binary op left right, ps)

/-- An expression of a block with the semicolon behind it. -/
def readStatement : Parser Expr := fun ps => do
  let ps ← expect [blank] ps
  if ps.head? = some (mark '\x7d') then none
  else
    let (e, ps) ← readExpr inner ps
    let ps ← expect [mark ';'] ps
    return (e, ps)

def readBlock : Parser Expr := fun ps => do
  let (names, ps) ← readVariables ps
  let (es, ps) := many (readStatement inner) ps
  let ps ← expect [blank, mark '\x7d'] ps
  return (.node (.block names es), ps)

def readLoop : Parser Expr := fun ps => do
  let (breakLabel, ps) := readTarget "break" ps
  let (continueLabel, ps) := readTarget "continue" ps
  let ps ← expect [blank] ps
  let (body, ps) ← readBraced inner ps
  return (.node (.loop body breakLabel continueLabel), ps)

def readJump (jump : Jump) : Parser Expr := fun ps => do
  let ps ← expect [blank] ps
  let (target, ps) ← name ps
  if ps.head? = some (mark '(') then
    let (value, ps) ← readArgument inner ps
    return (.node (.goto jump target (some value)), ps)
  else return (.node (.goto jump target none), ps)

/-- The variable that a handler binds. -/
def readBinder : List Piece → Option String × List Piece
  | blank :: word x :: ps => (some x, ps)
  | ps => (none, ps)

def readFilter : Parser (Option Expr) := fun ps =>
  match expect [blank, word "when", blank] ps with
  | some ps => (readArgument inner ps).map fun (e, ps) => (some e, ps)
  | none => some (none, ps)

def readHandler : Parser (Handler Expr) := fun ps => do
  let ps ← expect [blank, word "catch", blank, mark '('] ps
  let (type, ps) ← name ps
  let (binder, ps) := readBinder ps
  let ps ← expect [mark ')'] ps
  let (filter, ps) ← readFilter inner ps
  let ps ← expect [blank] ps
  let (body, ps) ← readBraced inner ps
  return (⟨type, binder, filter, body⟩, ps)

def readClause (keyword : String) : Parser (Option Expr) := fun ps =>
  match expect [blank, word keyword, blank] ps with
  | some ps => (readBraced inner ps).map fun (e, ps) => (some e, ps)
  | none => some (none, ps)

def readTry : Parser Expr := fun ps => do
  let ps ← expect [blank] ps
  let (body, ps) ← readBraced inner ps
  let (handlers, ps) := many (readHandler inner) ps
  let (finallyBody, ps) ← readClause inner "finally" ps
  let (faultBody, ps) ← readClause inner "fault" ps
  return (.node (.tryCatch body handlers finallyBody faultBody), ps)

/-- A case, in which the last value may have taken the colon for that of a label. -/
def readCase : Parser (Case Expr) := fun ps => do
  let ps ← expect [blank, word "case", blank] ps
  let (values, ps) ← sequence inner ':' ps
  match expect [mark ':', blank] ps with
  | some ps =>
    let (body, ps) ← readExpr inner ps
    let ps ← expect [mark ';'] ps
    return (⟨values.map Spine.toExpr, body⟩, ps)
  | none =>
    let ps ← expect [mark ';'] ps
    let c ← Case.ofValues values
    return (c, ps)

def readFallback : Parser (Option Expr) := fun ps =>
  match expect [blank, word "default", mark ':', blank] ps with
  | some ps => do
    let (e, ps) ← readExpr inner ps
    let ps ← expect [mark ';'] ps
    return (some e, ps)
  | none => some (none, ps)

def readSwitch : Parser Expr := fun ps => do
  let ps ← expect [blank] ps
  let (value, ps) ← readArgument inner ps
  let ps ← expect [blank, mark '\x7b'] ps
  let (cases, ps) := many (readCase inner) ps
  let (fallback, ps) ← readFallback inner ps
  let ps ← expect [blank, mark '\x7d'] ps
  return (.node (.switch value cases fallback), ps)

def readElement : Parser (ElementInit Expr) := fun ps => do
  let (method, ps) ← name ps
  let (arguments, ps) ← readArguments inner ps
  return (⟨⟨"", method⟩, arguments⟩, ps)

def readAssignment : Parser (Binding Expr) := fun ps => do
  let (member, ps) ← name ps
  let ps ← expect (marks " = ") ps
  let (value, ps) ← readExpr inner ps
  return (⟨⟨"", member⟩, value⟩, ps)

/-- The initialisers behind an opening brace: assignments where a blank follows the first name. -/
def readInitialiser (c : Construct Expr) : Parser Expr
  | word name :: blank :: ps =>
    (sequence (readAssignment inner) ' ' (word name :: blank :: ps)).map fun (bindings, ps) =>
      (.node (.memberInit c bindings), ps)
  | ps => (sequence (readElement inner) ' ' ps).map fun (elements, ps) =>
      (.node (.listInit c elements), ps)

/-- The construction of an object behind its type. -/
def readConstruct (type : String) : Parser Expr := fun ps => do
  let (arguments, ps) ← readArguments inner ps
  match expect [blank, mark '\x7b', blank] ps with
  | some ps =>
    let (e, ps) ← readInitialiser inner ⟨type, arguments⟩ ps
    let ps ← expect [blank, mark '\x7d'] ps
    return (e, ps)
  | none => return (.new ⟨type, arguments⟩, ps)

/-- The construction of an array behind the type of its elements. -/
def readArray (type : String) : Parser Expr := fun ps => do
  let (bounds, ps) ← readIndices inner ps
  match expect [blank, mark '\x7b', blank] ps with
  | some ps =>
    let (elements, ps) ← sequence (readExpr inner) ' ' ps
    let ps ← expect [blank, mark '\x7d'] ps
    return (.node (.newArray .elements type elements), ps)
  | none => return (.node (.newArray .bounds type bounds), ps)

def readNew : Parser Expr := fun ps => do
  let ps ← expect [blank] ps
  let (type, ps) ← name ps
  if ps.head? = some (mark '(') then readConstruct inner type ps else readArray inner type ps

def readDynamic : Parser Expr := fun ps => do
  let ps ← expect [blank] ps
  let (binder, ps) ← name ps
  let (arguments, ps) ← readArguments inner ps
  return (.node (.dynamic binder arguments), ps)

def readExtension : Parser Expr := fun ps => do
  let (name, ps) ← name ps
  let (operands, ps) ← readArguments inner ps
  return (.extension name operands, ps)

/-- A word in front of an opening bracket. -/
def readFunction (w : String) : Parser Expr := fun ps =>
  if w = "runtime_vars" then
    (enclosed name '(' ')' ps).map fun (names, ps) => (.node (.runtimeVariables names), ps)
  else if w = "default" then do
    let ps ← expect [mark '('] ps
    let (type, ps) ← name ps
    let ps ← expect [mark ')'] ps
    return (.node (.default type), ps)
  else do
    let op ← functionOf? w
    let (operand, ps) ← readArgument inner ps
    return (.unary op operand, ps)

/-- A keyword and what follows it behind a blank. -/
def readKeyword (w : String) : Parser Expr := fun ps =>
  if w = "new" then readNew inner ps
  else if w = "loop" then readLoop inner ps
  else if w = "try" then readTry inner ps
  else if w = "dynamic" then readDynamic inner ps
  else (jumpOf? w).bind fun jump => readJump inner jump ps

/-- What can come next: something in front of an expression, or its base. -/
abbrev Front : Type := Prefix ⊕ Expr

def asBase (parser : Parser Expr) : Parser Front := fun ps =>
  (parser ps).map fun (e, ps) => (.inr e, ps)

def readHeading (name : Option String) (tailCall : Bool) : Parser Front := fun ps =>
  (readHeader ps).map fun (parameters, ps) => (.inl (.lambda name tailCall parameters), ps)

/-- A name and a colon have been read. -/
def readLabel (target : String) (ps : List Piece) : Front × List Piece :=
  match ps with
  | blank :: rest =>
    if opensExpr rest then (.inl (.label target), rest)
    else (.inr (.node (.label target none)), ps)
  | ps => (.inr (.node (.label target none)), ps)

/-- A mark has been read. -/
def readMarked (c : Char) : Parser Front := fun ps =>
  if c = '(' then
    if opensNames ps then readHeading none false (mark '(' :: ps)
    else asBase (readBracketed inner) ps
  else if c = '\x7b' then asBase (readBlock inner) ps
  else if c = '@' then asBase (readExtension inner) ps
  else if c = '-' ∧ ps.head? = some (word smallestDigits) then
    some (.inr (.constant (.int Int64.minValue)), ps.tail)
  else (signOf? c).map fun op => (.inl (.sign op.1 op.2), ps)

/-- A word has been read; a blank and the beginning of an expression follow. -/
def readSpaced (w : String) : Parser Front := fun ps =>
  match ps with
  | blank :: mark '(' :: rest =>
    if w = "switch" ∧ opensSwitch rest then asBase (readSwitch inner) ps
    else readHeading (some w) false (mark '(' :: rest)
  | blank :: word x :: blank :: rest =>
    if w = "tailcall" then readHeading (some x) true rest
    else asBase (readKeyword inner w) ps
  | ps => asBase (readKeyword inner w) ps

def readFront : Parser Front
  | [] => none
  | string s :: ps => some (.inr (.constant (.string s)), ps)
  | mark c :: ps => readMarked inner c ps
  | word w :: mark '(' :: ps => asBase (readFunction inner w) (mark '(' :: ps)
  | word w :: mark ':' :: ps =>
    if isIdentifier w then some (readLabel w ps)
    else (atom? w).map fun e => (.inr e, mark ':' :: ps)
  | word w :: blank :: ps =>
    if opensExpr ps then readSpaced inner w (blank :: ps)
    else (atom? w).map fun e => (.inr e, blank :: ps)
  | word w :: ps => (atom? w).map fun e => (.inr e, ps)

/-- All that stands in front of a base, and the base. -/
def readBase : Nat → Parser (List Prefix × Expr)
  | 0, _ => none
  | fuel + 1, ps =>
    match readFront inner ps with
    | some (.inl p, ps) =>
      (readBase fuel ps).map fun ((prefixes, base), ps) => ((p :: prefixes, base), ps)
    | some (.inr base, ps) => some (([], base), ps)
    | none => none

end

/-- Reads an expression that is nested at most `depth` deep. -/
def readSpine : Nat → Parser Spine
  | 0, _ => none
  | depth + 1, ps =>
    (readBase (readSpine depth) (ps.length + 1) ps).map fun ((prefixes, base), ps) =>
      let (accesses, ps) := many (readAccess (readSpine depth)) ps
      (⟨prefixes, base, accesses⟩, ps)

end ExprTree
