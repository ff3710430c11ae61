import ExprTree.Proofs.Text.Words

/-!
# Pieces

A text in larger pieces than characters: words, quoted strings and single marks. Every node is
written in pieces around those of its children, and the pieces make up the text of the tree.
-/

namespace ExprTree

/-- A word is a name, a keyword or a number without its sign. -/
inductive Piece where
  | word (text : String)
  | string (content : String)
  | mark (c : Char)
  deriving DecidableEq

namespace Piece

@[match_pattern] abbrev blank : Piece := mark ' '

def marks (s : String) : List Piece := s.toList.map mark

def chars : Piece → List Char
  | word text => text.toList
  | string content => '"' :: (content.toList.flatMap escapeChar ++ ['"'])
  | mark c => [c]

/-- The text that the pieces make up. -/
def flatten (ps : List Piece) : List Char := ps.flatMap chars

@[simp] theorem flatten_nil : flatten [] = [] := rfl

@[simp] theorem flatten_cons (p : Piece) (ps : List Piece) :
    flatten (p :: ps) = p.chars ++ flatten ps := rfl

@[simp] theorem flatten_append (ps qs : List Piece) :
    flatten (ps ++ qs) = flatten ps ++ flatten qs :=
  List.flatMap_append

@[simp] theorem chars_word (text : String) : (word text).chars = text.toList := rfl

@[simp] theorem chars_mark (c : Char) : (mark c).chars = [c] := rfl

@[simp] theorem flatten_marks (s : String) : flatten (marks s) = s.toList := by
  simp [flatten, marks, List.flatMap_map]

theorem flatten_flatMap {α : Type} (f : α → List Piece) (xs : List α) :
    flatten (xs.flatMap f) = xs.flatMap fun x => flatten (f x) := by
  simp only [flatten, List.flatMap_assoc]

end Piece

open Piece

/-- Parts with commas between them. -/
def separated : List (List Piece) → List Piece
  | [] => []
  | part :: parts => part ++ parts.flatMap fun p => mark ',' :: blank :: p

def parenthesised (parts : List (List Piece)) : List Piece :=
  mark '(' :: separated parts ++ [mark ')']

def bracketed (parts : List (List Piece)) : List Piece :=
  mark '[' :: separated parts ++ [mark ']']

def inBraces (body : List Piece) : List Piece :=
  mark '\x7b' :: blank :: body ++ [blank, mark '\x7d']

def words (names : List String) : List (List Piece) := names.map fun name => [word name]

theorem flatten_separated (parts : List (List Piece)) :
    flatten (separated parts) = [',', ' '].intercalate (parts.map flatten) := by
  induction parts with
  | nil => rfl
  | cons part parts ih =>
    cases parts with
    | nil => simp [separated]
    | cons next parts =>
      rw [List.map_cons, List.map_cons, List.intercalate_cons_cons, ← List.map_cons, ← ih]
      simp [separated]

theorem UnaryOp.isSign_negate : UnaryOp.negate.isSign = true := rfl

/-- What can stand in front of an expression and makes an expression of it. -/
inductive Prefix where
  | sign (op : UnaryOp) (h : op.isSign = true)
  | label (target : String)
  | lambda (name : Option String) (tailCall : Bool) (parameters : List String)

/-- What can stand behind an expression and makes an expression of it. -/
inductive Access (ε : Type) where
  | member (name : String)
  | call (name : String) (arguments : List ε)
  | index (arguments : List ε)

def Access.map {α β : Type} (f : α → β) : Access α → Access β
  | member name => member name
  | call name arguments => call name (arguments.map f)
  | index arguments => index (arguments.map f)

def Prefix.pieces : Prefix → List Piece
  | sign op _ => marks op.symbol
  | label target => [word target, mark ':', blank]
  | lambda name tailCall parameters =>
    (if tailCall then [word "tailcall", blank] else []) ++
      name.elim [] (fun x => [word x, blank]) ++ parenthesised (words parameters) ++ marks " => "

def Access.pieces : Access (List Piece) → List Piece
  | member name => [mark '.', word name]
  | call name arguments => mark '.' :: word name :: parenthesised arguments
  | index arguments => bracketed arguments

def Literal.pieces : Literal → List Piece
  | .int n =>
    if n.toInt < 0 then [mark '-', word (toString (-n.toInt))] else [word (toString n.toInt)]
  | .string s => [.string s]
  | v => [word v.text]

def Construct.pieces (c : Construct (List Piece)) : List Piece :=
  word "new" :: blank :: word c.type :: parenthesised c.arguments

def Handler.pieces (h : Handler (List Piece)) : List Piece :=
  blank :: word "catch" :: blank :: mark '(' :: word h.type ::
    h.binder.elim [] (fun x => [blank, word x]) ++ mark ')' ::
    h.filter.elim [] (fun f => blank :: word "when" :: blank :: parenthesised [f]) ++
    blank :: inBraces h.body

def Case.pieces (c : Case (List Piece)) : List Piece :=
  blank :: word "case" :: blank :: separated c.values ++ mark ':' :: blank :: c.body ++ [mark ';']

def ElementInit.pieces (e : ElementInit (List Piece)) : List Piece :=
  word e.method.name :: parenthesised e.arguments

def Binding.pieces (b : Binding (List Piece)) : List Piece :=
  word b.member.name :: (marks " = " ++ b.value)

def Node.pieces : Node (List Piece) → List Piece
  | .constant v => v.pieces
  | .parameter name => [word name]
  | .unary op x => if op.isSign then marks op.symbol ++ x else word op.symbol :: parenthesised [x]
  | .binary .arrayIndex l r => l ++ bracketed [r]
  | .binary op l r =>
    mark '(' :: l ++ blank :: marks op.symbol ++ blank :: r ++ [mark ')']
  | .conditional t a b => mark '(' :: t ++ marks " ? " ++ a ++ marks " : " ++ b ++ [mark ')']
  | .block names es =>
    mark '\x7b' ::
      (if names.isEmpty then []
        else blank :: word "var" :: blank :: separated (words names) ++ [mark ';']) ++
      es.flatMap (fun e => blank :: e ++ [mark ';']) ++ [blank, mark '\x7d']
  | .loop body breakLabel continueLabel =>
    word "loop" :: breakLabel.elim [] (fun l => [blank, word "break", mark ':', word l]) ++
      continueLabel.elim [] (fun l => [blank, word "continue", mark ':', word l]) ++
      blank :: inBraces body
  | .goto jump target value =>
    word jump.keyword :: blank :: word target :: value.elim [] fun v => parenthesised [v]
  | .label target value => word target :: mark ':' :: value.elim [] (blank :: ·)
  | .tryCatch body handlers finallyBody faultBody =>
    word "try" :: blank :: inBraces body ++ handlers.flatMap (·.pieces) ++
      finallyBody.elim [] (fun b => blank :: word "finally" :: blank :: inBraces b) ++
      faultBody.elim [] (fun b => blank :: word "fault" :: blank :: inBraces b)
  | .switch value cases fallback =>
    word "switch" :: blank :: parenthesised [value] ++ blank :: mark '\x7b' ::
      cases.flatMap (·.pieces) ++
      fallback.elim [] (fun b => blank :: word "default" :: mark ':' :: blank :: b ++ [mark ';']) ++
      [blank, mark '\x7d']
  | .new c => c.pieces
  | .newArray .elements t es =>
    word "new" :: blank :: word t :: bracketed [] ++ blank :: inBraces (separated es)
  | .newArray .bounds t es => word "new" :: blank :: word t :: bracketed es
  | .listInit c elements =>
    c.pieces ++ blank :: inBraces (separated (elements.map (·.pieces)))
  | .memberInit c bindings =>
    c.pieces ++ blank :: inBraces (separated (bindings.map (·.pieces)))
  | .invocation target arguments => target ++ (Access.call "Invoke" arguments).pieces
  | .methodCall object method arguments =>
    object.getD [word method.declaringType] ++ (Access.call method.name arguments).pieces
  | .member object field =>
    object.getD [word field.declaringType] ++ (Access.member field.name).pieces
  | .index object _ arguments => object ++ (Access.index arguments).pieces
  | .typeTest .subtype x t => mark '(' :: x ++ [blank, word "is", blank, word t, mark ')']
  | .typeTest .exactly x t =>
    mark '(' :: x ++ [blank, word "is", blank, word "exactly", blank, word t, mark ')']
  | .dynamic binder arguments => word "dynamic" :: blank :: word binder :: parenthesised arguments
  | .runtimeVariables names => word "runtime_vars" :: parenthesised (words names)
  | .lambda name tailCall parameters body => (Prefix.lambda name tailCall parameters).pieces ++ body
  | .default t => word "default" :: parenthesised (words [t])
  | .extension name operands => mark '@' :: word name :: parenthesised operands

/-- The pieces that the text of a tree is made of. -/
def Expr.pieces : Expr → List Piece := Expr.fold Node.pieces

theorem Expr.pieces_node (n : Node Expr) : (Expr.node n).pieces = (n.map Expr.pieces).pieces :=
  Expr.fold_node Node.pieces n

/-- The text that is made up of pieces. -/
private def written (ps : List Piece) : String := String.ofList (flatten ps)

private theorem toList_written (ps : List Piece) : (written ps).toList = flatten ps :=
  String.toList_ofList

private theorem toList_commaSeparated_map {α : Type} (f : α → List Piece) (xs : List α) :
    (commaSeparated (xs.map fun x => written (f x))).toList = flatten (separated (xs.map f)) := by
  simp [commaSeparated, flatten_separated, toList_written, Function.comp_def]

private theorem toList_commaSeparated (parts : List (List Piece)) :
    (commaSeparated (parts.map written)).toList = flatten (separated parts) := by
  simpa using toList_commaSeparated_map id parts

private theorem toList_names (names : List String) :
    (commaSeparated names).toList = flatten (separated (words names)) := by
  simp [commaSeparated, flatten_separated, words, Function.comp_def]

private theorem toList_text_literal (v : Literal) : v.text.toList = flatten v.pieces := by
  cases v with
  | int n =>
    rw [Literal.text, Literal.pieces]
    split
    · rename_i h
      rw [toList_toString_of_neg h, flatten_cons, flatten_cons, chars_mark, chars_word,
        toList_toString_of_nonneg (by omega), flatten_nil, List.append_nil, List.singleton_append]
    · simp
  | string s => simp [Literal.text, Literal.pieces, quoted, chars]
  | _ => simp [Literal.pieces]

private theorem toList_text_construct (c : Construct (List Piece)) :
    (c.map written).text.toList = flatten c.pieces := by
  simp [Construct.text, Construct.map, Construct.pieces, parenthesised, toList_commaSeparated]

private theorem toList_text_handler (h : Handler (List Piece)) :
    ' ' :: (h.map written).text.toList = flatten h.pieces := by
  rcases h with ⟨type, _ | x, _ | f, body⟩ <;>
    simp [Handler.text, Handler.map, Handler.pieces, present, braced, inBraces, parenthesised,
      separated, toList_written]

private theorem toList_text_case (c : Case (List Piece)) :
    ' ' :: (c.map written).text.toList = flatten c.pieces := by
  simp [Case.text, Case.map, Case.pieces, toList_commaSeparated, toList_written]

private theorem text_element (e : ElementInit (List Piece)) :
    (e.map written).text = written e.pieces := by
  apply String.toList_inj.mp
  simp [ElementInit.text, ElementInit.map, ElementInit.pieces, toList_written, parenthesised,
    toList_commaSeparated]

private theorem text_binding (b : Binding (List Piece)) :
    (b.map written).text = written b.pieces := by
  apply String.toList_inj.mp
  simp [Binding.text, Binding.map, Binding.pieces, toList_written]

private theorem toList_text_map (n : Node (List Piece)) :
    (n.map written).text.toList = flatten n.pieces := by
  cases n
  case constant v => exact toList_text_literal v
  case unary op x =>
    by_cases h : op.isSign = true <;>
      simp [Node.map, Node.text, Node.pieces, UnaryOp.applied, h, toList_written, parenthesised,
        separated]
  case binary op l r =>
    cases op <;> simp [Node.map, Node.text, Node.pieces, toList_written, bracketed, separated]
  case typeTest test x t =>
    cases test <;> simp [Node.map, Node.text, Node.pieces, toList_written]
  case newArray form t es =>
    cases form <;>
      simp [Node.map, Node.text, Node.pieces, bracketed, inBraces, braced, toList_commaSeparated,
        separated]
  case goto | label =>
    rename_i value
    cases value <;>
      simp [Node.map, Node.text, Node.pieces, present, toList_written, parenthesised, separated]
  case loop body breakLabel continueLabel =>
    cases breakLabel <;> cases continueLabel <;>
      simp [Node.map, Node.text, Node.pieces, present, toList_written, inBraces, braced]
  case lambda name tailCall parameters body =>
    cases name <;> cases tailCall <;>
      simp [Node.map, Node.text, Node.pieces, present, toList_written, toList_names, Prefix.pieces,
        parenthesised]
  case methodCall object method arguments =>
    cases object <;>
      simp [Node.map, Node.text, Node.pieces, receiver, toList_written, toList_commaSeparated,
        Access.pieces, parenthesised]
  case member object field =>
    cases object <;>
      simp [Node.map, Node.text, Node.pieces, receiver, toList_written, Access.pieces]
  case block names es =>
    cases names <;>
      simp [Node.map, Node.text, Node.pieces, toList_names, flatten_flatMap, toList_written,
        List.flatMap_map]
  case tryCatch body handlers finallyBody faultBody =>
    cases finallyBody <;> cases faultBody <;>
      simp [Node.map, Node.text, Node.pieces, present, inBraces, braced, toList_written,
        flatten_flatMap, List.flatMap_map, toList_text_handler]
  case switch value cases fallback =>
    cases fallback <;>
      simp [Node.map, Node.text, Node.pieces, present, parenthesised, separated, toList_written,
        flatten_flatMap, List.flatMap_map, toList_text_case]
  case runtimeVariables | default =>
    simp [Node.map, Node.text, Node.pieces, parenthesised, toList_names, separated, words]
  case listInit | memberInit =>
    simp [Node.map, Node.text, Node.pieces, toList_text_construct, inBraces, braced,
      Function.comp_def, text_element, text_binding, toList_commaSeparated_map]
  case parameter | conditional | invocation | index | dynamic | extension | new =>
    simp [Node.map, Node.text, Node.pieces, toList_written, parenthesised, bracketed,
      toList_commaSeparated, toList_text_construct, Access.pieces]

theorem Expr.toList_text (e : Expr) : e.text.toList = flatten e.pieces := by
  induction e using Expr.induct with
  | node n ih =>
    have htexts : n.map Expr.text = (n.map Expr.pieces).map written := by
      rw [Node.map_map]
      apply Node.map_congr
      intro c hc
      rw [written, ← ih c hc, String.ofList_toList]
    rw [text_node, pieces_node, htexts, toList_text_map]

end ExprTree
