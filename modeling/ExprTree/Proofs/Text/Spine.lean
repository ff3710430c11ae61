import ExprTree.Proofs.Text.Legible

/-!
# What a text says

Different trees can have one text, since there is no telling from it which of two forms comes first:
a sign, a label or the parameters of a lambda in front of an expression, or an access behind it.
Taken apart into what stands in front, a base and the accesses behind, a tree is put together again
in the one way in which its text is read: `-a.M` negates `a.M`. The tree that a text is read as also
has no declaring types where the text has none.
-/

namespace ExprTree

open Piece ExprTree.Expr

namespace Expr

/-- The expression with something in front of it. -/
def prefixed (e : Expr) : Prefix → Expr
  | .sign op _ => unary op e
  | .label target => node (.label target (some e))
  | .lambda name tailCall parameters => lambda name tailCall parameters e

/-- The expression with an access behind it. -/
def accessed (e : Expr) : Access Expr → Expr
  | .member name => node (.member (some e) ⟨"", name⟩)
  | .call name arguments => node (.methodCall (some e) ⟨"", name⟩ arguments)
  | .index arguments => node (.index e none arguments)

end Expr

/-- An expression taken apart. What stands in front of the base goes with all of the rest. -/
structure Spine where
  prefixes : List Prefix := []
  base : Expr
  accesses : List (Access Expr) := []

namespace Spine

def toExpr (s : Spine) : Expr :=
  s.prefixes.foldr (fun p e => e.prefixed p) (s.accesses.foldl Expr.accessed s.base)

def prefixed (s : Spine) (p : Prefix) : Spine := { s with prefixes := p :: s.prefixes }

def accessed (s : Spine) (a : Access Spine) : Spine :=
  { s with accesses := s.accesses ++ [a.map toExpr] }

/-- The name at the end of the text, if it stands for a variable. -/
def name? (s : Spine) : Option String :=
  match s.accesses with
  | [] => s.base.parameter?
  | _ :: _ => none

/-- The name at the end of the text becomes a label in front of the body. -/
def labelling (s : Spine) (target : String) (body : Spine) : Spine :=
  { body with prefixes := s.prefixes ++ .label target :: body.prefixes }

end Spine

/-- What stands before and behind the first label. -/
def cutLabel : List Prefix → Option (List Prefix × String × List Prefix)
  | [] => none
  | .label target :: ps => some ([], target, ps)
  | p :: ps => (cutLabel ps).map fun (before, target, rest) => (p :: before, target, rest)

/-- The first label becomes a name again. -/
def Spine.cut (s : Spine) : Option (Spine × Spine) :=
  (cutLabel s.prefixes).map fun (before, target, rest) =>
    ({ prefixes := before, base := .parameter target }, { s with prefixes := rest })

/-- The last of the values is cut into a value and the body. -/
def Case.ofValues (values : List Spine) : Option (Case Expr) :=
  (values.getLast?.bind Spine.cut).map fun (value, body) =>
    ⟨values.dropLast.map Spine.toExpr ++ [value.toExpr], body.toExpr⟩

/-- A name at the end of the last value turns into a label, as a colon follows it. Of all labels at
that place, the first one belongs to the case. -/
def Case.spine (c : Case Spine) : Case Expr :=
  match c.values.getLast? with
  | none => c.map Spine.toExpr
  | some last =>
    match last.name? with
    | none => c.map Spine.toExpr
    | some target =>
      (Case.ofValues (c.values.dropLast ++ [last.labelling target c.body])).getD
        (c.map Spine.toExpr)

/-- Takes a node apart. -/
def Node.spine : Node Spine → Spine
  | .constant (.int n) =>
    if n < 0 ∧ -n ≠ n then
      { prefixes := [.sign .negate UnaryOp.isSign_negate], base := .constant (.int (-n)) }
    else { base := .constant (.int n) }
  | .unary op operand =>
    if h : op.isSign = true then operand.prefixed (.sign op h)
    else { base := .unary op operand.toExpr }
  | .binary .arrayIndex left right => left.accessed (.index [right])
  | .label target (some value) => value.prefixed (.label target)
  | .lambda none true parameters body => body.prefixed (.lambda (some "tailcall") false parameters)
  | .lambda name tailCall parameters body => body.prefixed (.lambda name tailCall parameters)
  | .invocation target arguments => target.accessed (.call "Invoke" arguments)
  | .methodCall object method arguments =>
    (object.getD { base := .parameter method.declaringType }).accessed (.call method.name arguments)
  | .member object field =>
    (object.getD { base := .parameter field.declaringType }).accessed (.member field.name)
  | .index object _ arguments => object.accessed (.index arguments)
  | .switch value cases fallback =>
    { base := .node (.switch value.toExpr (cases.map (·.spine)) (fallback.map Spine.toExpr)) }
  | .listInit c elements =>
    { base := .node (.listInit (c.map Spine.toExpr)
        (elements.map fun e => ⟨⟨"", e.method.name⟩, e.arguments.map Spine.toExpr⟩)) }
  | .memberInit c [] => { base := .node (.listInit (c.map Spine.toExpr) []) }
  | .memberInit c bindings =>
    { base := .node (.memberInit (c.map Spine.toExpr)
        (bindings.map fun b => ⟨⟨"", b.member.name⟩, b.value.toExpr⟩)) }
  | n => { base := .node (n.map Spine.toExpr) }

theorem Case.ofValues_concat (values : List Spine) (last : Spine) :
    Case.ofValues (values ++ [last]) = last.cut.map fun (value, body) =>
      ⟨values.map Spine.toExpr ++ [value.toExpr], body.toExpr⟩ := by
  simp only [ofValues, List.getLast?_append, List.getLast?_singleton, Option.some_or,
    Option.bind_some, List.dropLast_concat]

private theorem exists_cutLabel (ps : List Prefix) (target : String) (qs : List Prefix) :
    ∃ parts, cutLabel (ps ++ .label target :: qs) = some parts := by
  induction ps with
  | nil => exact ⟨_, rfl⟩
  | cons p ps ih =>
    obtain ⟨parts, h⟩ := ih
    cases p with
    | label => exact ⟨_, rfl⟩
    | sign | lambda =>
      simp only [List.cons_append, cutLabel, h]
      exact ⟨_, rfl⟩

theorem Spine.exists_cut_labelling (s : Spine) (target : String) (body : Spine) :
    ∃ value rest, (s.labelling target body).cut = some (value, rest) := by
  obtain ⟨parts, h⟩ := exists_cutLabel s.prefixes target body.prefixes
  rw [cut, labelling, h]
  exact ⟨_, _, rfl⟩

theorem Case.ofValues_labelling (values : List Spine) {last : Spine} {target : String}
    (h : last.name? = some target) (body : Spine) :
    Case.ofValues (values ++ [last.labelling target body]) =
      some (Case.spine ⟨values ++ [last], body⟩) := by
  obtain ⟨value, rest, hcut⟩ := last.exists_cut_labelling target body
  simp only [spine, List.getLast?_append, List.getLast?_singleton, Option.some_or, h,
    List.dropLast_concat, ofValues_concat, hcut, Option.map_some, Option.getD_some]

namespace Expr

/-- An expression taken apart, its parts put together as they are read. -/
def spine : Expr → Spine := fold Node.spine

theorem spine_node (n : Node Expr) : (node n).spine = (n.map spine).spine := fold_node Node.spine n

/-- The expression that the text is read as. -/
def asRead (e : Expr) : Expr := e.spine.toExpr

end Expr

/-- The pieces of the expression that is taken apart. -/
def Spine.pieces (s : Spine) : List Piece :=
  s.prefixes.flatMap Prefix.pieces ++
    (s.base.pieces ++ s.accesses.flatMap fun a => (a.map Expr.pieces).pieces)

theorem Expr.pieces_prefixed (e : Expr) (p : Prefix) :
    (e.prefixed p).pieces = p.pieces ++ e.pieces := by
  cases p with
  | sign op h =>
    rw [Expr.prefixed, unary, pieces_node, Node.map, Node.pieces, if_pos h, Prefix.pieces]
  | label target =>
    rw [Expr.prefixed, pieces_node]
    rfl
  | lambda name tailCall parameters =>
    rw [Expr.prefixed, lambda, pieces_node]
    rfl

theorem Expr.pieces_accessed (e : Expr) (a : Access Expr) :
    (e.accessed a).pieces = e.pieces ++ (a.map Expr.pieces).pieces := by
  cases a <;>
  · rw [Expr.accessed, pieces_node]
    rfl

theorem Spine.pieces_toExpr (s : Spine) : s.toExpr.pieces = s.pieces := by
  have haccesses (as : List (Access Expr)) (e : Expr) : (as.foldl Expr.accessed e).pieces =
      e.pieces ++ as.flatMap fun a => (a.map Expr.pieces).pieces := by
    induction as generalizing e with
    | nil => simp
    | cons a as ih => simp [ih, pieces_accessed]
  have hprefixes (ps : List Prefix) (e : Expr) :
      (ps.foldr (fun p e => e.prefixed p) e).pieces = ps.flatMap Prefix.pieces ++ e.pieces := by
    induction ps with
    | nil => simp
    | cons p ps ih => simp [ih, pieces_prefixed]
  rw [toExpr, hprefixes, haccesses, pieces]

@[simp] theorem Spine.pieces_prefixed (s : Spine) (p : Prefix) :
    (s.prefixed p).pieces = p.pieces ++ s.pieces := by
  simp [prefixed, pieces]

@[simp] theorem Spine.pieces_accessed (s : Spine) (a : Access Spine) :
    (s.accessed a).pieces = s.pieces ++ (a.map Spine.pieces).pieces := by
  have h : (a.map toExpr).map Expr.pieces = a.map Spine.pieces := by
    cases a <;> simp [Access.map, pieces_toExpr]
  simp [accessed, pieces, h]

private theorem cutLabel_eq_some {ps before rest : List Prefix} {target : String}
    (h : cutLabel ps = some (before, target, rest)) : ps = before ++ .label target :: rest := by
  induction ps generalizing before with
  | nil => cases h
  | cons p ps ih =>
    cases p with
    | label => cases h; rfl
    | sign | lambda =>
      simp only [cutLabel, Option.map_eq_some_iff, Prod.mk.injEq] at h
      obtain ⟨⟨before, target, rest⟩, hcut, rfl, rfl, rfl⟩ := h
      rw [ih hcut, List.cons_append]

theorem Expr.pieces_parameter (name : String) : (parameter name).pieces = [word name] :=
  pieces_node _

theorem Spine.pieces_cut {s value body : Spine} (h : s.cut = some (value, body)) :
    s.pieces = value.pieces ++ mark ':' :: blank :: body.pieces := by
  simp only [cut, Option.map_eq_some_iff, Prod.mk.injEq] at h
  obtain ⟨⟨before, target, rest⟩, hcut, rfl, rfl⟩ := h
  simp [pieces, cutLabel_eq_some hcut, Prefix.pieces, pieces_parameter]

theorem Spine.pieces_labelling {s : Spine} {target : String} (h : s.name? = some target)
    (body : Spine) :
    (s.labelling target body).pieces = s.pieces ++ mark ':' :: blank :: body.pieces := by
  obtain ⟨prefixes, base, accesses⟩ := s
  cases accesses with
  | cons => cases h
  | nil =>
    have hbase : base = .parameter target := by
      obtain ⟨n⟩ := base
      cases n <;> cases h
      rfl
    simp [labelling, pieces, Prefix.pieces, hbase, pieces_parameter]

private theorem pieces_map_toExpr (n : Node Spine) :
    (node (n.map Spine.toExpr)).pieces = (n.map Spine.pieces).pieces := by
  rw [pieces_node, Node.map_map]
  simp only [Spine.pieces_toExpr]

private theorem pieces_base (e : Expr) : ({ base := e } : Spine).pieces = e.pieces := by
  simp [Spine.pieces]

theorem separated_concat (parts : List (List Piece)) :
    ∃ front, ∀ last, separated (parts ++ [last]) = front ++ last := by
  cases parts with
  | nil => exact ⟨[], fun last => by simp [separated]⟩
  | cons part parts =>
    exact ⟨separated (part :: parts) ++ [mark ',', blank], fun last => by simp [separated]⟩

private theorem pieces_map_case (c : Case Spine) :
    ((c.map Spine.toExpr).map Expr.pieces).pieces = (c.map Spine.pieces).pieces := by
  simp [Case.map, Case.pieces, Spine.pieces_toExpr, Function.comp_def]

theorem Case.pieces_spine (c : Case Spine) :
    (c.spine.map Expr.pieces).pieces = (c.map Spine.pieces).pieces := by
  obtain ⟨values, body⟩ := c
  rcases List.eq_nil_or_concat values with rfl | ⟨values, last, rfl⟩
  · exact pieces_map_case _
  · rw [List.concat_eq_append]
    cases hname : last.name? with
    | none =>
      simp only [Case.spine, List.getLast?_append, List.getLast?_singleton, Option.some_or, hname]
      exact pieces_map_case _
    | some target =>
      obtain ⟨value, rest, hcut⟩ := last.exists_cut_labelling target body
      have hcase := Case.ofValues_labelling values hname body
      rw [Case.ofValues_concat, hcut, Option.map_some, Option.some.injEq] at hcase
      -- the parts of the cut are made of the pieces of the value and the body
      have hpieces := Spine.pieces_labelling hname body
      rw [Spine.pieces_cut hcut] at hpieces
      obtain ⟨front, hfront⟩ := separated_concat (values.map Spine.pieces)
      have hwritten (value body : List Piece) :
          (Case.pieces ⟨values.map Spine.pieces ++ [value], body⟩) =
            blank :: word "case" :: blank ::
              (front ++ (value ++ mark ':' :: blank :: body) ++ [mark ';']) := by
        simp [Case.pieces, hfront]
      rw [← hcase]
      simp only [Case.map, List.map_append, List.map_map, Function.comp_def, Spine.pieces_toExpr,
        List.map_cons, List.map_nil]
      rw [hwritten, hwritten, hpieces]

private theorem pieces_spine_int (n : Int64) :
    (Node.spine (.constant (.int n))).pieces = (Literal.int n).pieces := by
  rw [Node.spine]
  split
  · rename_i h
    have hneg : n.toInt < 0 := Int64.lt_iff_toInt_lt.mp h.1
    have hpos : ¬ (-n).toInt < 0 := by
      rw [toInt_neg_of_neg h.1 h.2]
      omega
    have hbase : (Expr.constant (.int (-n))).pieces = [word (toString (-n.toInt))] := by
      rw [pieces_node, Node.map, Node.pieces, Literal.pieces, if_neg hpos,
        toInt_neg_of_neg h.1 h.2]
    simp only [Spine.pieces, Prefix.pieces, List.flatMap_cons, List.flatMap_nil, hbase]
    rw [Literal.pieces, if_pos hneg]
    rfl
  · exact pieces_base _

private theorem pieces_spine_node (n : Node Spine) :
    n.spine.pieces = (n.map Spine.pieces).pieces := by
  cases n
  case constant v =>
    cases v
    case int n => exact pieces_spine_int n
    all_goals exact pieces_base _
  case unary op x =>
    rw [Node.spine]
    split
    · rename_i h
      simp [Node.map, Node.pieces, Prefix.pieces, h]
    · exact (pieces_base _).trans (pieces_map_toExpr (.unary op x))
  case binary op l r =>
    cases op
    case arrayIndex => simp [Node.spine, Access.map, Node.map, Node.pieces, Access.pieces]
    all_goals exact (pieces_base _).trans (pieces_map_toExpr _)
  case label target value =>
    cases value with
    | none => exact (pieces_base _).trans (pieces_map_toExpr (.label target none))
    | some value => simp [Node.spine, Prefix.pieces, Node.map, Node.pieces]
  case lambda name tailCall parameters body =>
    cases name <;> cases tailCall <;> simp [Node.spine, Prefix.pieces, Node.map, Node.pieces]
  case invocation target arguments =>
    simp [Node.spine, Access.map, Node.map, Node.pieces, Access.pieces]
  case methodCall object method arguments =>
    cases object <;>
      simp [Node.spine, Access.map, Node.map, Node.pieces, Access.pieces, pieces_base,
        pieces_parameter]
  case member object field =>
    cases object <;>
      simp [Node.spine, Access.map, Node.map, Node.pieces, Access.pieces, pieces_base,
        pieces_parameter]
  case index object indexer arguments =>
    simp [Node.spine, Access.map, Node.map, Node.pieces, Access.pieces]
  case switch value cases fallback =>
    have hcases : ((cases.map Case.spine).map (Case.map Expr.pieces)).flatMap Case.pieces =
        (cases.map (Case.map Spine.pieces)).flatMap Case.pieces := by
      simp only [List.flatMap_map, Case.pieces_spine]
    simp only [Node.spine, pieces_base, pieces_node, Node.map, Node.pieces, Spine.pieces_toExpr,
      hcases, Option.map_map, Function.comp_def]
  case listInit c elements =>
    simp only [Node.spine, pieces_base, pieces_node, Node.map, Node.pieces, Construct.map,
      ElementInit.map, ElementInit.pieces, List.map_map, Function.comp_def, Spine.pieces_toExpr]
  case memberInit c bindings =>
    cases bindings <;>
      simp only [Node.spine, pieces_base, pieces_node, Node.map, Node.pieces, Construct.map,
        Binding.map, Binding.pieces, List.map_map, Function.comp_def, Spine.pieces_toExpr,
        List.map_cons, List.map_nil]
  all_goals exact (pieces_base _).trans (pieces_map_toExpr _)

theorem Expr.pieces_spine (e : Expr) : e.spine.pieces = e.pieces := by
  induction e using Expr.induct with
  | node n ih => rw [spine_node, pieces_spine_node, Node.map_map, pieces_node, Node.map_congr ih]

/-- An expression has the text of the one that its text is read as. -/
theorem Expr.text_asRead (e : Expr) : e.asRead.text = e.text := by
  apply String.toList_inj.mp
  rw [toList_text, toList_text, asRead, Spine.pieces_toExpr, pieces_spine]

namespace Expr

theorem asRead_int (n : Int64) : (constant (.int n)).asRead =
    if n < 0 ∧ -n ≠ n then negate (constant (.int (-n))) else constant (.int n) := by
  rw [asRead, spine_node, Node.map, Node.spine]
  split <;> rfl

theorem asRead_sign {op : UnaryOp} (h : op.isSign = true) (e : Expr) :
    (unary op e).asRead = unary op e.asRead := by
  rw [asRead, spine_node, Node.map, Node.spine, dif_pos h]
  rfl

theorem asRead_binary {op : BinaryOp} (h : op ≠ .arrayIndex) (l r : Expr) :
    (binary op l r).asRead = binary op l.asRead r.asRead := by
  cases op
  case arrayIndex => exact absurd rfl h
  all_goals rfl

theorem asRead_conditional (t a b : Expr) :
    (conditional t a b).asRead = conditional t.asRead a.asRead b.asRead := rfl

/-- The keyword of a tail call without a name is read as the name. -/
theorem asRead_lambda (name : Option String) (tailCall : Bool) (parameters : List String)
    (body : Expr) : (lambda name tailCall parameters body).asRead =
      if name = none ∧ tailCall = true then lambda (some "tailcall") false parameters body.asRead
      else lambda name tailCall parameters body.asRead := by
  cases name <;> cases tailCall <;> rfl

end Expr

end ExprTree
