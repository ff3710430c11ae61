import ExprTree.Expr.Size
import ExprTree.Proofs.Text.Forms

/-!
# Reading a tree

What stands in front of a base and the accesses behind it are read one after another. So every
legible tree is read as it is taken apart, by induction on the tree.
-/

namespace ExprTree

open Piece ExprTree.Expr ExprTree.Parser

variable {inner : Parser Spine}

def Access.arguments {ε : Type} : Access ε → List ε
  | member _ => []
  | call _ arguments | index arguments => arguments

section Accesses

variable {a : Access Expr} {as : List (Access Expr)} {named : Bool} {rest : List Piece}

theorem Access.readAccess_pieces (h : ∀ e ∈ a.arguments, e.ReadBy inner)
    (hrest : rest.head? ≠ some (mark '(')) :
    readAccess inner ((a.map Expr.pieces).pieces ++ rest) = some (a, rest) := by
  cases a with
  | member name =>
    simp only [Access.map, Access.pieces, List.cons_append, List.nil_append]
    unfold readAccess
    split <;> simp_all
  | call name arguments =>
    have h : ∀ e ∈ arguments, e.ReadBy inner := h
    simp [Access.map, Access.pieces, parenthesised, readAccess, readArguments, enclosed_exprs h]
  | index arguments =>
    have h : ∀ e ∈ arguments, e.ReadBy inner := h
    simp [Access.map, Access.pieces, bracketed, readAccess, readIndices, enclosed_exprs h]

theorem Access.head_pieces (a : Access (List Piece)) :
    ∃ c ps, a.pieces = mark c :: ps ∧ (c = '.' ∨ c = '[') := by
  cases a with
  | member | call => exact ⟨_, _, rfl, .inl rfl⟩
  | index => exact ⟨_, _, rfl, .inr rfl⟩

theorem rests_accesses (h : as = [] → stops named rest = true) :
    rests named (as.flatMap (fun a => (a.map Expr.pieces).pieces) ++ rest) = true := by
  cases as with
  | nil => exact rests_of_stops (h rfl)
  | cons a as =>
    obtain ⟨c, ps, hpieces, hc⟩ := (a.map Expr.pieces).head_pieces
    rw [List.flatMap_cons, hpieces]
    exact rests_access hc _

theorem many_accesses (h : ∀ a ∈ as, ∀ e ∈ a.arguments, e.ReadBy inner)
    (hrest : stops named rest = true) :
    many (readAccess inner) (as.flatMap (fun a => (a.map Expr.pieces).pieces) ++ rest) =
      (as, rest) := by
  apply many_flatMap
  · intro a _ hnil
    obtain ⟨c, ps, hpieces, -⟩ := (a.map Expr.pieces).head_pieces
    rw [hnil] at hpieces
    cases hpieces
  · intro a bs hsuffix
    apply Access.readAccess_pieces (h a (hsuffix.subset List.mem_cons_self))
    exact head_ne_bracket (rests_accesses fun _ => hrest)
  · rcases rest with _ | ⟨w | s | c, ps⟩
    · rfl
    · cases hrest
    · cases hrest
    · have hc : '.' ≠ c ∧ '[' ≠ c := by
        constructor <;> rintro rfl <;> simp [stops] at hrest
      unfold readAccess
      split <;> simp_all [readIndices, enclosed, expect]

end Accesses

/-- What the text of something in front of an expression is read as. -/
def Prefix.Legible : Prefix → Prop
  | sign _ _ => True
  | label target => isIdentifier target = true
  | lambda name tailCall _ => (∀ x ∈ name, isIdentifier x = true) ∧ (tailCall = true → name.isSome)

section Prefixes

variable {p : Prefix} {ps rest : List Piece} {named : Bool}

theorem Prefix.pieces_ne_nil (p : Prefix) : p.pieces ≠ [] := by
  cases p with
  | sign op h =>
    cases op
    case not | negate | plus | complement => exact List.cons_ne_nil _ _
    all_goals cases h
  | label target => exact List.cons_ne_nil _ _
  | lambda name tailCall parameters => simp [pieces, parenthesised]

theorem Prefix.Legible.leads (hp : p.Legible) (h : Leads ps) : Leads (p.pieces ++ ps) := by
  cases p with
  | sign op hop =>
    obtain ⟨q, qs, rfl, hne⟩ := h.exists_cons
    have hblank : q ≠ blank := hne _ (by decide) rfl
    have heq : q ≠ mark '=' := hne _ (by decide) rfl
    cases op
    case not | negate | plus | complement => exact .sign qs rfl hblank heq
    all_goals cases hop
  | label target =>
    exact .word (ne_smallestDigits hp) (by decide) (by decide) fun h => absurd h (by decide)
  | lambda name tailCall parameters =>
    obtain ⟨hname, htail⟩ := hp
    cases tailCall with
    | true => exact .keyword (by decide) (by decide) _
    | false =>
      cases name with
      | none => exact .opening _ (by decide)
      | some x =>
        exact .word (ne_smallestDigits (hname x rfl)) (by decide) (by decide) fun _ => .inr rfl

theorem readHeader_pieces (parameters : List String) (ps : List Piece) :
    readHeader (mark '(' :: (separated (words parameters) ++ mark ')' :: (marks " => " ++ ps))) =
      some (parameters, ps) := by
  simp [readHeader, enclosed_names]

theorem Prefix.Legible.readFront (inner : Parser Spine) (hp : p.Legible) (h : Leads ps)
    (hrest : rests named rest = true) :
    readFront inner (p.pieces ++ (ps ++ rest)) = some (.inl p, ps ++ rest) := by
  cases p with
  | sign op hop =>
    have hsmall := h.head_ne_smallest rest
    cases op
    case not | negate | plus | complement =>
      simp [-List.head?_append, Prefix.pieces, marks, UnaryOp.symbol, ExprTree.readFront,
        readMarked, hsmall, signOf?]
    all_goals cases hop
  | label target =>
    have hp : isIdentifier target = true := hp
    simp [Prefix.pieces, ExprTree.readFront, hp, readLabel, h.opensExpr hrest]
  | lambda name tailCall parameters =>
    obtain ⟨-, htail⟩ := hp
    have hheader := readHeader_pieces parameters (ps ++ rest)
    cases tailCall with
    | false =>
      cases name with
      | none =>
        simp [Prefix.pieces, parenthesised, ExprTree.readFront, readMarked, opensNames_words,
          readHeading, hheader]
      | some x =>
        simp [Prefix.pieces, parenthesised, ExprTree.readFront, opensExpr, readSpaced,
          opensSwitch_words, readHeading, hheader]
    | true =>
      obtain ⟨x, rfl⟩ := Option.isSome_iff_exists.mp (htail rfl)
      simp [Prefix.pieces, parenthesised, ExprTree.readFront, opensExpr, typeTest?, readSpaced,
        readHeading, hheader]

end Prefixes

/-- All of the expression is read, if its parts are. -/
structure Spine.Parsed (inner : Parser Spine) (s : Spine) : Prop where
  prefixes : ∀ p ∈ s.prefixes, p.Legible
  base : s.base.BaseFor inner
  name : ∀ x ∈ s.base.parameter?, isIdentifier x = true
  accesses : ∀ a ∈ s.accesses, ∀ e ∈ a.arguments, e.ReadBy inner

section Spines

variable {s : Spine} {rest : List Piece}

theorem leads_prefixes {prefixes : List Prefix} (h : ∀ p ∈ prefixes, p.Legible) {ps : List Piece}
    (hps : Leads ps) : Leads (prefixes.flatMap Prefix.pieces ++ ps) := by
  induction prefixes with
  | nil => exact hps
  | cons p prefixes ih =>
    rw [List.forall_mem_cons] at h
    rw [List.flatMap_cons, List.append_assoc]
    exact h.1.leads (ih h.2)

theorem readBase_prefixes {prefixes : List Prefix} {base : Expr}
    (hprefixes : ∀ p ∈ prefixes, p.Legible) (hbase : base.BaseFor inner)
    (hrest : rests base.parameter?.isSome rest = true) {fuel : Nat}
    (hfuel : prefixes.length < fuel) :
    readBase inner fuel (prefixes.flatMap Prefix.pieces ++ (base.pieces ++ rest)) =
      some ((prefixes, base), rest) := by
  induction prefixes generalizing fuel with
  | nil =>
    obtain ⟨fuel, rfl⟩ := Nat.exists_eq_add_one_of_ne_zero (Nat.ne_zero_of_lt hfuel)
    rw [List.flatMap_nil, List.nil_append, readBase, hbase.read hrest]
  | cons p prefixes ih =>
    rw [List.forall_mem_cons] at hprefixes
    obtain ⟨fuel, rfl⟩ := Nat.exists_eq_add_one_of_ne_zero (Nat.ne_zero_of_lt hfuel)
    have hlead := leads_prefixes hprefixes.2 hbase.leads
    have hfront := hprefixes.1.readFront inner hlead hrest
    have hbase := ih hprefixes.2 (Nat.lt_of_succ_lt_succ hfuel)
    rw [List.append_assoc] at hfront
    rw [List.flatMap_cons, List.append_assoc, readBase, hfront]
    simp only [hbase, Option.map_some]

theorem Spine.Parsed.leads (h : s.Parsed inner) : Leads s.pieces := by
  apply leads_prefixes h.prefixes
  apply h.base.leads.append
  cases haccesses : s.accesses with
  | nil => exact .inl rfl
  | cons a as =>
    obtain ⟨c, ps, hpieces, hc⟩ := (a.map Expr.pieces).head_pieces
    rw [List.flatMap_cons, hpieces]
    exact .inr (hc.imp (fun h => by rw [h]; rfl) (fun h => by rw [h]; rfl))

theorem Spine.Parsed.readBy {depth : Nat} (h : s.Parsed (readSpine depth)) :
    s.ReadBy (readSpine (depth + 1)) where
  leads := h.leads
  read {rest} hrest := by
    have hrests : rests s.base.parameter?.isSome
        (s.accesses.flatMap (fun a => (a.map Expr.pieces).pieces) ++ rest) = true := by
      apply rests_accesses
      intro hnil
      rwa [name?, hnil] at hrest
    have hlength : s.prefixes.length < (s.prefixes.flatMap Prefix.pieces ++ (s.base.pieces ++
        (s.accesses.flatMap (fun a => (a.map Expr.pieces).pieces) ++ rest))).length + 1 := by
      have := length_le_flatMap (fun p (_ : p ∈ s.prefixes) => p.pieces_ne_nil)
      rw [List.length_append]
      omega
    rw [pieces, List.append_assoc, List.append_assoc, readSpine,
      readBase_prefixes h.prefixes h.base hrests hlength]
    simp only [Option.map_some, many_accesses h.accesses hrest]

theorem Spine.Parsed.prefixed {p : Prefix} (h : s.Parsed inner) (hp : p.Legible) :
    (s.prefixed p).Parsed inner :=
  { h with prefixes := List.forall_mem_cons.mpr ⟨hp, h.prefixes⟩ }

theorem Spine.Parsed.accessed {a : Access Spine} (h : s.Parsed inner)
    (ha : ∀ t ∈ a.arguments, t.ReadBy inner) : (s.accessed a).Parsed inner := by
  have harguments : ∀ e ∈ (a.map toExpr).arguments, e.ReadBy inner := by
    cases a with
    | member => simp [Access.map, Access.arguments]
    | call | index => exact List.forall_mem_map.mpr fun t ht => (ha t ht).toExpr
  exact { h with accesses := List.forall_mem_append.mpr ⟨h.accesses, by simpa using harguments⟩ }

theorem Spine.Parsed.labelling {body : Spine} {target : String} (h : s.Parsed inner)
    (hbody : body.Parsed inner) (hname : s.name? = some target) :
    (s.labelling target body).Parsed inner := by
  have htarget : isIdentifier target = true := by
    unfold name? at hname
    split at hname
    · exact h.name target hname
    · cases hname
  exact { hbody with prefixes :=
    List.forall_mem_append.mpr ⟨h.prefixes, List.forall_mem_cons.mpr ⟨htarget, hbody.prefixes⟩⟩ }

theorem parsed_parameter {x : String} (h : isIdentifier x = true) :
    ({ base := parameter x } : Spine).Parsed inner where
  prefixes := by simp
  base := baseFor_parameter h
  name := fun _ hx => Option.some.inj hx ▸ h
  accesses := by simp

theorem parsed_base {e : Expr} (h : e.BaseFor inner) (hname : e.parameter? = none) :
    ({ base := e } : Spine).Parsed inner where
  prefixes := by simp
  base := h
  name := by simp [hname]
  accesses := by simp

end Spines

/-- A negative number is read as a positive one behind a sign. -/
theorem parsed_int (n : Int64) : (Node.spine (.constant (.int n))).Parsed inner := by
  rw [Node.spine]
  split
  · rename_i h
    have hneg : n.toInt < 0 := Int64.lt_iff_toInt_lt.mp h.1
    have hpos : ¬ (-n < 0 ∧ - -n ≠ -n) := by
      rintro ⟨hlt, -⟩
      have hlt := Int64.lt_iff_toInt_lt.mp hlt
      rw [toInt_neg_of_neg h.1 h.2] at hlt
      have : (0 : Int64).toInt = 0 := rfl
      omega
    exact (parsed_base (baseFor_int hpos) rfl).prefixed trivial
  · rename_i h
    exact parsed_base (baseFor_int h) rfl

/-- A node is read, if its children are. Those of a switch are read together with labels, so they
have to be parsed on the level below. -/
theorem Node.parsed_spine {n : Node Spine} {depth : Nat} (hf : ∀ x, n ≠ .constant (.float x))
    (hnames : ∀ name ∈ n.names, isIdentifier name = true)
    (hbelow : ∀ s ∈ n.children, s.Parsed (readSpine depth))
    (hc : ∀ s ∈ n.children, s.Parsed (readSpine (depth + 1))) :
    n.spine.Parsed (readSpine (depth + 1)) := by
  have hread : ∀ s ∈ n.children, s.toExpr.ReadBy (readSpine (depth + 1)) :=
    fun s hs => (hbelow s hs).readBy.toExpr
  cases n
  case constant v =>
    cases v
    case int n => exact parsed_int n
    case float x => exact absurd rfl (hf x)
    all_goals exact parsed_base (baseFor_constant (by simp) (by simp)) rfl
  case switch value cases fallback =>
    simp only [Node.children, List.forall_mem_cons, List.forall_mem_append,
      Option.mem_toList] at hread hbelow
    refine parsed_base (baseFor_switch hread.1.1 ?_ (by simpa using hread.2)) rfl
    rw [List.forall_mem_map]
    intro c hm ps
    have hparts := fun s hs => hbelow.1.2 s (List.mem_flatMap_of_mem hm hs)
    simp only [Case.children, List.forall_mem_append, List.forall_mem_singleton] at hparts
    obtain ⟨hvalues, hbody⟩ := hparts
    rw [Case.pieces_spine]
    apply readCase_pieces (fun v hv => (hvalues v hv).readBy) hbody.readBy
    exact fun v hv target hname => ((hvalues v hv).labelling hbody hname).readBy
  all_goals
    simp only [Node.names, Node.children, List.forall_mem_cons, List.forall_mem_append,
      Option.mem_toList, List.forall_mem_map] at hnames hc hread hbelow
  case parameter name => exact parsed_parameter hnames.1
  case unary op x =>
    rw [Node.spine]
    split
    · exact hc.1.prefixed trivial
    · rename_i h
      exact parsed_base (baseFor_function (Bool.eq_false_iff.mpr h) hread.1) rfl
  case binary op l r =>
    by_cases hop : op = .arrayIndex
    · subst hop
      exact hc.1.accessed (List.forall_mem_singleton.mpr hbelow.2.1.readBy)
    · have hbase := parsed_base (baseFor_binary hop hread.1 hread.2.1) rfl
      cases op
      case arrayIndex => exact absurd rfl hop
      all_goals exact hbase
  case conditional => exact parsed_base (baseFor_conditional hread.1 hread.2.1 hread.2.2.1) rfl
  case block names es =>
    exact parsed_base (baseFor_block names (List.forall_mem_map.mpr hread)) rfl
  case loop => exact parsed_base (baseFor_loop _ _ hread.1) rfl
  case goto jump target value =>
    exact parsed_base (baseFor_goto jump target (by simpa using hread)) rfl
  case label target value =>
    cases value with
    | none => exact parsed_base (baseFor_label hnames.1) rfl
    | some value => exact (hc value rfl).prefixed hnames.1
  case tryCatch body handlers finallyBody faultBody =>
    obtain ⟨⟨⟨hbody, hhandlers⟩, hfinally⟩, hfault⟩ := hread
    refine parsed_base (baseFor_tryCatch hbody ?_ (by simpa using hfinally) (by simpa using hfault))
      rfl
    rw [List.forall_mem_map]
    intro h hh
    have hparts := fun s hs => hhandlers s (List.mem_flatMap_of_mem hh hs)
    simp only [Handler.children, List.forall_mem_append, List.forall_mem_singleton,
      Option.mem_toList] at hparts
    exact ⟨by simpa [Handler.map] using hparts.1, hparts.2⟩
  case new => exact parsed_base (baseFor_new (List.forall_mem_map.mpr hread)) rfl
  case newArray form type es =>
    cases form
    · exact parsed_base (baseFor_newArray_elements type (List.forall_mem_map.mpr hread)) rfl
    · exact parsed_base (baseFor_newArray_bounds type (List.forall_mem_map.mpr hread)) rfl
  case listInit c elements =>
    refine parsed_base (baseFor_listInit (List.forall_mem_map.mpr hread.1) ?_) rfl
    simp only [List.forall_mem_map, true_and]
    exact fun x hx s hs => hread.2 s (List.mem_flatMap_of_mem hx hs)
  case memberInit c bindings =>
    have harguments : ∀ e ∈ (c.map Spine.toExpr).arguments, e.ReadBy (readSpine (depth + 1)) :=
      List.forall_mem_map.mpr hread.1
    cases bindings with
    | nil => exact parsed_base (baseFor_listInit harguments (by simp)) rfl
    | cons b bs =>
      refine parsed_base (baseFor_memberInit (List.cons_ne_nil _ _) harguments ?_) rfl
      rw [List.forall_mem_map]
      exact fun x hx => ⟨rfl, hread.2 x hx⟩
  case invocation target arguments =>
    exact hc.1.accessed fun t ht => (hbelow.2 t ht).readBy
  case methodCall object method arguments =>
    refine Spine.Parsed.accessed ?_ fun t ht => (hbelow.2 t ht).readBy
    cases object with
    | none => exact parsed_parameter (hnames _ List.mem_cons_self)
    | some object => exact hc.1 object rfl
  case member object field =>
    refine Spine.Parsed.accessed ?_ (by simp [Access.arguments])
    cases object with
    | none => exact parsed_parameter (hnames _ List.mem_cons_self)
    | some object => exact hc object rfl
  case index object indexer arguments =>
    exact hc.1.accessed fun t ht => (hbelow.2 t ht).readBy
  case typeTest => exact parsed_base (baseFor_typeTest hread.1) rfl
  case dynamic => exact parsed_base (baseFor_dynamic _ (List.forall_mem_map.mpr hread)) rfl
  case runtimeVariables names => exact parsed_base (baseFor_runtimeVariables names) rfl
  case lambda name tailCall parameters body =>
    cases name with
    | none =>
      cases tailCall with
      | false => exact hc.1.prefixed ⟨by simp, by simp⟩
      | true => exact hc.1.prefixed ⟨by simp; decide, by simp⟩
    | some x => exact hc.1.prefixed ⟨by simpa using hnames.1, fun _ => rfl⟩
  case default type => exact parsed_base (baseFor_default type) rfl
  case extension => exact parsed_base (baseFor_extension _ (List.forall_mem_map.mpr hread)) rfl

namespace Expr

theorem Legible.parsed {e : Expr} (h : e.Legible) {depth : Nat} (hdepth : e.size ≤ depth) :
    e.spine.Parsed (readSpine depth) := by
  induction h generalizing depth with
  | @node n hf hnames _ ih =>
    obtain ⟨depth, rfl⟩ := Nat.exists_eq_add_one_of_ne_zero
      (Nat.ne_zero_of_lt (Nat.lt_of_lt_of_le (size_pos _) hdepth))
    have hbelow : ∀ c ∈ n.children, c.size ≤ depth := fun c hc =>
      Nat.le_of_lt_succ (Nat.lt_of_lt_of_le (size_lt_of_mem_children hc) hdepth)
    rw [spine_node]
    apply Node.parsed_spine
    · intro x hx
      cases n <;> simp_all [Node.map]
    · rwa [Node.names_map]
    · rw [Node.children_map, List.forall_mem_map]
      exact fun c hc => ih c hc (hbelow c hc)
    · rw [Node.children_map, List.forall_mem_map]
      exact fun c hc => ih c hc (Nat.le_succ_of_le (hbelow c hc))

/-- The pieces of a legible tree determine how it is taken apart. -/
theorem Legible.readSpine_pieces {e : Expr} (h : e.Legible) {depth : Nat}
    (hdepth : e.size ≤ depth) : readSpine (depth + 1) e.pieces = some (e.spine, []) := by
  have hread : readSpine (depth + 1) (e.spine.pieces ++ []) = some (e.spine, []) :=
    (h.parsed hdepth).readBy.read rfl
  rwa [List.append_nil, pieces_spine] at hread

/-- Legible trees have the same text when they are read as the same tree. -/
theorem Legible.text_eq_iff {a b : Expr} (ha : a.Legible) (hb : b.Legible) :
    a.text = b.text ↔ a.asRead = b.asRead := by
  constructor
  · intro h
    have hreada := ha.readSpine_pieces (Nat.le_add_right a.size b.size)
    have hreadb := hb.readSpine_pieces (Nat.le_add_left b.size a.size)
    rw [ha.pieces_eq_of_text_eq hb h, hreadb] at hreada
    rw [asRead, asRead, (Prod.mk.inj (Option.some.inj hreada)).1]
  · intro h
    rw [← text_asRead a, h, text_asRead]

end Expr

end ExprTree
