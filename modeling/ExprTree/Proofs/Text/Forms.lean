import ExprTree.Proofs.Text.Ahead

/-!
# Reading the forms

Every form is read where it stands, when its parts are read by the parser for the parts.
-/

namespace ExprTree

open Piece ExprTree.Expr ExprTree.Parser

variable {inner : Parser Spine}

/-- The expression is read as a part, up to where an expression ends. -/
structure Expr.ReadBy (inner : Parser Spine) (e : Expr) : Prop where
  leads : Leads e.pieces
  read {rest : List Piece} (h : stops true rest = true) :
    readExpr inner (e.pieces ++ rest) = some (e, rest)

/-- The expression is read as a base, whether or not accesses follow. -/
structure Expr.BaseFor (inner : Parser Spine) (e : Expr) : Prop where
  leads : Leads e.pieces
  read {rest : List Piece} (h : rests e.parameter?.isSome rest = true) :
    readFront inner (e.pieces ++ rest) = some (.inr e, rest)

section Parts

variable {e : Expr} {es : List Expr}

theorem Expr.ReadBy.read_mark (h : e.ReadBy inner) {c : Char} (hc : c ∈ [',', ')', ']', ';'])
    (ps : List Piece) : readExpr inner (e.pieces ++ mark c :: ps) = some (e, mark c :: ps) :=
  h.read (stops_closing hc ps)

theorem Expr.ReadBy.read_blank (h : e.ReadBy inner) {ps : List Piece} (hps : opensExpr ps = false) :
    readExpr inner (e.pieces ++ blank :: ps) = some (e, blank :: ps) :=
  h.read (stops_blank hps)

theorem enclosed_exprs (h : ∀ e ∈ es, e.ReadBy inner) {o c : Char} (hc : c ∈ [')', ']'])
    (ps : List Piece) :
    enclosed (readExpr inner) o c (mark o :: (separated (es.map Expr.pieces) ++ mark c :: ps)) =
      some (es, ps) := by
  have hclose : c ∈ [',', ')', ']', ';'] ∧ c ∉ ['(', '\x7b', '@'] ∧ signOf? c = none ∧ c ≠ ',' := by
    simp only [List.mem_cons, List.not_mem_nil, or_false] at hc
    rcases hc with rfl | rfl <;> exact ⟨by decide, by decide, rfl, by decide⟩
  obtain ⟨hstop, hopen, hsign, hcomma⟩ := hclose
  apply enclosed_closed
  · intro e he d hd
    simp only [List.mem_cons, List.not_mem_nil, or_false] at hd
    rcases hd with rfl | rfl
    · exact (h e he).read_mark (by decide)
    · exact (h e he).read_mark hstop
  · exact fun e he => (h e he).leads.head_ne_mark hopen hsign
  · exact hcomma

theorem readArgument_pieces (h : e.ReadBy inner) (ps : List Piece) :
    readArgument inner (mark '(' :: (e.pieces ++ mark ')' :: ps)) = some (e, ps) := by
  simp [readArgument, h.read_mark]

theorem readBraced_pieces (h : e.ReadBy inner) (ps : List Piece) :
    readBraced inner (inBraces e.pieces ++ ps) = some (e, ps) := by
  have hbrace : opensExpr (mark '\x7d' :: ps) = false := rfl
  simp [readBraced, inBraces, h.read_blank hbrace]

end Parts

section Atoms

theorem ne_smallestDigits {w : String} (h : isIdentifier w = true) : w ≠ smallestDigits := by
  rintro rfl
  exact absurd h (by decide)

theorem readFront_atom {w : String} {e : Expr} (hw : atom? w = some e)
    (hname : isIdentifier w = e.parameter?.isSome) {rest : List Piece}
    (h : rests e.parameter?.isSome rest = true) :
    readFront inner (word w :: rest) = some (.inr e, rest) := by
  rcases rest with _ | ⟨w' | s | c, ps⟩
  · simp [readFront, hw]
  · cases h
  · cases h
  · unfold readFront
    split <;> simp_all [rests, stops]

theorem baseFor_parameter {w : String} (hw : isIdentifier w = true) :
    (parameter w).BaseFor inner where
  leads := by
    rw [pieces_parameter]
    exact .name (ne_smallestDigits hw)
  read h := by
    rw [pieces_parameter]
    exact readFront_atom (if_pos hw) hw h

private theorem atom?_digits {n : Int64} (hn : 0 ≤ n.toInt) :
    isIdentifier (toString n.toInt) = false ∧
      atom? (toString n.toInt) = some (constant (.int n)) := by
  obtain ⟨c, digits, hdigits, hc⟩ := head_toDigits n.toInt.toNat
  have hlist : (toString n.toInt).toList = c :: digits := by
    rw [toList_toString_of_nonneg hn, hdigits]
  have hid : isIdentifier (toString n.toInt) = false := by
    refine Bool.eq_false_iff.mpr fun h => ?_
    obtain ⟨d, cs, hname, -, hd⟩ := head_of_isIdentifier h
    rw [hlist, List.cons.injEq] at hname
    rw [hname.1, hd] at hc
    cases hc
  have hne {s : String} (hs : ∃ d cs, s.toList = d :: cs ∧ d.isDigit = false) :
      toString n.toInt ≠ s := by
    rintro rfl
    obtain ⟨d, cs, hs, hd⟩ := hs
    rw [hlist, List.cons.injEq] at hs
    rw [hs.1, hd] at hc
    cases hc
  have hnull : toString n.toInt ≠ "null" := hne ⟨_, _, rfl, rfl⟩
  have htrue : toString n.toInt ≠ "true" := hne ⟨_, _, rfl, rfl⟩
  have hfalse : toString n.toInt ≠ "false" := hne ⟨_, _, rfl, rfl⟩
  refine ⟨hid, ?_⟩
  rw [atom?, hid, if_neg Bool.false_ne_true, if_neg hnull, if_neg htrue, if_neg hfalse,
    readInt64?_toString, Option.map_some]

theorem baseFor_int {n : Int64} (hn : ¬ (n < 0 ∧ -n ≠ n)) : (constant (.int n)).BaseFor inner := by
  by_cases hneg : n.toInt < 0
  · obtain rfl : n = Int64.minValue := eq_minValue hneg hn
    exact ⟨.sign _ rfl (by decide) (by decide), fun _ => rfl⟩
  · have hpieces : (constant (.int n)).pieces = [word (toString n.toInt)] := by
      rw [pieces_node]
      exact if_neg hneg
    obtain ⟨hid, hatom⟩ := atom?_digits (n := n) (by omega)
    refine ⟨?_, ?_⟩
    · rw [hpieces]
      refine .name fun h => ?_
      have hread := readInt64?_toString n
      have hlarge : readInt64? smallestDigits.toList = none := by decide
      rw [h, hlarge] at hread
      cases hread
    · intro rest h
      rw [hpieces]
      exact readFront_atom hatom hid h

theorem baseFor_constant {v : Literal} (hf : ∀ x, v ≠ .float x) (hi : ∀ n, v ≠ .int n) :
    (constant v).BaseFor inner := by
  cases v with
  | null =>
    exact ⟨.name (by decide), fun h => readFront_atom (w := "null") rfl rfl h⟩
  | bool b =>
    cases b
    · exact ⟨.name (by decide), fun h => readFront_atom (w := "false") rfl rfl h⟩
    · exact ⟨.name (by decide), fun h => readFront_atom (w := "true") rfl rfl h⟩
  | string s => exact ⟨.string s _, fun _ => rfl⟩
  | int n => exact absurd rfl (hi n)
  | float x => exact absurd rfl (hf x)

end Atoms

section Brackets

variable {t a b l r : Expr}

/-- What stands in brackets is no list of parameters, when a blank follows the first expression. -/
theorem readFront_bracketed {ps : List Piece} (h : Leads ps) (rest : List Piece) :
    readFront inner (mark '(' :: (ps ++ blank :: rest)) =
      asBase (readBracketed inner) (ps ++ blank :: rest) := by
  have hnames : opensNames (ps ++ blank :: rest) = false := by
    rcases h.opensNames (blank :: rest) with hnames | ⟨w, rfl⟩
    · exact hnames
    · rfl
  rw [readFront, readMarked, if_pos rfl, hnames]
  rfl

theorem baseFor_conditional (ht : t.ReadBy inner) (ha : a.ReadBy inner) (hb : b.ReadBy inner) :
    (conditional t a b).BaseFor inner where
  leads := by
    rw [pieces_node]
    exact .opening _ (by decide)
  read {rest} _ := by
    rw [pieces_node]
    simp [Node.map, Node.pieces, marks, readFront_bracketed ht.leads, asBase, readBracketed,
      ht.read_blank, ha.read_blank, hb.read_mark, opensExpr, signOf?, typeTest?, readSymbol]

private theorem readSymbol_symbol {op : BinaryOp} (hop : op ≠ .arrayIndex) (ps : List Piece) :
    opensExpr (marks op.symbol ++ blank :: ps) = false ∧
      typeTest? (marks op.symbol ++ blank :: ps) = none ∧
      readSymbol (marks op.symbol ++ blank :: ps) = (op.symbol.toList, blank :: ps) ∧
      op.symbol.toList ≠ ['?'] := by
  rcases op with op | op | op | op | op | op | _ | _ | _
  case arrayIndex => exact absurd rfl hop
  case coalesce | assign => exact ⟨rfl, rfl, rfl, by decide⟩
  all_goals cases op <;> exact ⟨rfl, rfl, rfl, by decide⟩

theorem baseFor_binary {op : BinaryOp} (hop : op ≠ .arrayIndex) (hl : l.ReadBy inner)
    (hr : r.ReadBy inner) : (binary op l r).BaseFor inner where
  leads := by
    rw [pieces_node]
    cases op
    case arrayIndex => exact absurd rfl hop
    all_goals exact .opening _ (by decide)
  read {rest} _ := by
    obtain ⟨hopens, htest, hsymbol, hne⟩ := readSymbol_symbol hop (r.pieces ++ mark ')' :: rest)
    have hpieces : (binary op l r).pieces =
        mark '(' :: l.pieces ++ blank :: marks op.symbol ++ blank :: r.pieces ++ [mark ')'] := by
      rw [pieces_node]
      cases op
      case arrayIndex => exact absurd rfl hop
      all_goals rfl
    simp [hpieces, readFront_bracketed hl.leads, asBase, readBracketed, hl.read_blank hopens,
      htest, hsymbol, hr.read_mark, BinaryOp.ofSymbol?_symbol hop, hne]

theorem baseFor_typeTest {test : TypeTest} {type : String} {e : Expr} (he : e.ReadBy inner) :
    (node (.typeTest test e type)).BaseFor inner where
  leads := by
    rw [pieces_node]
    cases test <;> exact .opening _ (by decide)
  read {rest} _ := by
    rw [pieces_node]
    cases test <;>
      simp [Node.map, Node.pieces, readFront_bracketed he.leads, asBase, readBracketed,
        he.read_blank, opensExpr, typeTest?]

end Brackets

section Functions

variable {e : Expr} {es : List Expr}

theorem enclosed_names (names : List String) (ps : List Piece) :
    enclosed name '(' ')' (mark '(' :: (separated (words names) ++ mark ')' :: ps)) =
      some (names, ps) := by
  apply enclosed_closed
  · exact fun x _ c _ ps => rfl
  · exact fun x _ ps => nofun
  · decide

theorem baseFor_function {op : UnaryOp} (hop : op.isSign = false) (he : e.ReadBy inner) :
    (unary op e).BaseFor inner where
  leads := by
    rw [pieces_node]
    cases op <;> first | exact .function (by decide) _ | cases hop
  read {rest} _ := by
    rw [pieces_node]
    cases op
    case not | negate | plus | complement => cases hop
    all_goals
      simp [Node.map, Node.pieces, UnaryOp.isSign, UnaryOp.symbol, parenthesised, separated,
        readFront, asBase, readFunction, functionOf?, readArgument_pieces he]

theorem baseFor_runtimeVariables (names : List String) :
    (node (.runtimeVariables names)).BaseFor inner where
  leads := by
    rw [pieces_node]
    exact .function (by decide) _
  read {rest} _ := by
    rw [pieces_node]
    simp [Node.map, Node.pieces, parenthesised, readFront, asBase, readFunction, enclosed_names]

theorem baseFor_default (type : String) : (node (.default type)).BaseFor inner where
  leads := by
    rw [pieces_node]
    exact .function (by decide) _
  read {rest} _ := by
    rw [pieces_node]
    simp [Node.map, Node.pieces, parenthesised, words, separated, readFront, asBase, readFunction]

theorem baseFor_extension (x : String) (h : ∀ e ∈ es, e.ReadBy inner) :
    (extension x es).BaseFor inner where
  leads := by
    rw [pieces_node]
    exact .opening _ (by decide)
  read {rest} _ := by
    rw [pieces_node]
    simp [Node.map, Node.pieces, parenthesised, readFront, readMarked, asBase, readExtension,
      readArguments, enclosed_exprs h]

end Functions

section Keywords

variable {e : Expr} {es : List Expr}

theorem readFront_keyword {w : String} (hw : w ≠ "tailcall") {ps : List Piece}
    (hopens : opensExpr ps = true) (hhead : ps.head? ≠ some (mark '(')) :
    readFront inner (word w :: blank :: ps) = asBase (readKeyword inner w) (blank :: ps) := by
  rw [readFront, if_pos hopens]
  unfold readSpaced
  split
  · simp_all
  · rw [if_neg hw]
  · rfl

theorem baseFor_dynamic (binder : String) (h : ∀ e ∈ es, e.ReadBy inner) :
    (node (.dynamic binder es)).BaseFor inner where
  leads := by
    rw [pieces_node]
    exact .keyword (by decide) (by decide) _
  read {rest} _ := by
    rw [pieces_node]
    simp only [Node.map, Node.pieces, List.cons_append]
    rw [readFront_keyword (by decide) rfl (by simp)]
    simp [asBase, readKeyword, readDynamic, parenthesised, readArguments, enclosed_exprs h]

private theorem readKeyword_jump (jump : Jump) :
    readKeyword inner jump.keyword = readJump inner jump := by
  cases jump <;> rfl

theorem baseFor_goto (jump : Jump) (target : String) {value : Option Expr}
    (h : ∀ e ∈ value, e.ReadBy inner) : (node (.goto jump target value)).BaseFor inner where
  leads := by
    rw [pieces_node]
    cases jump <;> exact .keyword (by decide) (by decide) _
  read {rest} hrest := by
    have hkeyword : jump.keyword ≠ "tailcall" := by cases jump <;> decide
    rw [pieces_node]
    cases value with
    | none =>
      have hopens : opensExpr (word target :: rest) = true :=
        Option.isNone_iff_eq_none.mpr (typeTest_word hrest target)
      simp only [Node.map, Node.pieces, Option.map_none, Option.elim_none, List.cons_append,
        List.nil_append]
      rw [readFront_keyword hkeyword hopens (by simp), readKeyword_jump]
      simp [asBase, readJump, head_ne_bracket hrest]
    | some e =>
      simp only [Node.map, Node.pieces, Option.map_some, Option.elim_some, List.cons_append]
      rw [readFront_keyword hkeyword rfl (by simp), readKeyword_jump]
      simp [asBase, readJump, parenthesised, separated, readArgument_pieces (h e rfl)]

theorem baseFor_label {target : String} (ht : isIdentifier target = true) :
    (node (.label target none)).BaseFor inner where
  leads := by
    rw [pieces_node]
    exact .word (ne_smallestDigits ht) (by decide) (by decide) fun h => absurd h (by decide)
  read {rest} h := by
    have hlabel : readLabel target rest = (.inr (node (.label target none)), rest) := by
      unfold readLabel
      split
      · -- the blank belongs to what follows, or a value would begin here
        rename_i ps
        have hopens : opensExpr ps = false := by
          simpa [rests, stops, parameter?] using h
        rw [hopens]
        rfl
      · rfl
    rw [pieces_node]
    simp [Node.map, Node.pieces, readFront, ht, hlabel]

theorem baseFor_loop (breakLabel continueLabel : Option String) (he : e.ReadBy inner) :
    (node (.loop e breakLabel continueLabel)).BaseFor inner where
  leads := by
    rw [pieces_node]
    cases breakLabel <;> cases continueLabel <;> exact .keyword (by decide) (by decide) _
  read {rest} h := by
    have hbody := readBraced_pieces he rest
    rw [pieces_node]
    cases breakLabel <;> cases continueLabel <;>
    · simp only [Node.map, Node.pieces, inBraces, Option.elim_none, Option.elim_some,
        List.cons_append, List.nil_append]
      rw [readFront_keyword (by decide) rfl (by simp)]
      simp_all [asBase, inBraces, readKeyword, readLoop, readTarget, expect]

end Keywords

section Constructions

variable {es : List Expr}

theorem readFront_new {type : String} {c : Char} (hc : c ≠ ' ') (ps : List Piece) :
    readFront inner (word "new" :: blank :: word type :: mark c :: ps) =
      asBase (if c = '(' then readConstruct inner type else readArray inner type)
        (mark c :: ps) := by
  have hopens : opensExpr (word type :: mark c :: ps) = true := by
    simp [opensExpr, typeTest?, hc]
  rw [readFront_keyword (by decide) hopens (by simp)]
  by_cases h : c = '('
  · simp [asBase, readKeyword, readNew, h]
  · simp [asBase, readKeyword, readNew, h]

theorem baseFor_new {c : Construct Expr} (h : ∀ e ∈ c.arguments, e.ReadBy inner) :
    (new c).BaseFor inner where
  leads := by
    rw [pieces_node]
    exact .keyword (by decide) (by decide) _
  read {rest} hrest := by
    rw [pieces_node]
    simp [Node.map, Node.pieces, Construct.pieces, Construct.map, parenthesised, readFront_new,
      asBase, readConstruct, readArguments, enclosed_exprs h, expect_brace_of_rests hrest]

theorem baseFor_newArray_bounds (type : String) (h : ∀ e ∈ es, e.ReadBy inner) :
    (node (.newArray .bounds type es)).BaseFor inner where
  leads := by
    rw [pieces_node]
    exact .keyword (by decide) (by decide) _
  read {rest} hrest := by
    rw [pieces_node]
    simp [Node.map, Node.pieces, bracketed, readFront_new, asBase, readArray, readIndices,
      enclosed_exprs h, expect_brace_of_rests hrest]

theorem sequence_braced {α : Type} {item : Parser α} {f : α → List Piece} {xs : List α}
    (hitem : ∀ x ∈ xs, ∀ ps, stops true ps = true → item (f x ++ ps) = some (x, ps))
    (hopen : ∀ x ∈ xs, ∀ ps, (f x ++ ps).head? ≠ some blank) (ps : List Piece) :
    sequence item ' ' (separated (xs.map f) ++ blank :: mark '\x7d' :: ps) =
      some (xs, blank :: mark '\x7d' :: ps) := by
  apply sequence_separated
  · exact fun x hx ps => hitem x hx _ (stops_closing (by decide) ps)
  · exact fun x hx => hitem x (List.mem_of_getLast? hx) _ (stops_blank rfl)
  · exact hopen
  · exact fun _ => rfl
  · exact nofun

theorem baseFor_newArray_elements (type : String) (h : ∀ e ∈ es, e.ReadBy inner) :
    (node (.newArray .elements type es)).BaseFor inner where
  leads := by
    rw [pieces_node]
    exact .keyword (by decide) (by decide) _
  read {rest} hrest := by
    -- the brackets behind the type are those of an array without bounds
    have hnone : ∀ e ∈ ([] : List Expr), e.ReadBy inner := nofun
    have hbounds (ps : List Piece) :
        readIndices inner (mark '[' :: (separated [] ++ mark ']' :: ps)) = some ([], ps) :=
      enclosed_exprs hnone (by decide) ps
    have hes : sequence (readExpr inner) ' '
        (separated (es.map Expr.pieces) ++ blank :: mark '\x7d' :: rest) =
        some (es, blank :: mark '\x7d' :: rest) := by
      apply sequence_braced
      · exact fun e he ps hps => (h e he).read hps
      · exact fun e he => (h e he).leads.head_ne_mark (by decide) rfl
    rw [pieces_node]
    simp [Node.map, Node.pieces, bracketed, inBraces, readFront_new, asBase, readArray, hbounds,
      hes]

theorem baseFor_listInit {c : Construct Expr} {elements : List (ElementInit Expr)}
    (hc : ∀ e ∈ c.arguments, e.ReadBy inner)
    (helements : ∀ x ∈ elements, x.method.declaringType = "" ∧ ∀ e ∈ x.arguments, e.ReadBy inner) :
    (node (.listInit c elements)).BaseFor inner where
  leads := by
    rw [pieces_node]
    exact .keyword (by decide) (by decide) _
  read {rest} _ := by
    have hread : sequence (readElement inner) ' '
        (separated (elements.map fun x => (x.map Expr.pieces).pieces) ++
          blank :: mark '\x7d' :: rest) = some (elements, blank :: mark '\x7d' :: rest) := by
      apply sequence_braced
      · rintro ⟨⟨type, method⟩, arguments⟩ hx ps -
        obtain ⟨rfl, harguments⟩ := helements _ hx
        simp [ElementInit.pieces, ElementInit.map, parenthesised, readElement, readArguments,
          enclosed_exprs harguments]
      · simp [ElementInit.pieces]
    have hinit : readInitialiser inner c
        (separated (elements.map fun x => (x.map Expr.pieces).pieces) ++
          blank :: mark '\x7d' :: rest) =
        some (node (.listInit c elements), blank :: mark '\x7d' :: rest) := by
      -- a bracket follows the first name, and no blank
      unfold readInitialiser
      split
      · cases elements <;> simp_all [separated, ElementInit.pieces, parenthesised]
      · rw [hread]
        rfl
    rw [pieces_node]
    simp [Node.map, Node.pieces, Construct.pieces, Construct.map, parenthesised, inBraces,
      readFront_new, asBase, readConstruct, readArguments, enclosed_exprs hc, Function.comp_def,
      hinit]

theorem baseFor_memberInit {c : Construct Expr} {bindings : List (Binding Expr)}
    (hne : bindings ≠ []) (hc : ∀ e ∈ c.arguments, e.ReadBy inner)
    (hbindings : ∀ x ∈ bindings, x.member.declaringType = "" ∧ x.value.ReadBy inner) :
    (node (.memberInit c bindings)).BaseFor inner where
  leads := by
    rw [pieces_node]
    exact .keyword (by decide) (by decide) _
  read {rest} _ := by
    have hread : sequence (readAssignment inner) ' '
        (separated (bindings.map fun x => (x.map Expr.pieces).pieces) ++
          blank :: mark '\x7d' :: rest) = some (bindings, blank :: mark '\x7d' :: rest) := by
      apply sequence_braced
      · rintro ⟨⟨type, member⟩, value⟩ hx ps hps
        obtain ⟨rfl, hvalue⟩ := hbindings _ hx
        simp [Binding.pieces, Binding.map, marks, readAssignment, hvalue.read hps]
      · simp [Binding.pieces]
    have hinit : readInitialiser inner c
        (separated (bindings.map fun x => (x.map Expr.pieces).pieces) ++
          blank :: mark '\x7d' :: rest) =
        some (node (.memberInit c bindings), blank :: mark '\x7d' :: rest) := by
      obtain ⟨b, bs, rfl⟩ := List.exists_cons_of_ne_nil hne
      have hword : ∃ ps, separated ((b :: bs).map fun x => (x.map Expr.pieces).pieces) ++
          blank :: mark '\x7d' :: rest = word b.member.name :: blank :: ps := ⟨_, rfl⟩
      obtain ⟨ps, hps⟩ := hword
      rw [hps] at hread ⊢
      rw [readInitialiser, hread]
      rfl
    rw [pieces_node]
    simp [Node.map, Node.pieces, Construct.pieces, Construct.map, parenthesised, inBraces,
      readFront_new, asBase, readConstruct, readArguments, enclosed_exprs hc, Function.comp_def,
      hinit]

end Constructions

section Bodies

variable {e : Expr} {es : List Expr}

theorem many_statements (h : ∀ e ∈ es, e.ReadBy inner) (ps : List Piece) :
    many (readStatement inner)
        (es.flatMap (fun e => blank :: (e.pieces ++ [mark ';'])) ++ blank :: mark '\x7d' :: ps) =
      (es, blank :: mark '\x7d' :: ps) := by
  apply many_flatMap
  · exact fun _ _ => List.cons_ne_nil _ _
  · intro e rest hsuffix
    have he := h e (hsuffix.subset List.mem_cons_self)
    have hhead := he.leads.head_ne_mark (c := '\x7d') (by decide) rfl
    simp [-List.head?_append, readStatement, hhead, he.read_mark]
  · simp [readStatement]

theorem readVariables_statements (h : ∀ e ∈ es, e.ReadBy inner) (ps : List Piece) :
    readVariables
        (es.flatMap (fun e => blank :: (e.pieces ++ [mark ';'])) ++ blank :: mark '\x7d' :: ps) =
      some ([], es.flatMap (fun e => blank :: (e.pieces ++ [mark ';'])) ++
        blank :: mark '\x7d' :: ps) := by
  cases es with
  | nil => rfl
  | cons e es =>
    rw [List.flatMap_cons, List.append_assoc, List.cons_append, List.append_assoc]
    exact (h e List.mem_cons_self).leads.readVariables (by simp)

theorem readVariables_names (names : List String) {ps : List Piece}
    (h : readVariables ps = some ([], ps)) :
    readVariables ((if names = [] then []
      else blank :: word "var" :: blank :: (separated (words names) ++ [mark ';'])) ++ ps) =
      some (names, ps) := by
  cases names with
  | nil => exact h
  | cons x names =>
    have hread : sequence name ';' (separated (words (x :: names)) ++ mark ';' :: ps) =
        some (x :: names, mark ';' :: ps) := by
      apply sequence_closed
      · exact fun _ _ _ _ _ => rfl
      · exact fun _ _ _ => nofun
      · decide
    have hword : ∃ qs, separated (words (x :: names)) ++ mark ';' :: ps = word x :: qs := ⟨_, rfl⟩
    obtain ⟨qs, hqs⟩ := hword
    rw [if_neg (List.cons_ne_nil _ _), List.cons_append, List.cons_append, List.cons_append,
      List.append_assoc, List.singleton_append, hqs]
    rw [hqs] at hread
    simp [readVariables, hread]

theorem baseFor_block (names : List String) (h : ∀ e ∈ es, e.ReadBy inner) :
    (node (.block names es)).BaseFor inner where
  leads := by
    rw [pieces_node]
    exact .opening _ (by decide)
  read {rest} _ := by
    have hvariables := readVariables_names names (readVariables_statements h rest)
    rw [pieces_node]
    simp [Node.map, Node.pieces, List.flatMap_map, readFront, readMarked, asBase, readBlock,
      hvariables, many_statements h]

theorem readBinder_pieces (binder : Option String) (ps : List Piece) :
    readBinder (binder.elim [] (fun x => [blank, word x]) ++ mark ')' :: ps) =
      (binder, mark ')' :: ps) := by
  cases binder <;> rfl

theorem readFilter_pieces {filter : Option Expr} (h : ∀ f ∈ filter, f.ReadBy inner)
    (body ps : List Piece) :
    readFilter inner (filter.elim [] (fun f => blank :: word "when" :: blank ::
        parenthesised [f.pieces]) ++ blank :: (inBraces body ++ ps)) =
      some (filter, blank :: (inBraces body ++ ps)) := by
  cases filter with
  | none => rfl
  | some f => simp [readFilter, parenthesised, separated, readArgument_pieces (h f rfl)]

theorem readHandler_pieces {h : Handler Expr} (hfilter : ∀ f ∈ h.filter, f.ReadBy inner)
    (hbody : h.body.ReadBy inner) (ps : List Piece) :
    readHandler inner ((h.map Expr.pieces).pieces ++ ps) = some (h, ps) := by
  obtain ⟨type, binder, filter, body⟩ := h
  have hfilter : ∀ f ∈ filter, f.ReadBy inner := hfilter
  have hpieces : (Handler.map Expr.pieces ⟨type, binder, filter, body⟩).pieces ++ ps =
      blank :: word "catch" :: blank :: mark '(' :: word type ::
        (binder.elim [] (fun x => [blank, word x]) ++ mark ')' ::
          (filter.elim [] (fun f => blank :: word "when" :: blank :: parenthesised [f.pieces]) ++
            blank :: (inBraces body.pieces ++ ps))) := by
    cases filter <;> simp [Handler.pieces, Handler.map]
  rw [hpieces]
  simp [readHandler, readBinder_pieces, readFilter_pieces hfilter, readBraced_pieces hbody]

/-- A clause that is announced by a keyword, or nothing. -/
def clausePieces (keyword : String) (clause : Option Expr) : List Piece :=
  clause.elim [] fun e => blank :: word keyword :: blank :: inBraces e.pieces

section Clauses

variable {clause : Option Expr} {keyword : String} {ps : List Piece}

theorem expect_clause {w : String} (hw : w ≠ keyword) {what : List Piece}
    (hps : expect (blank :: word w :: what) ps = none) :
    expect (blank :: word w :: what) (clausePieces keyword clause ++ ps) = none := by
  cases clause with
  | none => exact hps
  | some e => simp [clausePieces, expect, hw]

theorem readClause_pieces (h : ∀ e ∈ clause, e.ReadBy inner)
    (hps : expect [blank, word keyword, blank] ps = none) :
    readClause inner keyword (clausePieces keyword clause ++ ps) = some (clause, ps) := by
  cases clause with
  | none => simp [clausePieces, readClause, hps]
  | some e => simp [clausePieces, readClause, readBraced_pieces (h e rfl)]

end Clauses

theorem baseFor_tryCatch {handlers : List (Handler Expr)} {finallyBody faultBody : Option Expr}
    (hbody : e.ReadBy inner)
    (hhandlers : ∀ h ∈ handlers, (∀ f ∈ h.filter, f.ReadBy inner) ∧ h.body.ReadBy inner)
    (hfinally : ∀ f ∈ finallyBody, f.ReadBy inner) (hfault : ∀ f ∈ faultBody, f.ReadBy inner) :
    (node (.tryCatch e handlers finallyBody faultBody)).BaseFor inner where
  leads := by
    rw [pieces_node]
    exact .keyword (by decide) (by decide) _
  read {rest} hrest := by
    -- a word behind the last clause would have to be that of a type test
    have hexpect {w : String} (h : w ≠ "is" ∧ w ≠ "fault") (what : List Piece) :
        expect (blank :: word w :: what) (clausePieces "fault" faultBody ++ rest) = none :=
      expect_clause h.2 (expect_word_of_rests hrest h.1 what)
    have hmany : many (readHandler inner)
        (handlers.flatMap (fun h => (h.map Expr.pieces).pieces) ++
          (clausePieces "finally" finallyBody ++ (clausePieces "fault" faultBody ++ rest))) =
        (handlers,
          clausePieces "finally" finallyBody ++ (clausePieces "fault" faultBody ++ rest)) := by
      apply many_flatMap
      · exact fun _ _ => List.cons_ne_nil _ _
      · intro h hs hsuffix
        obtain ⟨hfilter, hbody⟩ := hhandlers h (hsuffix.subset List.mem_cons_self)
        exact readHandler_pieces hfilter hbody _
      · unfold readHandler
        rw [expect_clause (by decide) (hexpect (by decide) _)]
        rfl
    have hpieces : (node (.tryCatch e handlers finallyBody faultBody)).pieces ++ rest =
        word "try" :: blank :: (inBraces e.pieces ++
          (handlers.flatMap (fun h => (h.map Expr.pieces).pieces) ++
            (clausePieces "finally" finallyBody ++ (clausePieces "fault" faultBody ++ rest)))) := by
      rw [pieces_node]
      simp [Node.map, Node.pieces, List.flatMap_map, clausePieces, Function.comp_def]
    rw [hpieces, readFront_keyword (by decide) rfl (by simp [inBraces])]
    simp [asBase, readKeyword, readTry, readBraced_pieces hbody, hmany,
      readClause_pieces hfinally (hexpect (w := "finally") (by decide) _),
      readClause_pieces hfault (expect_word_of_rests (w := "fault") hrest (by decide) _)]

end Bodies

/-- The expression is read in its parts. A colon would make a label of a name at the end. -/
structure Spine.ReadBy (inner : Parser Spine) (s : Spine) : Prop where
  leads : Leads s.pieces
  read {rest : List Piece} (h : stops s.name?.isSome rest = true) :
    inner (s.pieces ++ rest) = some (s, rest)

theorem Spine.ReadBy.toExpr {s : Spine} (h : s.ReadBy inner) : s.toExpr.ReadBy inner where
  leads := by
    rw [pieces_toExpr]
    exact h.leads
  read hrest := by
    rw [pieces_toExpr, readExpr, h.read (stops_of_named hrest), Option.map_some]

section Switches

theorem sequence_values {values : List Spine} (h : ∀ v ∈ values, v.ReadBy inner)
    {rest : List Piece} (hrest : ∀ v ∈ values.getLast?, stops v.name?.isSome rest = true)
    (hnone : values = [] → rest.head? = some (mark ':')) (hcomma : rest.head? ≠ some (mark ',')) :
    sequence inner ':' (separated (values.map Spine.pieces) ++ rest) = some (values, rest) := by
  apply sequence_separated
  · exact fun v hv ps => (h v hv).read (stops_closing (by decide) ps)
  · exact fun v hv => (h v (List.mem_of_getLast? hv)).read (hrest v hv)
  · exact fun v hv => (h v hv).leads.head_ne_mark (by decide) rfl
  · exact hnone
  · exact hcomma

private theorem readCase_of_unnamed {values : List Spine} {body : Spine}
    (hvalues : ∀ v ∈ values, v.ReadBy inner) (hbody : body.ReadBy inner)
    (hnames : ∀ v ∈ values.getLast?, v.name? = none) (ps : List Piece) :
    readCase inner (Case.pieces ⟨values.map Spine.pieces, body.pieces⟩ ++ ps) =
      some (⟨values.map Spine.toExpr, body.toExpr⟩, ps) := by
  have hread := sequence_values hvalues
    (fun v hv => show stops v.name?.isSome (mark ':' :: blank :: (body.pieces ++ mark ';' :: ps)) =
      true by rw [hnames v hv]; rfl) (fun _ => rfl) (by simp)
  have hbody := hbody.toExpr.read_mark (c := ';') (by decide) ps
  rw [Spine.pieces_toExpr] at hbody
  simp [Case.pieces, readCase, hread, hbody]

private theorem readCase_of_named {values : List Spine} {last body : Spine} {target : String}
    (hvalues : ∀ v ∈ values, v.ReadBy inner) (hname : last.name? = some target)
    (hlast : (last.labelling target body).ReadBy inner) (ps : List Piece) :
    readCase inner (Case.pieces ⟨(values ++ [last]).map Spine.pieces, body.pieces⟩ ++ ps) =
      some (Case.spine ⟨values ++ [last], body⟩, ps) := by
  obtain ⟨front, hfront⟩ := separated_concat (values.map Spine.pieces)
  have hread : sequence inner ':'
      (separated ((values ++ [last.labelling target body]).map Spine.pieces) ++ mark ';' :: ps) =
      some (values ++ [last.labelling target body], mark ';' :: ps) := by
    apply sequence_values
    · simpa [or_imp, forall_and] using ⟨hvalues, hlast⟩
    · exact fun v _ => stops_closing (by decide) ps
    · simp
    · simp
  simp only [List.map_append, List.map_cons, List.map_nil, hfront, Spine.pieces_labelling hname,
    List.append_assoc, List.cons_append] at hread
  simp [Case.pieces, hfront, readCase, hread, expect, Case.ofValues_labelling values hname]

theorem readCase_pieces {c : Case Spine} (hvalues : ∀ v ∈ c.values, v.ReadBy inner)
    (hbody : c.body.ReadBy inner)
    (hlabelling : ∀ v ∈ c.values, ∀ target, v.name? = some target →
      (v.labelling target c.body).ReadBy inner) (ps : List Piece) :
    readCase inner ((c.map Spine.pieces).pieces ++ ps) = some (c.spine, ps) := by
  obtain ⟨values, body⟩ := c
  rcases List.eq_nil_or_concat values with rfl | ⟨values, last, rfl⟩
  · exact readCase_of_unnamed hvalues hbody nofun ps
  · rw [List.concat_eq_append] at *
    cases hname : last.name? with
    | none =>
      have hspine : Case.spine ⟨values ++ [last], body⟩ =
          ⟨(values ++ [last]).map Spine.toExpr, body.toExpr⟩ := by
        simp [Case.spine, hname, Case.map]
      rw [hspine]
      exact readCase_of_unnamed hvalues hbody (by simpa using hname) ps
    | some target =>
      apply readCase_of_named (fun v hv => hvalues v (by simp_all)) hname
      exact hlabelling last (by simp) target hname

/-- The fallback of a switch, or nothing. -/
def fallbackPieces (fallback : Option Expr) : List Piece :=
  fallback.elim [] fun e => blank :: word "default" :: mark ':' :: blank :: (e.pieces ++ [mark ';'])

theorem readFallback_pieces {fallback : Option Expr} (h : ∀ e ∈ fallback, e.ReadBy inner)
    (ps : List Piece) :
    readFallback inner (fallbackPieces fallback ++ blank :: mark '\x7d' :: ps) =
      some (fallback, blank :: mark '\x7d' :: ps) := by
  cases fallback with
  | none => simp [fallbackPieces, readFallback, expect]
  | some e => simp [fallbackPieces, readFallback, (h e rfl).read_mark]

theorem baseFor_switch {value : Expr} {cases : List (Case Expr)} {fallback : Option Expr}
    (hvalue : value.ReadBy inner)
    (hcases : ∀ c ∈ cases, ∀ ps, readCase inner ((c.map Expr.pieces).pieces ++ ps) = some (c, ps))
    (hfallback : ∀ e ∈ fallback, e.ReadBy inner) :
    (node (.switch value cases fallback)).BaseFor inner where
  leads := by
    rw [pieces_node]
    exact .keyword (by decide) (by decide) _
  read {rest} _ := by
    have hmany : many (readCase inner) (cases.flatMap (fun c => (c.map Expr.pieces).pieces) ++
        (fallbackPieces fallback ++ blank :: mark '\x7d' :: rest)) =
        (cases, fallbackPieces fallback ++ blank :: mark '\x7d' :: rest) := by
      apply many_flatMap
      · exact fun _ _ => List.cons_ne_nil _ _
      · exact fun c cs hsuffix => hcases c (hsuffix.subset List.mem_cons_self) _
      · cases fallback <;> simp [fallbackPieces, readCase, expect]
    have hpieces : (node (.switch value cases fallback)).pieces ++ rest =
        word "switch" :: blank :: mark '(' :: (value.pieces ++ mark ')' :: blank :: mark '\x7b' ::
          (cases.flatMap (fun c => (c.map Expr.pieces).pieces) ++
            (fallbackPieces fallback ++ blank :: mark '\x7d' :: rest))) := by
      rw [pieces_node]
      simp [Node.map, Node.pieces, parenthesised, separated, List.flatMap_map, fallbackPieces,
        Function.comp_def]
    rw [hpieces]
    simp [readFront, opensExpr, readSpaced, hvalue.leads.opensSwitch, asBase, readSwitch,
      readArgument_pieces hvalue, hmany, readFallback_pieces hfallback]

end Switches

end ExprTree
