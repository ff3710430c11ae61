import ExprTree.Proofs.Reach
import ExprTree.Expr.Text

/-!
# Weights of texts

Characters have weights, and those of a text add up. The text of a node weighs what the texts of its
children weigh together, besides what stands around them, which is the same for all nodes of one
shape.
-/

namespace ExprTree

/-- The weights of all characters of a text together. -/
def weigh (w : Char → Nat) (s : String) : Nat := (s.toList.map w).sum

/-- The weights of several texts together. -/
def weighAll (w : Char → Nat) (texts : List String) : Nat := (texts.map (weigh w)).sum

variable (w : Char → Nat)

@[simp] theorem weigh_empty : weigh w "" = 0 := rfl

@[simp] theorem weigh_append (a b : String) : weigh w (a ++ b) = weigh w a + weigh w b := by
  rw [weigh, String.toList_append, List.map_append, List.sum_append]
  rfl

@[simp] theorem weighAll_nil : weighAll w [] = 0 := rfl

@[simp] theorem weighAll_cons (a : String) (texts : List String) :
    weighAll w (a :: texts) = weigh w a + weighAll w texts := List.sum_cons

@[simp] theorem weighAll_append (as bs : List String) :
    weighAll w (as ++ bs) = weighAll w as + weighAll w bs := by
  rw [weighAll, List.map_append, List.sum_append]
  rfl

@[simp] theorem weigh_one (s : String) : weigh (fun _ => 1) s = s.length := by
  rw [weigh, List.map_const', List.sum_replicate_nat, Nat.mul_one, String.length_toList]

private def bare {ε : Type} (_ : ε) : String := ""

@[simp] private theorem weigh_bare {ε : Type} (x : ε) : weigh w (bare x) = 0 := rfl

section Parts

variable {σ : Type} (text : σ → String) (children : σ → List String) (strip : σ → σ)
  (h : ∀ x, weigh w (text x) = weighAll w (children x) + weigh w (text (strip x)))

include h

private theorem weigh_join (xs : List σ) : weigh w (String.join (xs.map text)) =
    weighAll w (xs.flatMap children) + weigh w (String.join ((xs.map strip).map text)) := by
  induction xs with
  | nil => simp
  | cons x xs ih =>
    have hx := h x
    simp only [List.map_cons, List.flatMap_cons, String.join_cons, weigh_append, weighAll_append]
    omega

private theorem weigh_commaSeparated (xs : List σ) : weigh w (commaSeparated (xs.map text)) =
    weighAll w (xs.flatMap children) + weigh w (commaSeparated ((xs.map strip).map text)) := by
  induction xs with
  | nil => simp [commaSeparated]
  | cons x xs ih =>
    have hx := h x
    cases xs with
    | nil => simpa [commaSeparated] using hx
    | cons y ys =>
      simp only [List.map_cons, List.flatMap_cons, commaSeparated, String.intercalate_cons_cons,
        weigh_append, weighAll_append] at *
      omega

end Parts

private theorem weigh_list (texts : List String) : weigh w (commaSeparated texts) =
    weighAll w texts + weigh w (commaSeparated (texts.map bare)) := by
  have h := weigh_commaSeparated w id (fun x => [x]) bare (fun x => by simp) texts
  simpa using h

private theorem weigh_statements (texts : List String) :
    weigh w (String.join (texts.map (" " ++ · ++ ";"))) =
      weighAll w texts + weigh w (String.join ((texts.map bare).map (" " ++ · ++ ";"))) := by
  have hone (x : String) : weigh w (" " ++ x ++ ";") =
      weighAll w [x] + weigh w (" " ++ bare x ++ ";") := by
    simp only [weigh_append, weighAll_cons, weighAll_nil, weigh_bare]
    omega
  have h := weigh_join w _ _ _ hone texts
  rwa [List.flatMap_singleton'] at h

private theorem weigh_construct (c : Construct String) :
    weigh w c.text = weighAll w c.arguments + weigh w (c.map bare).text := by
  have h := weigh_list w c.arguments
  simp only [Construct.text, Construct.map, weigh_append]
  omega

private theorem weigh_handler (h : Handler String) : weigh w (" " ++ h.text) =
    weighAll w h.children + weigh w (" " ++ (h.map bare).text) := by
  obtain ⟨type, binder, filter, body⟩ := h
  cases filter <;>
    simp only [Handler.text, Handler.map, Handler.children, present, braced, Option.map_none,
      Option.map_some, Option.toList_none, Option.toList_some, weigh_append, weigh_empty,
      weigh_bare, weighAll_append, weighAll_cons, weighAll_nil] <;>
    omega

private theorem weigh_handlers (hs : List (Handler String)) :
    weigh w (String.join (hs.map (" " ++ ·.text))) = weighAll w (hs.flatMap (·.children)) +
      weigh w (String.join ((hs.map (·.map bare)).map (" " ++ ·.text))) :=
  weigh_join w _ _ _ (weigh_handler w) hs

private theorem weigh_case (c : Case String) : weigh w (" " ++ c.text) =
    weighAll w c.children + weigh w (" " ++ (c.map bare).text) := by
  have h := weigh_list w c.values
  simp [Case.text, Case.map, Case.children]
  omega

private theorem weigh_cases (cs : List (Case String)) :
    weigh w (String.join (cs.map (" " ++ ·.text))) = weighAll w (cs.flatMap (·.children)) +
      weigh w (String.join ((cs.map (·.map bare)).map (" " ++ ·.text))) :=
  weigh_join w _ _ _ (weigh_case w) cs

private theorem weigh_element (e : ElementInit String) :
    weigh w e.text = weighAll w e.arguments + weigh w (e.map bare).text := by
  have h := weigh_list w e.arguments
  simp [ElementInit.text, ElementInit.map]
  omega

private theorem weigh_elements (es : List (ElementInit String)) :
    weigh w (commaSeparated (es.map (·.text))) = weighAll w (es.flatMap (·.arguments)) +
      weigh w (commaSeparated ((es.map (·.map bare)).map (·.text))) :=
  weigh_commaSeparated w _ _ _ (weigh_element w) es

private theorem weigh_binding (b : Binding String) :
    weigh w b.text = weighAll w [b.value] + weigh w (b.map bare).text := by
  simp [Binding.text, Binding.map]
  omega

private theorem weigh_bindings (bs : List (Binding String)) :
    weigh w (commaSeparated (bs.map (·.text))) = weighAll w (bs.map (·.value)) +
      weigh w (commaSeparated ((bs.map (·.map bare)).map (·.text))) := by
  have h := weigh_commaSeparated w _ _ _ (weigh_binding w) bs
  rwa [← List.map_eq_flatMap] at h

/-- What the text of a node has around the texts of its children. -/
def Node.frame {ε : Type} (n : Node ε) : String := (n.map bare).text

/-- The text of a node weighs what the texts of its children weigh, and what stands around them. -/
theorem weigh_text (n : Node String) :
    weigh w n.text = weighAll w n.children + weigh w n.frame := by
  unfold Node.frame
  cases n <;> simp only [Node.text, Node.map, Node.children]
  case constant | parameter | default | runtimeVariables => simp
  case unary op x => by_cases h : op.isSign <;> simp [UnaryOp.applied, h] <;> omega
  case binary op l r => cases op <;> simp <;> omega
  case typeTest test x t => cases test <;> simp <;> omega
  case goto jump target value | label target value =>
    cases value with
    | none => simp [present]
    | some value =>
      simp [present]
      omega
  case member object field =>
    cases object with
    | none => simp [receiver]
    | some object =>
      simp [receiver]
      omega
  case conditional | loop | lambda =>
    simp [braced]
    omega
  case block names es =>
    have hstatements := weigh_statements w es
    simp only [weigh_append]
    omega
  case tryCatch body handlers finallyBody faultBody =>
    have hhandlers := weigh_handlers w handlers
    cases finallyBody <;> cases faultBody <;> simp [present, braced, -List.map_map] <;> omega
  case switch value cases fallback =>
    have hcases := weigh_cases w cases
    cases fallback <;> simp [present, -List.map_map] <;> omega
  case new c => exact weigh_construct w c
  case newArray form t es =>
    have hlist := weigh_list w es
    cases form <;> simp [braced] <;> omega
  case listInit c elements =>
    have hconstruct := weigh_construct w c
    have helements := weigh_elements w elements
    simp only [braced, weigh_append, weighAll_append]
    omega
  case memberInit c bindings =>
    have hconstruct := weigh_construct w c
    have hbindings := weigh_bindings w bindings
    simp only [braced, weigh_append, weighAll_append]
    omega
  case methodCall object method arguments =>
    have hlist := weigh_list w arguments
    cases object <;> simp [receiver] <;> omega
  case invocation | index | dynamic | extension =>
    rename_i arguments
    have hlist := weigh_list w arguments
    simp
    omega

@[simp] theorem Node.frame_map {α β : Type} (f : α → β) (n : Node α) :
    (n.map f).frame = n.frame := by
  rw [frame, Node.map_map]
  rfl

@[simp] theorem Node.frame_mapReached {ε : Type} (f : ε → ε) (n : Node ε) :
    (n.mapReached f).frame = n.frame := by
  have hbare : (n.mapReached f).map bare = n.map bare := Node.map_mapReached fun _ _ => rfl
  rw [frame, hbare, frame]

theorem Expr.weigh_text_node (n : Node Expr) :
    weigh w (node n).text = weighAll w (n.children.map text) + weigh w n.frame := by
  rw [text_node, weigh_text, Node.children_map, Node.frame_map]

end ExprTree
