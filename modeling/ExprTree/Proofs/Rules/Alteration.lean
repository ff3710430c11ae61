import ExprTree.Proofs.Fixpoint
import ExprTree.Proofs.Rules.Pipeline
import ExprTree.Proofs.Text.Weight

/-!
# Alterations show

Texts do not determine trees, so a tree could be rewritten without its text noticing. It does not
happen: every rewriting takes an opening parenthesis or a negation sign away and brings no new ones,
wherever in the tree and with whatever names. Such changes add up over a tree, and so do changes
that keep the number of these characters and make the text longer.
-/

namespace ExprTree

namespace Expr

def opener (c : Char) : Nat := if c = '(' ∨ c = '!' then 1 else 0

/-- How many opening parentheses and negation signs the text has. -/
def openers (e : Expr) : Nat := weigh opener e.text

/-- The text has got fewer openers, or as many of them and more characters. -/
def Alters (e r : Expr) : Prop :=
  r.openers < e.openers ∨ r.openers = e.openers ∧ e.text.length < r.text.length

namespace Alters

variable {a b c e r : Expr}

theorem trans (hab : Alters a b) (hbc : Alters b c) : Alters a c := by
  unfold Alters at *
  omega

/-- An alteration shows in the text. -/
theorem text_ne (h : Alters e r) : r.text ≠ e.text := by
  intro htext
  unfold Alters openers at h
  rw [htext] at h
  omega

end Alters

theorem eq_or_alters_trans {a b c : Expr} (hab : b = a ∨ Alters a b) (hbc : c = b ∨ Alters b c) :
    c = a ∨ Alters a c := by
  rcases hab with rfl | hab
  · exact hbc
  · rcases hbc with rfl | hbc
    · exact .inr hab
    · exact .inr (hab.trans hbc)

theorem eq_of_text_eq_of_alters {e r : Expr} (h : r = e ∨ Alters e r) (htext : r.text = e.text) :
    r = e := by
  rcases h with heq | halters
  · exact heq
  · exact (halters.text_ne htext).elim

theorem openers_bool (b : Bool) : (bool b).openers = 0 := by cases b <;> rfl

theorem openers_not (e : Expr) : (not e).openers = e.openers + 1 := by
  rw [openers, text_node]
  change weigh _ ("!" ++ e.text) = _
  rw [weigh_append]
  exact Nat.add_comm 1 _

theorem lt_openers_binary {op : BinaryOp} (h : op ≠ .arrayIndex) (l r : Expr) :
    l.openers + r.openers < (binary op l r).openers := by
  have htext : (binary op l r).text =
      "(" ++ l.text ++ " " ++ op.symbol ++ " " ++ r.text ++ ")" := by
    rw [text_node]
    cases op <;> first | rfl | contradiction
  simp only [openers, htext, weigh_append]
  have hopen : weigh opener "(" = 1 := rfl
  omega

theorem lt_openers_conditional (t a b : Expr) :
    t.openers + a.openers + b.openers < (conditional t a b).openers := by
  have htext : (conditional t a b).text =
      "(" ++ t.text ++ " ? " ++ a.text ++ " : " ++ b.text ++ ")" := text_node _
  simp only [openers, htext, weigh_append]
  have hopen : weigh opener "(" = 1 := rfl
  omega

theorem lt_openers_logical (op : Connective) (l r : Expr) :
    l.openers + r.openers < (logical op l r).openers :=
  lt_openers_binary (by simp) l r

theorem Joins.lt_openers {op : Connective} {x y e : Expr} (h : Joins op x y e) :
    x.openers + y.openers < e.openers := by
  cases h with
  | inOrder => exact lt_openers_logical op x y
  | swapped =>
    have := lt_openers_logical op y x
    omega

end Expr

open ExprTree.Expr

theorem RuleGroup.Rewrites.openers_lt {same : Expr → Expr → Prop} {g : RuleGroup} {e r : Expr}
    (h : g.Rewrites same e r) : r.openers < e.openers := by
  cases h with
  | doubleNegation =>
    rw [openers_not, openers_not]
    omega
  | constantTest b x y =>
    have := lt_openers_conditional (.bool b) x y
    cases b <;> simp <;> omega
  | constantNegation b =>
    rw [openers_not, openers_bool, openers_bool]
    omega
  | @constantOperands op v w b hb =>
    have hop : op ≠ .arrayIndex := by
      rintro rfl
      cases hb
    have := lt_openers_binary hop (.constant v) (.constant w)
    rw [openers_bool]
    omega
  | selfComparison op name =>
    have hop : BinaryOp.equality op ≠ .arrayIndex := by simp
    have := lt_openers_binary hop (.parameter name) (.parameter name)
    rw [openers_bool]
    omega
  | zeroArm hj | unitArm hj =>
    have := hj.lt_openers
    omega
  | @opposedArms op x y _ =>
    have := lt_openers_logical op x y
    rw [openers_bool]
    omega
  | @repeatedArm op _ y _ =>
    have := lt_openers_logical op r y
    omega
  | absorbedArm hj =>
    have := hj.lt_openers
    omega
  | @resolvedArms l d _ _ _ _ hl =>
    have hand : l.openers + d.openers < (Expr.and l d).openers := lt_openers_logical .and l d
    have := hl.lt_openers
    omega

namespace Expr

private theorem eq_or_weighAll {f : Expr → Expr} {es : List Expr}
    (h : ∀ e ∈ es, f e = e ∨ Alters e (f e)) :
    (∀ e ∈ es, f e = e) ∨
      weighAll opener (es.map fun e => (f e).text) < weighAll opener (es.map text) ∨
      weighAll opener (es.map fun e => (f e).text) = weighAll opener (es.map text) ∧
        weighAll (fun _ => 1) (es.map text) <
          weighAll (fun _ => 1) (es.map fun e => (f e).text) := by
  induction es with
  | nil => exact .inl fun e he => nomatch he
  | cons e es ih =>
    rw [List.forall_mem_cons] at h
    simp only [List.map_cons, weighAll_cons, List.forall_mem_cons, weigh_one]
    rcases h.1 with heq | hlt
    · rw [heq]
      rcases ih h.2 with hall | hless
      · exact .inl ⟨rfl, hall⟩
      · right
        omega
    · right
      unfold Alters openers at hlt
      rcases ih h.2 with hall | hless
      · have hmap : es.map (fun d => (f d).text) = es.map text :=
          List.map_congr_left fun d hd => congrArg text (hall d hd)
        rw [hmap]
        omega
      · omega

theorem mapReached_eq_or_alters {f : Expr → Expr} {n : Node Expr}
    (h : ∀ c ∈ n.reached, f c = c ∨ Alters c (f c)) :
    n.mapReached f = n ∨ Alters (node n) (node (n.mapReached f)) := by
  unfold Alters openers
  simp only [← weigh_one, weigh_text_node, Node.frame_mapReached, Node.children_eq_append,
    Node.reached_mapReached, Node.kept_mapReached, List.map_append, weighAll_append, List.map_map]
  rcases eq_or_weighAll h with hall | hless
  · exact .inl (Node.mapReached_eq_self hall)
  · right
    simp only [Function.comp_def]
    omega

/-- What alters every node or leaves it alone, once its children are done, does so to every tree. -/
theorem eq_or_alters_of_node {f step : Expr → Expr}
    (hf : ∀ n, f (node n) = step (node (n.mapReached f)))
    (hstep : ∀ e, step e = e ∨ Alters e (step e)) (e : Expr) : f e = e ∨ Alters e (f e) := by
  induction e using Expr.induct with
  | node n ih =>
    have hrebuilt := mapReached_eq_or_alters fun c hc => ih c (Node.mem_children_of_mem_reached hc)
    rw [hf]
    exact eq_or_alters_trans (hrebuilt.imp (congrArg node) id) (hstep _)

end Expr

namespace Simplifier

open Fixpoint

theorem transform_ofRules_alters (rs : List RuleSet) (answer : Expr → Expr) (e : Expr) :
    ((ofRules rs).transform e).value answer = e ∨
      Alters e (((ofRules rs).transform e).value answer) := by
  rw [value_transform_ofRules]
  generalize rs.flatMap RuleSet.groups = gs
  induction gs generalizing e with
  | nil => exact .inl rfl
  | cons g gs ih =>
    rw [List.foldl_cons]
    cases hv : (g.rule e).value answer with
    | none => exact ih e
    | some r =>
      have halters : Alters e r := .inl (RuleGroup.rewrites_of_value hv).openers_lt
      exact eq_or_alters_trans (.inr halters) (ih r)

/-- A pass that leaves the text of a tree leaves the tree. -/
theorem result_eq_of_text_eq (rs : List RuleSet) {e : Expr}
    (h : ((ofRules rs).result e).text = e.text) : (ofRules rs).result e = e := by
  apply eq_of_text_eq_of_alters _ h
  exact eq_or_alters_of_node (collapsing_ofRules rs).result_node
    (transform_ofRules_alters rs (ofRules rs).result) e

/-- Two passes are enough for a search with boolean rules to settle, on what the first of them left.
One pass is enough exactly for a tree that it does not change. -/
theorem simplifyToFixpoint_ofRules (rs : List RuleSet) (e : Expr) :
    ∃ d, ((ofRules rs).simplify e).outcome = .ok d ∧
      (∀ n, ((ofRules rs).simplifyToFixpoint e (n + 2)).outcome = .ok (.ok d)) ∧
      ((ofRules rs).simplifyToFixpoint e 1).outcome =
        .ok (if d = e then .ok d else .error (.unsettled 1 d)) := by
  have h := collapsing_ofRules rs
  have hiterates := Iterates.of_forall h.outcome_simplify e
  refine ⟨(ofRules rs).result e, h.outcome_simplify e, ?_, ?_⟩
  · intro n
    apply outcome_search_of_fixed (k := 1) (by omega) (hiterates 2)
    · intro i hi hsettled
      obtain rfl : i = 0 := by omega
      exact result_eq_of_text_eq rs hsettled
    · exact h.stable_result e
  · by_cases heq : (ofRules rs).result e = e
    · rw [if_pos heq, heq]
      exact outcome_search_of_fixed (k := 0) Nat.one_pos (hiterates 1) (fun i hi => nomatch hi) heq
    · have hchanges : ∀ i < 1, ¬ SettledAfter (ofRules rs).result e i := by
        intro i hi hsettled
        obtain rfl : i = 0 := by omega
        exact heq (result_eq_of_text_eq rs hsettled)
      rw [if_neg heq]
      exact (search_of_forall_not_settled Nat.one_ne_zero (hiterates 1) hchanges).1

end Simplifier

end ExprTree
