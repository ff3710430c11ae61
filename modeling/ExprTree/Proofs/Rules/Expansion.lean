import ExprTree.Proofs.Rules.Alteration
import ExprTree.Proofs.Rules.Arms
import ExprTree.Proofs.Throughout
import Mathlib.Algebra.BigOperators.Ring.List

/-!
# Rules followed by an expansion

When `l != r` is expanded to `!(l == r)` after the rules, they have not seen the nodes it puts in.
Still one pass leaves no `!=` that a pass enters, at most doubling the size of a tree. On such trees
the expansion finds nothing to do, neither at a node nor in what the rules ask, so the second pass
is one of the rules alone, and the third one changes nothing.
-/

namespace ExprTree

open ExprTree.Expr

namespace Expr

/-- `!=` is expanded at the outermost node. -/
def expand : Expr → Expr
  | .notEqual left right => .not (.equal left right)
  | e => e

/-- No position that a pass enters holds `!=`. -/
def Expanded : Expr → Prop := Throughout fun e => ∀ l r, e ≠ .notEqual l r

theorem superficial_ne_notEqual : Superficial fun e => ∀ l r, e ≠ .notEqual l r where
  mapReached f n := by cases n <;> simp [Node.mapReached, Node.map]
  parameter := nofun
  new := nofun
  bool := nofun

theorem Expanded.expand_eq {e : Expr} (h : Expanded e) : expand e = e := by
  unfold expand
  split
  · exact (h _ (.refl _) _ _ rfl).elim
  · rfl

theorem expanded_expand {e : Expr} (h : ∀ c ∈ e.root.reached, Expanded c) :
    Expanded (expand e) := by
  unfold expand
  split
  · refine superficial_ne_notEqual.throughout_node_iff.mpr ⟨nofun, ?_⟩
    refine List.forall_mem_singleton.mpr ?_
    exact superficial_ne_notEqual.throughout_node_iff.mpr ⟨nofun, h⟩
  · rename_i hne
    obtain ⟨n⟩ := e
    exact superficial_ne_notEqual.throughout_node_iff.mpr ⟨hne, h⟩

theorem size_expand_le (e : Expr) : (expand e).size ≤ e.size + 1 := by
  unfold expand
  split
  · simp
  · exact Nat.le_succ _

private theorem weigh_equality (w : Char → Nat) (op : Equality) (l r : Expr) :
    weigh w (binary (.equality op) l r).text =
      weigh w l.text + weigh w r.text + weigh w ("( " ++ op.symbol ++ " )") := by
  have htext : (binary (.equality op) l r).text =
      "(" ++ l.text ++ " " ++ op.symbol ++ " " ++ r.text ++ ")" := text_node _
  have hopen : weigh w "( " = weigh w "(" + weigh w " " := weigh_append w "(" " "
  have hclose : weigh w " )" = weigh w " " + weigh w ")" := weigh_append w " " ")"
  simp only [htext, weigh_append]
  omega

theorem expand_eq_or_alters (e : Expr) : expand e = e ∨ Alters e (expand e) := by
  unfold expand
  split
  · rename_i l r
    right
    have hbefore : (notEqual l r).openers = l.openers + r.openers + 2 := weigh_equality _ _ l r
    have hafter : (equal l r).openers = l.openers + r.openers + 1 := weigh_equality _ _ l r
    have hlength (op : Equality) := weigh_equality (fun _ => 1) op l r
    have hsymbol (op : Equality) : ("( " ++ op.symbol ++ " )").length = 6 := by cases op <;> rfl
    simp only [weigh_one, hsymbol] at hlength
    change Alters (notEqual l r) (not (equal l r))
    unfold Alters
    rw [openers_not, length_text_not, hlength, hlength]
    omega
  · exact .inl rfl

end Expr

namespace Simplifier

/-- The boolean rules, and after them the expansion of `!=`. -/
def expanding (rs : List RuleSet) : Simplifier where
  transformers := rs.map RuleSet.transformer ++ [.expandNotEqual]

variable (rs : List RuleSet)

theorem value_transform_expanding (answer : Expr → Expr) (e : Expr) :
    ((expanding rs).transform e).value answer =
      expand (((ofRules rs).transform e).value answer) := by
  have hexpand (d : Expr) :
      ((Transformer.expandNotEqual.rule d).value answer).getD d = expand d := by
    simp only [Transformer.expandNotEqual, Transformer.ofFun, Query.value_done]
    fun_cases expand d with
    | case1 => rfl
    | case2 =>
      split
      · simp_all
      · rfl
  rw [value_transform_eq_foldl, value_transform_eq_foldl, expanding, List.foldl_append,
    List.foldl_cons, List.foldl_nil, hexpand, ofRules]

theorem asks_transform_expanding {answer : Expr → Expr} {p : Expr → Prop} {e : Expr} :
    ((expanding rs).transform e).Asks answer p ↔ ((ofRules rs).rule e).Asks answer p := by
  have happend : ((expanding rs).transformers.map (·.step)) =
      (ofRules rs).transformers.map (·.step) ++ [Transformer.expandNotEqual.step] := List.map_append
  rw [asks_transform, Simplifier.rule, happend, Query.asks_inTurn_append, Query.asks_inTurn_cons,
    Transformer.step, Query.asks_named]
  exact ⟨fun h => h.1, fun h => ⟨h, trivial, trivial⟩⟩

private theorem value_reduce_expanding (e : Expr) :
    ((expanding rs).registry.reduce e).value = e :=
  congrArg Traced.value (Registry.reduce_empty e)

/-- On an expanded tree a pass does what the rules alone do. -/
theorem outcome_simplifyWithin_of_expanded {e : Expr} (he : Expanded e) {depth : Nat}
    (hd : e.size ≤ depth) :
    ((expanding rs).simplifyWithin depth e).outcome = .ok ((ofRules rs).result e) := by
  have h := collapsing_ofRules rs
  have hne := superficial_ne_notEqual
  induction hk : e.size using Nat.strongRecOn generalizing e depth with
  | ind k ih =>
    subst hk
    obtain ⟨n⟩ := e
    have hchildren : ∀ c ∈ n.reached, Expanded c := fun c => he.child
    cases depth with
    | zero =>
      have := (node n).size_pos
      omega
    | succ depth =>
      have hbelow (d : Expr) (hlt : d.size < (node n).size) (hexpanded : Expanded d) :
          ((expanding rs).simplifyWithin depth d).outcome = .ok ((ofRules rs).result d) :=
        ih _ hlt hexpanded (by omega) rfl
      have hvisits : (visitor ((expanding rs).simplifyWithin depth)).Follows
          (ofRules rs).result n := by
        apply follows_visitor
        · exact fun c hc => hbelow c (size_lt_of_mem_reached hc) (hchildren c hc)
        · intro name hname
          rw [hbelow _ (size_parameter_lt hname) (hne.throughout_parameter name),
            h.result_parameter]
        · intro c hc
          rw [hbelow _ (size_new_lt hc) (hne.throughout_new hchildren hc), h.result_new]
      have hrebuilt : Expanded (node (n.mapReached (ofRules rs).result)) :=
        hne.throughout_mapReached he fun _ _ hc => h.throughout_result hne hc
      have hsize : (node (n.mapReached (ofRules rs).result)).size ≤ (node n).size :=
        size_mapReached_le fun c _ => h.size_result_le c
      have hresult : Expanded ((ofRules rs).result (node n)) := h.throughout_result hne he
      rw [← hresult.expand_eq, h.result_node, ← value_transform_expanding]
      apply outcome_simplifyWithin_succ (value_reduce_expanding rs _) hvisits
      rw [asks_transform_expanding]
      apply (h.rule.asks (ofRules rs).result _).mono
      intro x hx
      have hlt := hx.size_lt
      exact hbelow x (by omega) (hrebuilt.reaches hx.reaches)

/-- What the transformers make of a node when whatever the rules ask about it is expanded. -/
private def transformed (e : Expr) : Expr :=
  expand (((ofRules rs).transform e).value (ofRules rs).result)

private theorem transformed_eq_or_alters (e : Expr) :
    transformed rs e = e ∨ Alters e (transformed rs e) := by
  have hrules := transform_ofRules_alters rs (ofRules rs).result e
  exact eq_or_alters_trans hrules (expand_eq_or_alters _)

private theorem size_transformed_le (e : Expr) : (transformed rs e).size ≤ e.size + 1 := by
  have hrules := (collapsing_ofRules rs).size_transform_le (ofRules rs).result e
  exact Nat.le_trans (size_expand_le _) (Nat.succ_le_succ hrules)

private theorem expanded_transformed {e : Expr} (he : ∀ c ∈ e.root.reached, Expanded c) :
    Expanded (transformed rs e) := by
  apply expanded_expand
  rcases (collapsing_ofRules rs).transform_cases (ofRules rs).result e with heq | hc
  · rw [heq]
    exact he
  · exact fun c => (superficial_ne_notEqual.throughout_of_collapses he hc).child

/-- At a sufficient depth a pass over the tree leaves its result, which is expanded and at most
twice as large. -/
private structure Expands (e : Expr) : Prop where
  outcome : ∀ depth, 2 * e.size ≤ depth →
    ((expanding rs).simplifyWithin depth e).outcome = .ok ((expanding rs).result e)
  result : (expanding rs).result e =
    transformed rs (.node (e.root.mapReached (expanding rs).result))
  size : ((expanding rs).result e).size ≤ 2 * e.size
  expanded : Expanded ((expanding rs).result e)

private theorem size_mapReached_double {f : Expr → Expr} {n : Node Expr}
    (h : ∀ e ∈ n.reached, (f e).size ≤ 2 * e.size) :
    (node (n.mapReached f)).size + 1 ≤ 2 * (node n).size := by
  have hreached := List.sum_le_sum h
  rw [List.sum_map_mul_left] at hreached
  have hweight := n.weight_pos
  simp only [size_node, Node.weight_mapReached, Node.children_eq_append, Node.reached_mapReached,
    Node.kept_mapReached, List.map_append, List.sum_append_nat, List.map_map]
  simp only [Function.comp_def]
  omega

private theorem follows_of_expands {n : Node Expr}
    (ih : ∀ e, e.size < (node n).size → Expands rs e) {depth : Nat}
    (hd : 2 * (node n).size ≤ depth + 1) :
    (visitor ((expanding rs).simplifyWithin depth)).Follows (expanding rs).result n := by
  have h := collapsing_ofRules rs
  apply follows_visitor
  · intro c hc
    have hlt := size_lt_of_mem_reached hc
    exact (ih c hlt).outcome depth (by omega)
  · intro name hname
    have hlt := size_parameter_lt hname
    have hexpanded := superficial_ne_notEqual.throughout_parameter name
    rw [outcome_simplifyWithin_of_expanded rs hexpanded (by omega), h.result_parameter]
  · intro c hc
    have hlt := size_new_lt hc
    have hnew : (expanding rs).result (.new c) = .new (c.map (expanding rs).result) := by
      rw [(ih _ hlt).result, transformed, h.transform_eq_self _ rfl]
      rfl
    rw [(ih _ hlt).outcome depth (by omega), hnew]

private theorem expands_node (n : Node Expr)
    (ih : ∀ e, e.size < (node n).size → Expands rs e) : Expands rs (node n) := by
  let rebuilt : Expr := node (n.mapReached (expanding rs).result)
  have hsize : rebuilt.size + 1 ≤ 2 * (node n).size :=
    size_mapReached_double fun c hc => (ih c (size_lt_of_mem_reached hc)).size
  have hchildren : ∀ c ∈ rebuilt.root.reached, Expanded c := by
    intro c hc
    rw [root_node, Node.reached_mapReached] at hc
    obtain ⟨d, hd, rfl⟩ := List.mem_map.mp hc
    exact (ih d (size_lt_of_mem_reached hd)).expanded
  have houtcome (depth : Nat) (hd : 2 * (node n).size ≤ depth) :
      ((expanding rs).simplifyWithin depth (node n)).outcome =
        .ok (transformed rs rebuilt) := by
    cases depth with
    | zero =>
      have := (node n).size_pos
      omega
    | succ depth =>
      have hvisits := follows_of_expands rs ih hd
      rw [transformed, ← value_transform_expanding]
      apply outcome_simplifyWithin_succ (value_reduce_expanding rs _) hvisits
      rw [asks_transform_expanding]
      apply ((collapsing_ofRules rs).rule.asks (ofRules rs).result rebuilt).mono
      -- the node may still hold `!=`, but what the rules ask about stands below it
      rintro x ⟨c, hc, hreaches⟩
      have hlt := Below.size_lt ⟨c, hc, hreaches⟩
      exact outcome_simplifyWithin_of_expanded rs ((hchildren c hc).reaches hreaches) (by omega)
  have hresult : (expanding rs).result (node n) = transformed rs rebuilt := by
    have hdepth : 2 * (node n).size ≤ depthFor (node n) := Nat.le_add_right _ _
    rw [result, simplify, houtcome _ hdepth]
  have hgrows := size_transformed_le rs rebuilt
  refine ⟨fun depth hd => ?_, hresult, ?_, ?_⟩
  · rw [houtcome depth hd, hresult]
  · rw [hresult]
    omega
  · rw [hresult]
    exact expanded_transformed rs hchildren

private theorem expands (e : Expr) : Expands rs e := by
  induction hk : e.size using Nat.strongRecOn generalizing e with
  | ind k ih =>
    obtain ⟨n⟩ := e
    apply expands_node
    intro d hd
    exact ih d.size (by omega) d rfl

theorem result_of_expanded {e : Expr} (he : Expanded e) :
    (expanding rs).result e = (ofRules rs).result e := by
  rw [result, simplify, outcome_simplifyWithin_of_expanded rs he (size_le_depthFor e)]

theorem outcome_simplify_expanding (e : Expr) :
    ((expanding rs).simplify e).outcome = .ok ((expanding rs).result e) :=
  (expands rs e).outcome _ (Nat.le_add_right _ _)

theorem result_expanding_eq_of_text_eq {e : Expr}
    (h : ((expanding rs).result e).text = e.text) : (expanding rs).result e = e := by
  apply eq_of_text_eq_of_alters _ h
  exact eq_or_alters_of_node (fun n => (expands rs (node n)).result) (transformed_eq_or_alters rs) e

open Fixpoint

/-- With an expansion after the rules, three passes are enough for a search to settle. Its answer is
what two passes leave, of which the second one is a pass of the rules alone; it holds no `!=` where
a pass enters, and no pass changes it. -/
theorem simplifyToFixpoint_expanding (e : Expr) :
    ∃ d r, ((expanding rs).simplify e).outcome = .ok d ∧
      ((expanding rs).simplify d).outcome = .ok r ∧
      ((ofRules rs).simplify d).outcome = .ok r ∧
      (∀ n, ((expanding rs).simplifyToFixpoint e (n + 3)).outcome = .ok (.ok r)) ∧
      (∀ a b, ¬ Reaches r (.notEqual a b)) ∧
      ((expanding rs).simplify r).outcome = .ok r := by
  have h := collapsing_ofRules rs
  let d := (expanding rs).result e
  have hd : Expanded d := (expands rs e).expanded
  have hsecond : (expanding rs).result d = (ofRules rs).result d := result_of_expanded rs hd
  have hr : Expanded ((ofRules rs).result d) := h.throughout_result superficial_ne_notEqual hd
  have hthird : (expanding rs).result ((ofRules rs).result d) = (ofRules rs).result d := by
    rw [result_of_expanded rs hr, h.stable_result d]
  refine ⟨d, (ofRules rs).result d, outcome_simplify_expanding rs e, ?_, h.outcome_simplify d, ?_,
    fun a b hreaches => hr _ hreaches a b rfl, ?_⟩
  · rw [outcome_simplify_expanding, hsecond]
  · intro n
    rw [← hsecond]
    apply outcome_search_of_fixed (k := 2) (by omega)
      (.of_forall (outcome_simplify_expanding rs) e 3)
    · intro i _ hsettled
      unfold SettledAfter at hsettled
      rw [Function.iterate_succ_apply'] at hsettled ⊢
      exact result_expanding_eq_of_text_eq rs hsettled
    · change (expanding rs).result ((expanding rs).result d) = (expanding rs).result d
      rw [hsecond, hthird]
  · rw [outcome_simplify_expanding, hthird]

/-- Two passes can be too few. -/
example : ((expanding [.full]).simplifyToFixpoint
    (.notEqual (.constant .null) (.constant .null)) 2).outcome =
      .ok (.error (.unsettled 2 (.bool false))) := rfl

end Simplifier

end ExprTree
