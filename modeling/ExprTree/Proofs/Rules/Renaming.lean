import ExprTree.Proofs.Leaves
import ExprTree.Proofs.Rules.Sound
import ExprTree.Proofs.Rules.Split
import ExprTree.Proofs.Text.Reading
import Mathlib.Logic.Equiv.Basic

/-!
# Renaming variables

A pass of boolean rules commutes with renaming the variables of a plain expression. The rules
compare texts, and renaming changes them; but two texts are read as the same tree before a renaming
exactly when they are afterwards.
-/

namespace ExprTree

open ExprTree.Expr

namespace Expr

/-- Renames the variables, where they are used and where they are declared. -/
def rename (σ : Equiv.Perm String) : Expr → Expr := relabel ⟨fun v => v, σ⟩

variable (σ : Equiv.Perm String)

theorem rename_node (n : Node Expr) :
    (node n).rename σ = node ((n.map (rename σ)).relabel ⟨fun v => v, σ⟩) := relabel_node _ n

@[simp] theorem rename_constant (v : Literal) : (constant v).rename σ = constant v := by
  rw [rename_node]
  rfl

@[simp] theorem rename_parameter (x : String) : (parameter x).rename σ = parameter (σ x) := by
  rw [rename_node]
  rfl

@[simp] theorem rename_unary (op : UnaryOp) (e : Expr) :
    (unary op e).rename σ = unary op (e.rename σ) := by
  rw [rename_node]
  rfl

@[simp] theorem rename_binary (op : BinaryOp) (l r : Expr) :
    (binary op l r).rename σ = binary op (l.rename σ) (r.rename σ) := by
  rw [rename_node]
  rfl

@[simp] theorem rename_conditional (t a b : Expr) :
    (conditional t a b).rename σ = conditional (t.rename σ) (a.rename σ) (b.rename σ) := by
  rw [rename_node]
  rfl

@[simp] theorem rename_lambda (name : Option String) (tailCall : Bool) (parameters : List String)
    (body : Expr) : (lambda name tailCall parameters body).rename σ =
      lambda name tailCall (parameters.map σ) (body.rename σ) := by
  rw [rename_node]
  rfl

@[simp] theorem rename_symm_rename (e : Expr) : (e.rename σ).rename σ.symm = e := by
  have hid : LeafMap.comp ⟨fun v => v, σ.symm⟩ ⟨fun v => v, σ⟩ = .id := by
    simp [LeafMap.comp, LeafMap.id]
  rw [rename, rename, relabel_relabel, hid, relabel_id]

theorem rename_inj {a b : Expr} : a.rename σ = b.rename σ ↔ a = b := by
  constructor
  · intro h
    rw [← rename_symm_rename σ a, h, rename_symm_rename]
  · rintro rfl
    rfl

theorem literal?_rename (e : Expr) : (e.rename σ).literal? = e.literal? := by
  obtain ⟨n⟩ := e
  rw [rename_node]
  cases n <;> rfl

theorem isBool_rename (e : Expr) (b : Bool) : (e.rename σ).isBool b = e.isBool b := by
  rw [isBool, isBool, bool?, bool?, literal?_rename]

theorem not?_rename (e : Expr) : (e.rename σ).not? = e.not?.map (rename σ) := by
  obtain ⟨n⟩ := e
  rw [rename_node]
  cases n with
  | unary op x => cases op <;> rfl
  | _ => rfl

theorem binary?_rename (op : BinaryOp) (e : Expr) :
    (e.rename σ).binary? op = (e.binary? op).map (Prod.map (rename σ) (rename σ)) := by
  obtain ⟨n⟩ := e
  rw [rename_node]
  cases n with
  | binary o l r =>
    change (if o = op then _ else _) = Option.map _ (if o = op then _ else _)
    split <;> rfl
  | _ => rfl

variable {σ}

def KeepsIdentifiers (σ : Equiv.Perm String) : Prop :=
  ∀ x, isIdentifier x = true → isIdentifier (σ x) = true

theorem keepsIdentifiers_swap {x y : String} (hx : isIdentifier x = true)
    (hy : isIdentifier y = true) : KeepsIdentifiers (Equiv.swap x y) := by
  intro z hz
  rw [Equiv.swap_apply_def]
  split
  · exact hy
  · split
    · exact hx
    · exact hz

theorem Plain.rename (hσ : KeepsIdentifiers σ) {e : Expr}
    (h : e.Plain) : (e.rename σ).Plain := by
  induction h with
  | constant hv =>
    rw [rename_constant]
    exact .constant hv
  | parameter hname =>
    rw [rename_parameter]
    exact .parameter (hσ _ hname)
  | unary hop _ ih =>
    rw [rename_unary]
    exact .unary hop ih
  | binary hop _ _ ihl ihr =>
    rw [rename_binary]
    exact .binary hop ihl ihr
  | conditional _ _ _ iht iha ihb =>
    rw [rename_conditional]
    exact .conditional iht iha ihb
  | lambda hname hparameters _ ih =>
    rw [rename_lambda]
    refine .lambda hname ?_ ih
    rw [List.forall_mem_map]
    exact fun x hx => hσ x (hparameters x hx)

private theorem asRead_constant_rename (v : Literal) :
    (constant v).asRead.rename σ = (constant v).asRead := by
  cases v with
  | int n =>
    rw [asRead_int]
    split <;> simp
  | _ => exact rename_constant σ _

theorem Plain.asRead_rename (σ : Equiv.Perm String) {e : Expr} (h : e.Plain) :
    (e.rename σ).asRead = e.asRead.rename σ := by
  induction h with
  | @constant v _ => rw [rename_constant, asRead_constant_rename]
  | @parameter x _ =>
    rw [rename_parameter]
    exact (rename_parameter σ x).symm
  | unary hop _ ih => rw [rename_unary, asRead_sign hop, asRead_sign hop, rename_unary, ih]
  | binary hop _ _ ihl ihr =>
    rw [rename_binary, asRead_binary hop, asRead_binary hop, rename_binary, ihl, ihr]
  | conditional _ _ _ iht iha ihb =>
    rw [rename_conditional, asRead_conditional, asRead_conditional, rename_conditional, iht, iha,
      ihb]
  | lambda _ _ _ ih =>
    rw [rename_lambda, asRead_lambda, asRead_lambda, ih]
    split <;> rw [rename_lambda]

theorem Plain.text_rename_iff (hσ : KeepsIdentifiers σ)
    {a b : Expr} (ha : a.Plain) (hb : b.Plain) :
    (a.rename σ).text = (b.rename σ).text ↔ a.text = b.text := by
  rw [(ha.rename hσ).legible.text_eq_iff (hb.rename hσ).legible, ha.asRead_rename,
    hb.asRead_rename, rename_inj, ha.legible.text_eq_iff hb.legible]

end Expr

variable {σ : Equiv.Perm String}

private theorem map_rename_of_some {rule : Expr → Option Expr}
    (h : ∀ (σ : Equiv.Perm String) e r, rule e = some r → rule (e.rename σ) = some (r.rename σ))
    (σ : Equiv.Perm String) (e : Expr) : rule (e.rename σ) = (rule e).map (rename σ) := by
  cases hr : rule e with
  | some r => exact h σ e r hr
  | none =>
    cases hr' : rule (e.rename σ) with
    | none => rfl
    | some r' =>
      -- renamed back, the rule would apply to the node itself
      have hback := h σ.symm _ _ hr'
      rw [rename_symm_rename, hr] at hback
      cases hback

private theorem doubleNegation?_rename (σ : Equiv.Perm String) (e : Expr) :
    doubleNegation? (e.rename σ) = (doubleNegation? e).map (rename σ) := by
  refine map_rename_of_some ?_ σ e
  intro σ e r h
  have hr : RuleGroup.doubleNegation.Rewrites (Query.Same id) e r := RuleGroup.rewrites_of_value h
  cases hr
  simp only [rename_unary]
  rfl

private theorem constantFolding?_rename (σ : Equiv.Perm String) (e : Expr) :
    constantFolding? (e.rename σ) = (constantFolding? e).map (rename σ) := by
  refine map_rename_of_some ?_ σ e
  intro σ e r h
  have hr : RuleGroup.constantFolding.Rewrites (Query.Same id) e r := RuleGroup.rewrites_of_value h
  cases hr with
  | constantTest b x y =>
    simp only [rename_conditional, rename_constant]
    cases b <;> rfl
  | constantNegation b =>
    simp only [rename_unary, rename_constant]
    rfl
  | constantOperands hb =>
    simp only [rename_binary, rename_constant]
    exact h

private theorem selfComparison?_rename (σ : Equiv.Perm String) (e : Expr) :
    selfComparison? (e.rename σ) = (selfComparison? e).map (rename σ) := by
  refine map_rename_of_some ?_ σ e
  intro σ e r h
  have hr : RuleGroup.selfComparison.Rewrites (Query.Same id) e r := RuleGroup.rewrites_of_value h
  cases hr with
  | selfComparison op x =>
    simp only [rename_binary, rename_parameter, rename_constant]
    exact if_pos rfl

private theorem shortCircuit?_rename (σ : Equiv.Perm String) (op : Connective) (l r : Expr) :
    shortCircuit? (logical op (l.rename σ) (r.rename σ)) =
      (shortCircuit? (logical op l r)).map (rename σ) := by
  simp only [shortCircuit?, isBool_rename]
  split
  · simp
  · split
    · rfl
    · split <;> rfl

namespace Query

variable {answer : Expr → Expr}

/-- Two expressions are found equivalent exactly when the renamed ones are. -/
def Blind (σ : Equiv.Perm String) (answer : Expr → Expr) (a b : Expr) : Prop :=
  (equivalent (a.rename σ) (b.rename σ)).value answer = (equivalent a b).value answer

variable {e : Expr} (h : ∀ a b, Below e a → Below e b → Blind σ answer a b)
include h

theorem value_negates_rename {a b : Expr} (ha : Below e a) (hb : Below e b) :
    (negates (a.rename σ) (b.rename σ)).value answer = (negates a b).value answer := by
  unfold negates
  rw [not?_rename]
  cases hx : a.not? with
  | none => rfl
  | some x =>
    rw [not?_eq_some] at hx
    subst hx
    exact h b x hb (ha.trans (below_unary _ _))

theorem value_complementary_rename {a b : Expr} (ha : Below e a) (hb : Below e b) :
    (complementary (a.rename σ) (b.rename σ)).value answer = (complementary a b).value answer := by
  rw [complementary, value_or, value_negates_rename h ha hb, value_negates_rename h hb ha,
    ← value_or, ← complementary]

theorem value_absorbs_rename (op : Connective) {arm other : Expr} (ha : Below e arm)
    (ho : Below e other) : (absorbs op (arm.rename σ) (other.rename σ)).value answer =
      (absorbs op arm other).value answer := by
  unfold absorbs
  rw [binary?_rename]
  cases hxy : other.binary? (.logical op) with
  | none => rfl
  | some xy =>
    obtain ⟨x, y⟩ := xy
    rw [binary?_eq_some] at hxy
    subst hxy
    change (equivalent _ (x.rename σ) <||> equivalent _ (y.rename σ)).value answer = _
    rw [value_or, h arm x ha (ho.trans (below_left _ _ _)),
      h arm y ha (ho.trans (below_right _ _ _)), ← value_or]

theorem value_resolvent_rename {l r : Expr} (hl : Below e l) (hr : Below e r) :
    (resolvent (l.rename σ) (r.rename σ)).value answer =
      ((resolvent l r).value answer).map (rename σ) := by
  unfold resolvent
  rw [binary?_rename, binary?_rename]
  cases hl' : l.binary? (.logical .or) with
  | none => rfl
  | some ls =>
    cases hr' : r.binary? (.logical .or) with
    | none => rfl
    | some rs =>
      obtain ⟨l₀, l₁⟩ := ls
      obtain ⟨r₀, r₁⟩ := rs
      rw [binary?_eq_some] at hl' hr'
      subst hl' hr'
      have hl₀ := hl.trans (below_left _ _ _)
      have hl₁ := hl.trans (below_right _ _ _)
      have hr₀ := hr.trans (below_left _ _ _)
      have hr₁ := hr.trans (below_right _ _ _)
      have htest {a b c d : Expr} (ha : Below e a) (hb : Below e b) (hc : Below e c)
          (hd : Below e d) :
          (equivalent (a.rename σ) (c.rename σ) <&&>
            complementary (b.rename σ) (d.rename σ)).value answer =
          (equivalent a c <&&> complementary b d).value answer := by
        rw [value_and, value_and, h a c ha hc, value_complementary_rename h hb hd]
      simp only [Option.map_some, Prod.map, bind_eq, value_bind, value_findM, pure_eq_done,
        value_done, List.find?_cons, List.find?_nil, htest hl₀ hl₁ hr₀ hr₁,
        htest hl₀ hl₁ hr₁ hr₀, htest hl₁ hl₀ hr₀ hr₁, htest hl₁ hl₀ hr₁ hr₀]
      cases (equivalent l₀ r₀ <&&> complementary l₁ r₁).value answer <;>
        cases (equivalent l₀ r₁ <&&> complementary l₁ r₀).value answer <;>
        cases (equivalent l₁ r₀ <&&> complementary l₀ r₁).value answer <;>
        cases (equivalent l₁ r₁ <&&> complementary l₀ r₀).value answer <;> rfl

theorem value_eliminateArm_rename (op : Connective) {l r : Expr} (hl : Below e l)
    (hr : Below e r) :
    (eliminateArm (.logical op (l.rename σ) (r.rename σ))).value answer =
      ((eliminateArm (.logical op l r)).value answer).map (rename σ) := by
  rw [value_eliminateArm, value_eliminateArm, h l r hl hr,
    value_absorbs_rename h _ hl hr, value_absorbs_rename h _ hr hl, value_resolvent_rename h hl hr]
  split
  · rfl
  · split
    · rfl
    · split
      · rfl
      · split <;> rfl

end Query

private theorem value_rename_of_logical {rule : Expr → Query (Option Expr)}
    (hother : ∀ d : Expr, (∀ op l r, d ≠ logical op l r) → rule d = .done none)
    {answer : Expr → Expr} {e : Expr}
    (h : ∀ op l r, e = logical op l r → (rule (logical op (l.rename σ) (r.rename σ))).value answer =
      ((rule (logical op l r)).value answer).map (rename σ)) :
    (rule (e.rename σ)).value answer = ((rule e).value answer).map (rename σ) := by
  by_cases he : ∃ op l r, e = logical op l r
  · obtain ⟨op, l, r, rfl⟩ := he
    rw [rename_binary]
    exact h op l r rfl
  · have hne : ∀ op l r, e ≠ logical op l r := fun op l r heq => he ⟨op, l, r, heq⟩
    have hrenamed : ∀ op l r, e.rename σ ≠ logical op l r := by
      intro op l r heq
      apply hne op (l.rename σ.symm) (r.rename σ.symm)
      rw [← rename_symm_rename σ e, heq, rename_binary]
    rw [hother _ hrenamed, hother _ hne]
    rfl

open Query (Blind)

/-- A group does to a renamed node what it does to the node, if it finds the same arms
equivalent. -/
theorem RuleGroup.value_rule_rename {answer : Expr → Expr} {e : Expr}
    (h : ∀ a b, Below e a → Below e b → Blind σ answer a b) (g : RuleGroup) :
    (g.rule (e.rename σ)).value answer = ((g.rule e).value answer).map (rename σ) := by
  cases g with
  | doubleNegation => exact doubleNegation?_rename σ e
  | constantFolding => exact constantFolding?_rename σ e
  | selfComparison => exact selfComparison?_rename σ e
  | shortCircuit =>
    apply value_rename_of_logical
    · intro d hd
      change Query.done (shortCircuit? d) = _
      unfold shortCircuit?
      split
      · exact absurd rfl (hd _ _ _)
      · rfl
    · intro op l r _
      exact shortCircuit?_rename σ op l r
  | complement =>
    apply value_rename_of_logical
    · intro d hd
      change collapseComplement d = _
      unfold collapseComplement
      split
      · exact absurd rfl (hd _ _ _)
      · rfl
    · rintro op l r rfl
      change (collapseComplement (logical op (l.rename σ) (r.rename σ))).value answer =
        Option.map _ ((collapseComplement (logical op l r)).value answer)
      rw [Query.value_collapseComplement, Query.value_collapseComplement,
        Query.value_complementary_rename h (below_right _ _ _) (below_left _ _ _)]
      split
      · exact congrArg some (rename_constant σ _).symm
      · rfl
  | armElimination =>
    apply value_rename_of_logical
    · intro d hd
      change eliminateArm d = _
      unfold eliminateArm
      split
      · exact absurd rfl (hd _ _ _)
      · rfl
    · rintro op l r rfl
      exact Query.value_eliminateArm_rename h op (below_left _ _ _) (below_right _ _ _)

namespace Simplifier

variable {rs : List RuleSet}

private theorem foldl_groups_rename (hσ : KeepsIdentifiers σ)
    (gs : List RuleGroup) {e : Expr} (he : e.Plain) {answer : Expr → Expr}
    (h : ∀ d, d.size < e.size → d.Plain →
      (answer d).Plain ∧ answer (d.rename σ) = (answer d).rename σ) :
    gs.foldl (fun d g => ((g.rule d).value answer).getD d) (e.rename σ) =
      (gs.foldl (fun d g => ((g.rule d).value answer).getD d) e).rename σ := by
  induction gs generalizing e with
  | nil => rfl
  | cons g gs ih =>
    have hblind : ∀ a b, Below e a → Below e b → Blind σ answer a b := by
      intro a b ha hb
      obtain ⟨hpa, hra⟩ := h a ha.size_lt (he.reaches ha.reaches)
      obtain ⟨hpb, hrb⟩ := h b hb.size_lt (he.reaches hb.reaches)
      rw [Blind, Query.value_equivalent, Query.value_equivalent, hra, hrb]
      exact decide_eq_decide.mpr (hpa.text_rename_iff hσ hpb)
    rw [List.foldl_cons, List.foldl_cons, g.value_rule_rename hblind]
    cases hv : (g.rule e).value answer with
    | none => exact ih he h
    | some r =>
      have hr := g.collapsing.leaves answer e r hv
      apply ih (he.collapses hr)
      intro d hd
      exact h d (Nat.lt_trans hd hr.size_lt)

theorem result_rename (rs : List RuleSet)
    (hσ : KeepsIdentifiers σ) {e : Expr} (he : e.Plain) :
    (ofRules rs).result (e.rename σ) = ((ofRules rs).result e).rename σ := by
  have hc := collapsing_ofRules rs
  induction hk : e.size using Nat.strongRecOn generalizing e with
  | ind k ih =>
    obtain ⟨n⟩ := e
    have hsmaller (d : Expr) (hd : d.size < (node n).size) (hp : d.Plain) :
        (ofRules rs).result (d.rename σ) = ((ofRules rs).result d).rename σ :=
      ih _ (by omega) hp rfl
    have hrebuilt : (node (n.mapReached (ofRules rs).result)).Plain :=
      he.mapReached fun c _ hp => plain_result rs hp
    have hsize : (node (n.mapReached (ofRules rs).result)).size ≤ (node n).size :=
      size_mapReached_le fun c _ => hc.size_result_le c
    have hchildren : (n.map (rename σ)).mapReached (ofRules rs).result =
        (n.mapReached (ofRules rs).result).map (rename σ) := by
      apply Node.mapReached_map_comm
      intro c hc
      exact hsmaller c (size_lt_of_mem_reached hc) (he.reaches (below_of_mem hc).reaches)
    rw [rename_node, hc.result_node, hc.result_node, ← Node.relabel_mapReached, hchildren,
      ← rename_node, value_transform_ofRules, value_transform_ofRules]
    apply foldl_groups_rename hσ _ hrebuilt
    intro d hd hp
    exact ⟨plain_result rs hp, hsmaller d (by omega) hp⟩

/-- Boolean rules do not look at how variables are spelled: exchanging two of them before a pass is
exchanging them in its result. -/
theorem simplify_rename_swap (rs : List RuleSet) {x y : String} (hx : isIdentifier x = true)
    (hy : isIdentifier y = true) {e : Expr} (he : e.Plain) :
    ∃ r, ((ofRules rs).simplify e).outcome = .ok r ∧
      ((ofRules rs).simplify (e.rename (Equiv.swap x y))).outcome =
        .ok (r.rename (Equiv.swap x y)) := by
  have hc := collapsing_ofRules rs
  refine ⟨_, hc.outcome_simplify e, ?_⟩
  rw [hc.outcome_simplify, result_rename rs (keepsIdentifiers_swap hx hy) he]

/-- The resolvent of `(a || b) && (!a || b)` below the parameter `a`. -/
theorem simplify_rename_swap_resolvent :
    let e : Expr := .lambda none false ["a"]
      (.and (.or (.parameter "a") (.parameter "b"))
        (.or (.not (.parameter "a")) (.parameter "b")))
    isIdentifier "a" = true ∧ isIdentifier "b" = true ∧ e.Plain ∧
      ∃ r, ((ofRules [.full]).simplify e).outcome = .ok r ∧
        ((ofRules [.full]).simplify (e.rename (Equiv.swap "a" "b"))).outcome =
          .ok (r.rename (Equiv.swap "a" "b")) := by
  intro e
  have ha : isIdentifier "a" = true := by decide
  have hb : isIdentifier "b" = true := by decide
  have hpa : Plain (.parameter "a") := .parameter ha
  have hpb : Plain (.parameter "b") := .parameter hb
  have he : e.Plain := by
    refine .lambda nofun (List.forall_mem_singleton.mpr ha) (.binary (by decide) ?_ ?_)
    · exact .binary (by decide) hpa hpb
    · exact .binary (by decide) (.unary rfl hpa) hpb
  exact ⟨ha, hb, he, simplify_rename_swap [.full] ha hb he⟩

end Simplifier

end ExprTree
