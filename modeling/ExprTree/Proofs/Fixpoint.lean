import ExprTree.Proofs.Depth
import ExprTree.Proofs.Pass
import ExprTree.Simplifier.Fixpoint
import ExprTree.Rules.Boolean
import ExprTree.Transformers.Lowering
import Mathlib.Data.Nat.Find
import Mathlib.Logic.Function.Iterate
import Mathlib.Order.Bounds.Defs
import Mathlib.Order.Filter.AtTopBot.Basic
import Mathlib.Order.Filter.Finite

/-!
# Passes until nothing changes

A fixpoint search walks along the iterates of one pass. It ends with the first pass that leaves the
text of its tree, and answers what that pass left, or with the last pass it may make. What it
reports are the messages of its passes and, after each of them, its number and the text it left.
This is shown for every function that makes passes, and then for the passes of a simplifier, which
may be nested as deeply as they need to.
-/

namespace ExprTree

open Filter

namespace Fixpoint

variable {pass : Expr → Run Expr} {S : Expr → Expr} {e : Expr}

/-- The first `n` passes over the tree end, and `S` is what each of them does. -/
def Iterates (pass : Expr → Run Expr) (S : Expr → Expr) (e : Expr) (n : Nat) : Prop :=
  ∀ i < n, (pass (S^[i] e)).outcome = .ok (S^[i + 1] e)

/-- Of all passes over the tree the one after the first `k` leaves the text as it was. -/
def SettledAfter (S : Expr → Expr) (e : Expr) (k : Nat) : Prop :=
  (S^[k + 1] e).text = (S^[k] e).text

/-- What the first `count` passes over the tree report, when `done` passes came before them. -/
def passLog (pass : Expr → Run Expr) (S : Expr → Expr) (done : Nat) (e : Expr) (count : Nat) :
    List Message :=
  (List.range count).flatMap fun i =>
    (pass (S^[i] e)).log ++ [.pass (done + i + 1) (S^[i + 1] e).text]

theorem passLog_succ (pass : Expr → Run Expr) (S : Expr → Expr) (done : Nat) (e : Expr)
    (count : Nat) :
    passLog pass S done e (count + 1) = (pass e).log ++
      .pass (done + 1) (S e).text :: passLog pass S (done + 1) (S e) count := by
  have hindex (i : Nat) : done + 1 + i = done + (i + 1) := by omega
  simp only [passLog, List.range_succ_eq_map, List.flatMap_cons, List.flatMap_map, hindex]
  exact List.append_assoc _ _ _

namespace Iterates

variable {m n : Nat}

theorem of_forall (h : ∀ d, (pass d).outcome = .ok (S d)) (e : Expr) (n : Nat) :
    Iterates pass S e n := by
  intro i _
  rw [Function.iterate_succ_apply']
  exact h _

theorem head (h : Iterates pass S e (n + 1)) : (pass e).outcome = .ok (S e) := h 0 n.succ_pos

theorem tail (h : Iterates pass S e (n + 1)) : Iterates pass S (S e) n :=
  fun i hi => h (i + 1) (Nat.succ_lt_succ hi)

theorem mono (h : Iterates pass S e n) (hm : m ≤ n) : Iterates pass S e m :=
  fun i hi => h i (Nat.lt_of_lt_of_le hi hm)

end Iterates

private theorem settle_of_settled (h : (pass e).outcome = .ok (S e)) (hsettled : SettledAfter S e 0)
    (done remaining : Nat) :
    (settle pass done (remaining + 1) e).outcome = .ok (.ok (S e)) ∧
      (settle pass done (remaining + 1) e).log = (pass e).log ++ [.pass (done + 1) (S e).text] := by
  have hkeeps : (S e).text = e.text := hsettled
  rw [settle, Run.outcome_bind_of_ok h, Run.log_bind_of_ok h, if_pos hkeeps]
  exact ⟨rfl, rfl⟩

private theorem settle_of_not_settled (h : (pass e).outcome = .ok (S e))
    (hchanges : ¬ SettledAfter S e 0) (done remaining : Nat) :
    (settle pass done (remaining + 1) e).outcome =
        (settle pass (done + 1) remaining (S e)).outcome ∧
      (settle pass done (remaining + 1) e).log = (pass e).log ++
        .pass (done + 1) (S e).text :: (settle pass (done + 1) remaining (S e)).log := by
  have hchanges : ¬ (S e).text = e.text := hchanges
  rw [settle, Run.outcome_bind_of_ok h, Run.log_bind_of_ok h, if_neg hchanges]
  exact ⟨rfl, rfl⟩

theorem settle_of_forall_not_settled {n : Nat} (h : Iterates pass S e n)
    (hchanges : ∀ i < n, ¬ SettledAfter S e i) (done : Nat) :
    (settle pass done n e).outcome = .ok (.error (.unsettled (done + n) (S^[n] e))) ∧
      (settle pass done n e).log = passLog pass S done e n := by
  induction n generalizing done e with
  | zero => exact ⟨rfl, rfl⟩
  | succ n ih =>
    have hrest := ih h.tail (fun i hi => hchanges (i + 1) (Nat.succ_lt_succ hi)) (done + 1)
    obtain ⟨houtcome, hlog⟩ := settle_of_not_settled h.head (hchanges 0 n.succ_pos) done n
    rw [houtcome, hlog, hrest.1, hrest.2, passLog_succ, Nat.add_right_comm]
    exact ⟨rfl, rfl⟩

theorem settle_of_first_settled {k n : Nat} (hk : k < n) (h : Iterates pass S e (k + 1))
    (hchanges : ∀ i < k, ¬ SettledAfter S e i) (hsettled : SettledAfter S e k) (done : Nat) :
    (settle pass done n e).outcome = .ok (.ok (S^[k + 1] e)) ∧
      (settle pass done n e).log = passLog pass S done e (k + 1) := by
  induction k generalizing n done e with
  | zero =>
    obtain ⟨n, rfl⟩ := Nat.exists_eq_add_of_lt hk
    obtain ⟨houtcome, hlog⟩ := settle_of_settled h.head hsettled done n
    rw [Nat.zero_add, houtcome, hlog, passLog_succ]
    exact ⟨rfl, rfl⟩
  | succ k ih =>
    obtain ⟨n, rfl⟩ := Nat.exists_eq_add_of_lt hk
    have hrest := ih (Nat.lt_of_succ_lt_succ hk) h.tail
      (fun i hi => hchanges (i + 1) (Nat.succ_lt_succ hi)) hsettled (done + 1)
    obtain ⟨houtcome, hlog⟩ :=
      settle_of_not_settled h.head (hchanges 0 k.succ_pos) done (k + 1 + n)
    rw [houtcome, hlog, hrest.1, hrest.2, passLog_succ pass S done e (k + 1)]
    exact ⟨rfl, rfl⟩

private theorem exists_first_settled {k : Nat} (h : SettledAfter S e k) :
    ∃ i ≤ k, SettledAfter S e i ∧ ∀ j < i, ¬ SettledAfter S e j := by
  classical
  have hsome : ∃ i, SettledAfter S e i := ⟨k, h⟩
  exact ⟨Nat.find hsome, Nat.find_le h, Nat.find_spec hsome, fun j => Nat.find_min hsome⟩

theorem refines_settle {pass' : Expr → Run Expr} {n : Nat} (h : Iterates pass' S e n)
    (hpass : ∀ i < n, (pass (S^[i] e)).Refines (pass' (S^[i] e))) (done : Nat) :
    (settle pass done n e).Refines (settle pass' done n e) := by
  induction n generalizing done e with
  | zero => exact .refl _
  | succ n ih =>
    refine (hpass 0 (Nat.succ_pos n)).bind_of_ok fun next hnext => ?_
    obtain rfl : S e = next := Except.ok.inj ((h 0 (Nat.succ_pos n)).symm.trans hnext)
    refine (Run.Refines.refl _).bind fun _ => ?_
    split
    · exact .refl _
    · exact ih h.tail (fun i hi => hpass (i + 1) (Nat.succ_lt_succ hi)) (done + 1)

theorem settle_eq_of_le {n m : Nat} (hm : n ≤ m) {done : Nat} {r : Expr}
    (h : (settle pass done n e).outcome = .ok (.ok r)) :
    settle pass done m e = settle pass done n e := by
  induction n generalizing m done e with
  | zero => cases h
  | succ n ih =>
    obtain ⟨m, rfl⟩ := Nat.exists_eq_add_of_lt hm
    apply Run.bind_congr_of_ok
    intro next hnext
    apply Run.bind_congr_of_ok
    intro _ _
    by_cases hkeeps : next.text = e.text
    · rw [if_pos hkeeps, if_pos hkeeps]
    · rw [if_neg hkeeps, if_neg hkeeps]
      apply ih (by omega)
      rw [settle, Run.outcome_bind_of_ok hnext, Run.outcome_bind_of_ok (Run.outcome_report _),
        if_neg hkeeps] at h
      exact h

theorem search_of_ne_zero {n : Nat} (hn : n ≠ 0) (pass : Expr → Run Expr) (e : Expr) :
    search pass e n = settle pass 0 n e := if_neg hn

theorem refines_search {pass' : Expr → Run Expr} {n : Nat} (h : Iterates pass' S e n)
    (hpass : ∀ i < n, (pass (S^[i] e)).Refines (pass' (S^[i] e))) :
    (search pass e n).Refines (search pass' e n) := by
  unfold search
  split
  · exact .refl _
  · exact refines_settle h hpass 0

theorem search_eq_of_le {n m : Nat} (hm : n ≤ m) {r : Expr}
    (h : (search pass e n).outcome = .ok (.ok r)) : search pass e m = search pass e n := by
  have hn : n ≠ 0 := by
    rintro rfl
    cases h
  rw [search_of_ne_zero hn] at h ⊢
  rw [search_of_ne_zero (by omega)]
  exact settle_eq_of_le hm h

theorem search_of_isLeast {k n : Nat} (h : Iterates pass S e n)
    (hk : IsLeast {k | k < n ∧ SettledAfter S e k} k) :
    (search pass e n).outcome = .ok (.ok (S^[k + 1] e)) ∧
      (search pass e n).log = passLog pass S 0 e (k + 1) := by
  obtain ⟨⟨hlt, hsettled⟩, hleast⟩ := hk
  rw [search_of_ne_zero (by omega)]
  refine settle_of_first_settled hlt (h.mono hlt) (fun i hi hsettled' => ?_) hsettled 0
  have hle : k ≤ i := hleast ⟨by omega, hsettled'⟩
  omega

theorem search_of_forall_not_settled {n : Nat} (hn : n ≠ 0) (h : Iterates pass S e n)
    (hchanges : ∀ k < n, ¬ SettledAfter S e k) :
    (search pass e n).outcome = .ok (.error (.unsettled n (S^[n] e))) ∧
      (search pass e n).log = passLog pass S 0 e n := by
  have hend := settle_of_forall_not_settled h hchanges 0
  rw [search_of_ne_zero hn]
  rwa [Nat.zero_add] at hend

/-- Where passes that leave a text leave the tree, a search that gets as far as a fixed tree answers
that tree. -/
theorem outcome_search_of_fixed {k n : Nat} (hk : k < n) (h : Iterates pass S e (k + 1))
    (htext : ∀ i < k, SettledAfter S e i → S^[i + 1] e = S^[i] e)
    (hfixed : S^[k + 1] e = S^[k] e) : (search pass e n).outcome = .ok (.ok (S^[k] e)) := by
  obtain ⟨i, hi, hsettled, hchanges⟩ := exists_first_settled (congrArg Expr.text hfixed)
  have hstays : S^[i + 1] e = S^[i] e := by
    rcases Nat.lt_or_eq_of_le hi with hlt | rfl
    · exact htext i hlt hsettled
    · exact hfixed
  have hsame : S^[k] e = S^[i] e := by
    obtain ⟨more, rfl⟩ := Nat.exists_eq_add_of_le' hi
    rw [Function.iterate_add_apply]
    apply Function.iterate_fixed
    rwa [Function.iterate_succ_apply'] at hstays
  have hend := settle_of_first_settled (Nat.lt_of_le_of_lt hi hk)
    (h.mono (Nat.succ_le_succ hi)) hchanges hsettled 0
  rw [search_of_ne_zero (Nat.ne_of_gt (Nat.zero_lt_of_lt hk)), hend.1, hstays, hsame]

end Fixpoint

namespace Simplifier

/-- A pass over the tree leaves `r` when it may be nested as deeply as it needs to. -/
def PassesTo (s : Simplifier) (e r : Expr) : Prop :=
  ∃ depth, (s.simplifyWithin depth e).outcome = .ok r

theorem PassesTo.eventually {s : Simplifier} {e r : Expr} (h : s.PassesTo e r) :
    ∀ᶠ depth in atTop, (s.simplifyWithin depth e).outcome = .ok r := by
  obtain ⟨start, hstart⟩ := h
  have hsame := Run.eventually_eq_of_ok (fun hd => s.refines_simplifyWithin hd e) hstart
  filter_upwards [hsame] with depth hdepth
  rw [hdepth, hstart]

open Fixpoint

/-- Let `S` be what a pass does to the trees that are met, of which each can be passed over to its
end. A search that makes at most `n` passes, nested as deeply as they need to, answers what the
first pass left that kept the text of its tree, the pass number `k + 1` here, and reports all passes
up to this one; without such a pass it gives up and tells what the last one left. A search with the
depth that is allowed for a tree is the same unless it runs out of depth. Without passes a search
gives up at once, and an answer stays the same for every larger bound. -/
theorem simplifyToFixpoint_eq_iterate (s : Simplifier) (S : Expr → Expr) (e : Expr) (n : Nat)
    (h : ∀ i < n, s.PassesTo (S^[i] e) (S^[i + 1] e)) :
    (∀ᶠ depth in atTop,
      let pass := s.simplifyWithin depth
      (∀ k, IsLeast {k | k < n ∧ SettledAfter S e k} k →
        (search pass e n).outcome = .ok (.ok (S^[k + 1] e)) ∧
        (search pass e n).log = passLog pass S 0 e (k + 1)) ∧
      (n ≠ 0 → (∀ k < n, ¬ SettledAfter S e k) →
        (search pass e n).outcome = .ok (.error (.unsettled n (S^[n] e))) ∧
        (search pass e n).log = passLog pass S 0 e n) ∧
      (s.simplifyToFixpoint e n).Refines (search pass e n)) ∧
    ∀ pass, search pass e 0 = pure (.error .zeroPasses) ∧
      ∀ r m, n ≤ m → (search pass e n).outcome = .ok (.ok r) →
        search pass e m = search pass e n := by
  refine ⟨?_, fun pass => ⟨rfl, fun r m hm => search_eq_of_le hm⟩⟩
  have hpasses : ∀ᶠ depth in atTop, ∀ i < n,
      (s.simplifyWithin depth (S^[i] e)).outcome = .ok (S^[i + 1] e) ∧
        depthFor (S^[i] e) ≤ depth := by
    apply (eventually_all_finite (Set.finite_lt_nat n)).mpr
    exact fun i hi => (h i hi).eventually.and (eventually_ge_atTop _)
  filter_upwards [hpasses] with depth hdepth
  have hiterates : Iterates (s.simplifyWithin depth) S e n := fun i hi => (hdepth i hi).1
  refine ⟨fun k => search_of_isLeast hiterates,
    fun hn => search_of_forall_not_settled hn hiterates, ?_⟩
  exact refines_search hiterates fun i hi => s.refines_simplifyWithin (hdepth i hi).2 _

/-- A search that makes three passes over `null != null`, of which the second one is the last to
change something. -/
theorem simplifyToFixpoint_eq_iterate_threePasses :
    let s : Simplifier := { transformers := [RuleSet.full.transformer, .expandNotEqual] }
    let e : Expr := .notEqual (.constant .null) (.constant .null)
    (∀ i < 4, s.PassesTo (s.result^[i] e) (s.result^[i + 1] e)) ∧
      IsLeast {k | k < 4 ∧ SettledAfter s.result e k} 2 ∧
      ∀ᶠ depth in atTop,
        let pass := s.simplifyWithin depth
        (search pass e 4).outcome = .ok (.ok (.bool false)) ∧
        (search pass e 4).log = passLog pass s.result 0 e 3 := by
  intro s e
  have hpasses : ∀ i < 4, s.PassesTo (s.result^[i] e) (s.result^[i + 1] e) := by
    intro i hi
    have hcases : i = 0 ∨ i = 1 ∨ i = 2 ∨ i = 3 := by omega
    rcases hcases with rfl | rfl | rfl | rfl <;> exact ⟨4, rfl⟩
  have hchanges : ¬ SettledAfter s.result e 0 ∧ ¬ SettledAfter s.result e 1 := by
    unfold SettledAfter
    decide
  have hleast : IsLeast {k | k < 4 ∧ SettledAfter s.result e k} 2 := by
    refine ⟨⟨by omega, rfl⟩, ?_⟩
    rintro k ⟨-, hk⟩
    rcases k with _ | _ | k
    · exact (hchanges.1 hk).elim
    · exact (hchanges.2 hk).elim
    · exact Nat.le_add_left 2 k
  exact ⟨hpasses, hleast,
    (simplifyToFixpoint_eq_iterate s s.result e 4 hpasses).1.mono fun _ h => h.1 2 hleast⟩

end Simplifier

end ExprTree
