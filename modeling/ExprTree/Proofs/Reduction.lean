import ExprTree.Registry

/-!
# Chains of reductions

A node is replaced as long as it is an extension with a reducer. `Chain` describes such replacements
apart from the loop that makes them, and the loop follows every chain as far as its steps go: a
chain that settles within them leaves the node on which it settles, a longer one the node behind the
last step. A loop that has used up its steps warns without looking at its last node, so it also
warns of a chain that settles with the very last step.
-/

namespace ExprTree.Registry

variable {r : Registry} {e last : Expr} {names : List String}

/-- The node is an extension with a reducer for its name. -/
def Reducible (r : Registry) (e : Expr) : Prop :=
  ∃ name operands, e = .extension name operands ∧ r.canReduce name = true

/-- Replacing one extension after the other by what its reducer makes of its operands leads from the
first node to the last. The names are those of the replaced extensions, in order. -/
inductive Chain (r : Registry) : Expr → List String → Expr → Prop where
  | refl (e : Expr) : Chain r e [] e
  | step {name : String} {operands : List Expr} {reducer : Reducer} {names : List String}
      {last : Expr} : r.find? name = some reducer → Chain r (reducer operands) names last →
      Chain r (.extension name operands) (name :: names) last

theorem Reducible.exists_reducer (h : r.Reducible e) :
    ∃ name operands reducer, e = .extension name operands ∧ r.find? name = some reducer := by
  obtain ⟨name, operands, rfl, hname⟩ := h
  obtain ⟨reducer, hreducer⟩ := Option.isSome_iff_exists.mp hname
  exact ⟨name, operands, reducer, rfl, hreducer⟩

theorem step?_eq_none_iff : r.step? e = none ↔ ¬ r.Reducible e := by
  constructor
  · intro hstep h
    obtain ⟨name, operands, reducer, rfl, hname⟩ := h.exists_reducer
    simp [step?, hname] at hstep
  · intro h
    unfold step?
    split
    · rename_i name operands
      cases hname : r.find? name with
      | none => rfl
      | some reducer => exact (h ⟨name, operands, rfl, by rw [canReduce, hname]; rfl⟩).elim
    · rfl

theorem reduceWithin_of_not_reducible (h : ¬ r.Reducible e) (steps : Nat) :
    r.reduceWithin (steps + 1) e = pure e := by
  rw [reduceWithin, step?_eq_none_iff.mpr h]

theorem reduce_of_not_reducible (h : ¬ r.Reducible e) : r.reduce e = pure e :=
  reduceWithin_of_not_reducible h 63

theorem reduceWithin_extension {name : String} {reducer : Reducer} (h : r.find? name = some reducer)
    (operands : List Expr) (steps : Nat) :
    r.reduceWithin (steps + 1) (.extension name operands) =
      Traced.report (.reducing name) >>= fun _ => r.reduceWithin steps (reducer operands) := by
  rw [reduceWithin, step?, h]
  rfl

/-- The loop follows a chain and goes on from its last node with the steps that are left. -/
theorem Chain.reduceWithin_add (h : r.Chain e names last) (steps : Nat) :
    (r.reduceWithin (names.length + steps) e).value = (r.reduceWithin steps last).value ∧
      (r.reduceWithin (names.length + steps) e).log =
        names.map .reducing ++ (r.reduceWithin steps last).log := by
  induction h with
  | refl =>
    rw [List.length_nil, Nat.zero_add]
    exact ⟨rfl, rfl⟩
  | @step name operands reducer names last hname _ ih =>
    rw [List.length_cons, Nat.add_right_comm, reduceWithin_extension hname, Traced.value_bind,
      Traced.log_bind, ih.1, ih.2]
    exact ⟨rfl, rfl⟩

/-- From every node leads a chain that settles or has the given length. -/
theorem exists_chain (r : Registry) (e : Expr) (steps : Nat) :
    ∃ names last, r.Chain e names last ∧
      (names.length ≤ steps ∧ ¬ r.Reducible last ∨ names.length = steps ∧ r.Reducible last) := by
  induction steps generalizing e with
  | zero =>
    by_cases h : r.Reducible e
    · exact ⟨[], e, .refl e, .inr ⟨rfl, h⟩⟩
    · exact ⟨[], e, .refl e, .inl ⟨Nat.le_refl 0, h⟩⟩
  | succ steps ih =>
    by_cases h : r.Reducible e
    · obtain ⟨name, operands, reducer, rfl, hname⟩ := h.exists_reducer
      obtain ⟨names, last, hchain, hend⟩ := ih (reducer operands)
      exact ⟨name :: names, last, .step hname hchain, by simpa using hend⟩
    · exact ⟨[], e, .refl e, .inl ⟨Nat.zero_le _, h⟩⟩

theorem Chain.eq_or_exists_reducer (h : r.Chain e names last) :
    last = e ∨ ∃ before name operands reducer, r.Chain e before (.extension name operands) ∧
      r.find? name = some reducer ∧ last = reducer operands := by
  induction h with
  | refl => exact .inl rfl
  | @step name operands reducer names last hname _ ih =>
    right
    rcases ih with rfl | ⟨before, source, others, made, hbefore, hmade⟩
    · exact ⟨[], name, operands, reducer, .refl _, hname, rfl⟩
    · exact ⟨name :: before, source, others, made, .step hname hbefore, hmade⟩

theorem Chain.reduce_of_settled (h : r.Chain e names last) (hlast : ¬ r.Reducible last)
    (hlength : names.length < maxSteps) :
    (r.reduce e).value = last ∧ (r.reduce e).log = names.map .reducing := by
  obtain ⟨steps, hsteps⟩ := Nat.exists_eq_add_of_lt hlength
  have hloop := h.reduceWithin_add (steps + 1)
  rw [reduceWithin_of_not_reducible hlast, ← Nat.add_assoc, ← hsteps] at hloop
  rw [reduce, hloop.1, hloop.2]
  exact ⟨rfl, List.append_nil _⟩

theorem Chain.reduce_of_length (h : r.Chain e names last) (hlength : names.length = maxSteps) :
    (r.reduce e).value = last ∧
      (r.reduce e).log = names.map .reducing ++ [.unsettled maxSteps] := by
  have hloop := h.reduceWithin_add 0
  rwa [Nat.add_zero, hlength] at hloop

/-- A chain that settles within sixty-four steps leaves the node on which it settles, and reducing
this node again does nothing. A longer or endless chain leaves the node behind the sixty-fourth
step. The replaced extensions are reported in order, and a warning follows the sixty-fourth of them.
There is always a chain of one of the two kinds, and what is left is the node itself or exactly what
a reducer has made: its operands are not reduced. -/
theorem reduce_eq_chain (r : Registry) (e : Expr) :
    (∀ names last, r.Chain e names last → names.length ≤ 64 → ¬ r.Reducible last →
      (r.reduce e).value = last ∧
      (r.reduce e).log =
        names.map .reducing ++ (if names.length = 64 then [.unsettled 64] else []) ∧
      r.reduce (r.reduce e).value = pure last) ∧
    (∀ names last, r.Chain e names last → names.length = 64 → r.Reducible last →
      (r.reduce e).value = last ∧
      (r.reduce e).log = names.map .reducing ++ [.unsettled 64]) ∧
    (∃ names last, r.Chain e names last ∧
      (names.length ≤ 64 ∧ ¬ r.Reducible last ∨ names.length = 64 ∧ r.Reducible last)) ∧
    ((r.reduce e).value = e ∨ ∃ before name operands reducer,
      r.Chain e before (.extension name operands) ∧ r.find? name = some reducer ∧
        (r.reduce e).value = reducer operands) := by
  have hsettled : ∀ names last, r.Chain e names last → names.length ≤ 64 → ¬ r.Reducible last →
      (r.reduce e).value = last ∧ (r.reduce e).log =
        names.map .reducing ++ (if names.length = 64 then [.unsettled 64] else []) := by
    intro names last hchain hlength hlast
    split
    · rename_i hlength
      exact hchain.reduce_of_length hlength
    · rw [List.append_nil]
      exact hchain.reduce_of_settled hlast (show names.length < 64 by omega)
  refine ⟨?_, ?_, r.exists_chain e 64, ?_⟩
  · intro names last hchain hlength hlast
    obtain ⟨hvalue, hlog⟩ := hsettled names last hchain hlength hlast
    rw [hvalue]
    exact ⟨rfl, hlog, reduce_of_not_reducible hlast⟩
  · exact fun names last hchain hlength _ => hchain.reduce_of_length hlength
  · obtain ⟨names, last, hchain, hend⟩ := r.exists_chain e 64
    have hvalue : (r.reduce e).value = last := by
      rcases hend with ⟨hlength, hlast⟩ | ⟨hlength, -⟩
      · exact (hsettled names last hchain hlength hlast).1
      · exact (hchain.reduce_of_length hlength).1
    rw [hvalue]
    exact hchain.eq_or_exists_reducer

/-- A reduction warns that it did not settle when it leaves a reducible extension, but also when it
has settled with its sixty-fourth step. -/
theorem unsettled_mem_log_reduce_iff (r : Registry) (e : Expr) :
    .unsettled 64 ∈ (r.reduce e).log ↔
      r.Reducible (r.reduce e).value ∨
        ∃ names, names.length = 64 ∧ r.Chain e names (r.reduce e).value := by
  obtain ⟨names, last, hchain, hend⟩ := r.exists_chain e 64
  by_cases hlength : names.length = 64
  · obtain ⟨hvalue, hlog⟩ := hchain.reduce_of_length hlength
    rw [hvalue, hlog]
    exact iff_of_true (List.mem_append_right _ List.mem_cons_self) (.inr ⟨names, hlength, hchain⟩)
  · have hlast : ¬ r.Reducible last := fun h =>
      hend.elim (fun hsettled => hsettled.2 h) fun hlong => hlength hlong.1
    obtain ⟨hvalue, hlog⟩ := hchain.reduce_of_settled hlast (show names.length < 64 by omega)
    have hsilent : .unsettled 64 ∉ (r.reduce e).log := by
      rw [hlog]
      simp
    refine iff_of_false hsilent ?_
    rw [hvalue]
    rintro (h | ⟨others, hothers, hchain'⟩)
    · exact hlast h
    · rw [(hchain'.reduce_of_length hothers).2] at hsilent
      exact hsilent (List.mem_append_right _ List.mem_cons_self)

/-- Unwrapping a variable out of sixty-four extensions warns, although the variable is left. -/
theorem unsettled_mem_log_reduce_iff_lastStep :
    let r : Registry := Registry.empty.register "unwrap" fun operands => operands.headD (.bool true)
    let e : Expr := Nat.repeat (fun d => .extension "unwrap" [d]) 64 (.parameter "a")
    .unsettled 64 ∈ (r.reduce e).log ∧ (r.reduce e).value = .parameter "a" ∧
      ¬ r.Reducible (.parameter "a") := by
  intro r e
  have hunwraps (n : Nat) : r.Chain (Nat.repeat (fun d => .extension "unwrap" [d]) n
      (.parameter "a")) (List.replicate n "unwrap") (.parameter "a") := by
    induction n with
    | zero => exact .refl _
    | succ n ih => exact .step rfl ih
  have hvalue : (r.reduce e).value = .parameter "a" :=
    ((hunwraps 64).reduce_of_length List.length_replicate).1
  have hsettles : r.Chain e (List.replicate 64 "unwrap") (r.reduce e).value := by
    rw [hvalue]
    exact hunwraps 64
  have hwarns := (unsettled_mem_log_reduce_iff r e).mpr (.inr ⟨_, List.length_replicate, hsettles⟩)
  exact ⟨hwarns, hvalue, by rintro ⟨name, operands, ⟨⟩, -⟩⟩

end ExprTree.Registry
