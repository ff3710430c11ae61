import ExprTree.Node.Children

/-! # The shape of a node

A node is its shape, which is all that is left without the children, and its children in order. -/

namespace ExprTree

variable {ε : Type}

/-- A node without its children. -/
def Node.shape (n : Node ε) : Node Unit := n.map fun _ => ()

private theorem split_list {σ τ : Type} {shape : σ → τ} {children : σ → List ε}
    (split : ∀ x y zs ws, shape x = shape y → children x ++ zs = children y ++ ws → x = y ∧ zs = ws)
    (xs ys : List σ) (zs ws : List ε) (hs : xs.map shape = ys.map shape)
    (hc : xs.flatMap children ++ zs = ys.flatMap children ++ ws) : xs = ys ∧ zs = ws := by
  induction xs generalizing ys with
  | nil =>
    cases ys with
    | nil => exact ⟨rfl, hc⟩
    | cons y ys => simp at hs
  | cons x xs ih =>
    cases ys with
    | nil => simp at hs
    | cons y ys =>
      simp only [List.map_cons, List.cons.injEq] at hs
      simp only [List.flatMap_cons, List.append_assoc] at hc
      obtain ⟨rfl, rest⟩ := split _ _ _ _ hs.1 hc
      obtain ⟨rfl, rfl⟩ := ih ys hs.2 rest
      exact ⟨rfl, rfl⟩

private theorem split_items (xs ys zs ws : List ε)
    (hs : xs.map (fun _ => ()) = ys.map (fun _ => ())) (hc : xs ++ zs = ys ++ ws) :
    xs = ys ∧ zs = ws :=
  List.append_inj hc (by simpa using congrArg List.length hs)

private theorem split_option (x y : Option ε) (zs ws : List ε)
    (hs : x.map (fun _ => ()) = y.map (fun _ => ()))
    (hc : x.toList ++ zs = y.toList ++ ws) : x = y ∧ zs = ws := by
  cases x <;> cases y <;> simp_all

private theorem split_construct (c d : Construct ε) (zs ws : List ε)
    (hs : c.map (fun _ => ()) = d.map (fun _ => ()))
    (hc : c.arguments ++ zs = d.arguments ++ ws) : c = d ∧ zs = ws := by
  cases c; cases d
  simp only [Construct.map, Construct.mk.injEq] at hs hc
  obtain ⟨rfl, rfl⟩ := split_items _ _ _ _ hs.2 hc
  simp_all

private theorem split_handler (h k : Handler ε) (zs ws : List ε)
    (hs : h.map (fun _ => ()) = k.map (fun _ => ()))
    (hc : h.children ++ zs = k.children ++ ws) : h = k ∧ zs = ws := by
  cases h; cases k
  simp only [Handler.map, Handler.mk.injEq, Handler.children, List.append_assoc] at hs hc
  obtain ⟨rfl, rest⟩ := split_option _ _ _ _ hs.2.2.1 hc
  simp_all

private theorem split_case (c d : Case ε) (zs ws : List ε)
    (hs : c.map (fun _ => ()) = d.map (fun _ => ()))
    (hc : c.children ++ zs = d.children ++ ws) : c = d ∧ zs = ws := by
  cases c; cases d
  simp only [Case.map, Case.mk.injEq, Case.children, List.append_assoc] at hs hc
  obtain ⟨rfl, rest⟩ := split_items _ _ _ _ hs.1 hc
  simp_all

private theorem split_element (e f : ElementInit ε) (zs ws : List ε)
    (hs : e.map (fun _ => ()) = f.map (fun _ => ()))
    (hc : e.arguments ++ zs = f.arguments ++ ws) : e = f ∧ zs = ws := by
  cases e; cases f
  simp only [ElementInit.map, ElementInit.mk.injEq] at hs hc
  obtain ⟨rfl, rfl⟩ := split_items _ _ _ _ hs.2 hc
  simp_all

private theorem split_binding (b c : Binding ε) (zs ws : List ε)
    (hs : b.map (fun _ => ()) = c.map (fun _ => ()))
    (hc : [b.value] ++ zs = [c.value] ++ ws) : b = c ∧ zs = ws := by
  cases b; cases c
  simp_all [Binding.map]

theorem Node.eq_of_shape_eq {n m : Node ε} (hs : n.shape = m.shape)
    (hc : n.children = m.children) : n = m := by
  have hc : n.children ++ [] = m.children ++ [] := by rw [hc]
  cases n <;> cases m <;>
    simp only [shape, map, reduceCtorEq, constant.injEq, parameter.injEq, unary.injEq,
      binary.injEq, block.injEq, loop.injEq, goto.injEq, label.injEq,
      tryCatch.injEq, switch.injEq, new.injEq, newArray.injEq, listInit.injEq, memberInit.injEq,
      invocation.injEq, methodCall.injEq, member.injEq, index.injEq, typeTest.injEq,
      dynamic.injEq, runtimeVariables.injEq, lambda.injEq, default.injEq, extension.injEq] at hs <;>
    simp only [children, List.cons_append, List.append_assoc] at hc
  case constant.constant | parameter.parameter | unary.unary | binary.binary
      | conditional.conditional | loop.loop | typeTest.typeTest
      | runtimeVariables.runtimeVariables | lambda.lambda | default.default => simp_all
  case block.block =>
    obtain ⟨rfl, -⟩ := split_items _ _ _ _ hs.2 hc
    simp_all
  case goto.goto =>
    obtain ⟨rfl, -⟩ := split_option _ _ _ _ hs.2.2 hc
    simp_all
  case label.label =>
    obtain ⟨rfl, -⟩ := split_option _ _ _ _ hs.2 hc
    simp_all
  case tryCatch.tryCatch =>
    obtain ⟨rfl, hc₁⟩ := List.cons.inj hc
    obtain ⟨rfl, hc₂⟩ := split_list split_handler _ _ _ _ hs.2.1 hc₁
    obtain ⟨rfl, hc₃⟩ := split_option _ _ _ _ hs.2.2.1 hc₂
    obtain ⟨rfl, -⟩ := split_option _ _ _ _ hs.2.2.2 hc₃
    rfl
  case switch.switch =>
    obtain ⟨rfl, hc₁⟩ := List.cons.inj hc
    obtain ⟨rfl, hc₂⟩ := split_list split_case _ _ _ _ hs.2.1 hc₁
    obtain ⟨rfl, -⟩ := split_option _ _ _ _ hs.2.2 hc₂
    rfl
  case new.new =>
    obtain ⟨rfl, -⟩ := split_construct _ _ _ _ hs hc
    rfl
  case newArray.newArray =>
    obtain ⟨rfl, -⟩ := split_items _ _ _ _ hs.2.2 hc
    simp_all
  case listInit.listInit =>
    obtain ⟨rfl, hc₁⟩ := split_construct _ _ _ _ hs.1 hc
    obtain ⟨rfl, -⟩ := split_list split_element _ _ _ _ hs.2 hc₁
    rfl
  case memberInit.memberInit =>
    obtain ⟨rfl, hc₁⟩ := split_construct _ _ _ _ hs.1 hc
    rw [List.map_eq_flatMap, List.map_eq_flatMap] at hc₁
    obtain ⟨rfl, -⟩ := split_list split_binding _ _ _ _ hs.2 hc₁
    rfl
  case invocation.invocation =>
    obtain ⟨rfl, hc₁⟩ := List.cons.inj hc
    obtain ⟨rfl, -⟩ := split_items _ _ _ _ hs.2 hc₁
    rfl
  case methodCall.methodCall =>
    obtain ⟨rfl, hc₁⟩ := split_option _ _ _ _ hs.1 hc
    obtain ⟨rfl, -⟩ := split_items _ _ _ _ hs.2.2 hc₁
    simp_all
  case member.member =>
    obtain ⟨rfl, -⟩ := split_option _ _ _ _ hs.1 hc
    simp_all
  case index.index =>
    obtain ⟨rfl, hc₁⟩ := List.cons.inj hc
    obtain ⟨rfl, -⟩ := split_items _ _ _ _ hs.2.2 hc₁
    simp_all
  case dynamic.dynamic | extension.extension =>
    obtain ⟨rfl, -⟩ := split_items _ _ _ _ hs.2 hc
    simp_all

end ExprTree
