import ExprTree.Proofs.Text.Pieces

/-!
# Parsers of pieces

Parsers that take what they read off the front of a list of pieces, and what they make of pieces
that are written in the ways of the texts: a fixed beginning, one item after another, items with
commas between them.
-/

namespace ExprTree

open Piece

/-- Reads a value from the front, and leaves the rest. -/
abbrev Parser (α : Type) := List Piece → Option (α × List Piece)

namespace Parser

variable {α : Type}

/-- Takes the given pieces off the front. -/
def expect : List Piece → List Piece → Option (List Piece)
  | [], ps => some ps
  | p :: what, q :: ps => if p = q then expect what ps else none
  | _ :: _, [] => none

@[simp] theorem expect_nil (ps : List Piece) : expect [] ps = some ps := rfl

@[simp] theorem expect_cons (p : Piece) (what ps : List Piece) :
    expect (p :: what) (p :: ps) = expect what ps := if_pos rfl

@[simp] theorem expect_append (what ps : List Piece) : expect what (what ++ ps) = some ps := by
  induction what with
  | nil => rfl
  | cons p what ih => rw [List.cons_append, expect_cons, ih]

def name : Parser String
  | word text :: ps => some (text, ps)
  | _ => none

@[simp] theorem name_word (text : String) (ps : List Piece) :
    name (word text :: ps) = some (text, ps) := rfl

def manyWithin (item : Parser α) : Nat → List Piece → List α × List Piece
  | 0, ps => ([], ps)
  | fuel + 1, ps =>
    match item ps with
    | none => ([], ps)
    | some (x, rest) => (x :: (manyWithin item fuel rest).1, (manyWithin item fuel rest).2)

/-- Reads items as long as there are any. -/
def many (item : Parser α) (ps : List Piece) : List α × List Piece := manyWithin item ps.length ps

section Many

variable {item : Parser α} {f : α → List Piece} {xs : List α} {rest : List Piece}

private theorem manyWithin_flatMap (hitem : ∀ x ys, x :: ys <:+ xs →
      item (f x ++ (ys.flatMap f ++ rest)) = some (x, ys.flatMap f ++ rest))
    (hrest : item rest = none) {fuel : Nat} (hfuel : xs.length ≤ fuel) :
    manyWithin item fuel (xs.flatMap f ++ rest) = (xs, rest) := by
  induction xs generalizing fuel with
  | nil =>
    cases fuel with
    | zero => rfl
    | succ fuel => simp [manyWithin, hrest]
  | cons x xs ih =>
    cases fuel with
    | zero => simp at hfuel
    | succ fuel =>
      have hxs := ih (fun y ys h => hitem y ys (h.trans (List.suffix_cons x xs)))
        (Nat.le_of_succ_le_succ hfuel)
      rw [List.flatMap_cons, List.append_assoc, manyWithin, hitem x xs List.suffix_rfl]
      simp only [hxs]

theorem length_le_flatMap (h : ∀ x ∈ xs, f x ≠ []) : xs.length ≤ (xs.flatMap f).length := by
  induction xs with
  | nil => exact Nat.zero_le _
  | cons x xs ih =>
    rw [List.forall_mem_cons] at h
    have := List.length_pos_iff.mpr h.1
    have := ih h.2
    simp only [List.length_cons, List.flatMap_cons, List.length_append]
    omega

theorem many_flatMap (hf : ∀ x ∈ xs, f x ≠ [])
    (hitem : ∀ x ys, x :: ys <:+ xs →
      item (f x ++ (ys.flatMap f ++ rest)) = some (x, ys.flatMap f ++ rest))
    (hrest : item rest = none) : many item (xs.flatMap f ++ rest) = (xs, rest) := by
  apply manyWithin_flatMap hitem hrest
  have := length_le_flatMap hf
  rw [List.length_append]
  omega

end Many

/-- Reads items up to the mark that closes their list. -/
def sequence (item : Parser α) (close : Char) : Parser (List α) := fun ps =>
  if ps.head? = some (mark close) then some ([], ps)
  else
    (item ps).map fun (x, ps) =>
      let (xs, ps) := many (fun ps => (expect [mark ',', blank] ps).bind item) ps
      (x :: xs, ps)

/-- Reads a list of items with the marks around it. -/
def enclosed (item : Parser α) (opening close : Char) : Parser (List α) := fun ps => do
  let ps ← expect [mark opening] ps
  let (xs, ps) ← sequence item close ps
  let ps ← expect [mark close] ps
  return (xs, ps)

section Sequence

variable {item : Parser α} {f : α → List Piece} {xs : List α} {close : Char}

theorem sequence_separated {rest : List Piece}
    (hitem : ∀ x ∈ xs, ∀ ps, item (f x ++ mark ',' :: ps) = some (x, mark ',' :: ps))
    (hlast : ∀ x ∈ xs.getLast?, item (f x ++ rest) = some (x, rest))
    (hopen : ∀ x ∈ xs, ∀ ps, (f x ++ ps).head? ≠ some (mark close))
    (hclose : xs = [] → rest.head? = some (mark close)) (hrest : rest.head? ≠ some (mark ',')) :
    sequence item close (separated (xs.map f) ++ rest) = some (xs, rest) := by
  have hread (x : α) (ys : List α) (hys : x :: ys <:+ xs) :
      item (f x ++ ((ys.flatMap fun y => mark ',' :: blank :: f y) ++ rest)) =
        some (x, (ys.flatMap fun y => mark ',' :: blank :: f y) ++ rest) := by
    cases ys with
    | nil =>
      obtain ⟨before, rfl⟩ := hys
      exact hlast x (by simp)
    | cons y ys => exact hitem x (hys.subset List.mem_cons_self) _
  unfold sequence
  cases xs with
  | nil => exact if_pos (hclose rfl)
  | cons x xs =>
    have hmany : many (fun ps => (expect [mark ',', blank] ps).bind item)
        ((xs.flatMap fun y => mark ',' :: blank :: f y) ++ rest) = (xs, rest) := by
      apply many_flatMap
      · exact fun _ _ => List.cons_ne_nil _ _
      · exact fun y ys hys => hread y ys (hys.trans (List.suffix_cons x xs))
      · rcases rest with _ | ⟨p, ps⟩
        · rfl
        · have hp : mark ',' ≠ p := fun h => hrest (by rw [h]; rfl)
          simp [expect, hp]
    have hx := hopen x List.mem_cons_self
    rw [List.map_cons, separated, List.flatMap_map, List.append_assoc, if_neg (hx _),
      hread x xs List.suffix_rfl]
    simp only [Option.map_some, hmany]

variable
  (hitem : ∀ x ∈ xs, ∀ c ∈ [',', close], ∀ ps, item (f x ++ mark c :: ps) = some (x, mark c :: ps))
  (hopen : ∀ x ∈ xs, ∀ ps, (f x ++ ps).head? ≠ some (mark close)) (hclose : close ≠ ',')
include hitem hopen hclose

theorem sequence_closed (ps : List Piece) :
    sequence item close (separated (xs.map f) ++ mark close :: ps) =
      some (xs, mark close :: ps) := by
  apply sequence_separated
  · exact fun x hx => hitem x hx ',' (by simp)
  · exact fun x hx => hitem x (List.mem_of_getLast? hx) close (by simp) ps
  · exact hopen
  · exact fun _ => rfl
  · simpa using hclose

theorem enclosed_closed {opening : Char} (ps : List Piece) :
    enclosed item opening close (mark opening :: (separated (xs.map f) ++ mark close :: ps)) =
      some (xs, ps) := by
  simp [enclosed, sequence_closed hitem hopen hclose]

end Sequence

end Parser

end ExprTree
