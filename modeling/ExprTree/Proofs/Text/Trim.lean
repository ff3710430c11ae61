import ExprTree.Proofs.Text.Words
import ExprTree.Text.Blank
import Mathlib.Data.List.TakeWhile

/-!
# Texts without blanks at their ends

A text has a core, which begins and ends with other characters than blanks and has only blanks
around it. There is one core, and trimming finds it.
-/

namespace ExprTree

/-- The text consists of blanks. -/
def Blank (s : List Char) : Prop := ∀ c ∈ s, isBlank c = true

/-- The text neither begins nor ends with a blank. -/
def Trimmed (s : List Char) : Prop :=
  (∀ c ∈ s.head?, isBlank c = false) ∧ ∀ c ∈ s.getLast?, isBlank c = false

instance (s : List Char) : Decidable (Blank s) :=
  decidable_of_iff (s.all isBlank = true) List.all_eq_true

instance (s : List Char) : Decidable (Trimmed s) :=
  decidable_of_iff
    (s.head?.all (fun c => !isBlank c) = true ∧ s.getLast?.all (fun c => !isBlank c) = true)
    (by simp [Trimmed, Option.all_eq_true])

/-- The text is its core between blanks. -/
def HasCore (s core : List Char) : Prop :=
  ∃ before after, s = before ++ (core ++ after) ∧ Blank before ∧ Blank after ∧ Trimmed core

section

variable {s core : List Char}

theorem Blank.append {a b : List Char} (ha : Blank a) (hb : Blank b) : Blank (a ++ b) := by
  intro c hc
  rcases List.mem_append.mp hc with h | h
  · exact ha c h
  · exact hb c h

private theorem Blank.reverse (h : Blank s) : Blank s.reverse :=
  fun c hc => h c (List.mem_reverse.mp hc)

private theorem dropBlanks_append {before rest : List Char} (hbefore : Blank before)
    (hrest : Ends isBlank rest) : dropBlanks (before ++ rest) = rest :=
  dropWhile_block hbefore hrest

private theorem ends_dropBlanks (s : List Char) : Ends isBlank (dropBlanks s) := by
  intro c hc
  have hnot := List.head?_dropWhile_not isBlank s
  rw [← dropBlanks, Option.mem_def.mp hc] at hnot
  exact hnot

theorem Trimmed.not_blank (h : Trimmed s) (hne : s ≠ []) : ¬ Blank s := by
  intro hblank
  cases s with
  | nil => exact hne rfl
  | cons c cs =>
    have hc := hblank c List.mem_cons_self
    rw [h.1 c rfl] at hc
    cases hc

private theorem Trimmed.ends_append {after : List Char} (h : Trimmed core) (hne : core ≠ []) :
    Ends isBlank (core ++ after) := by
  cases core with
  | nil => exact absurd rfl hne
  | cons c cs => exact ends_cons (h.1 c rfl)

theorem HasCore.trimBlanks_eq (h : HasCore s core) : trimBlanks s = core := by
  obtain ⟨before, after, rfl, hbefore, hafter, hcore⟩ := h
  by_cases hne : core = []
  · subst hne
    have hblank : Blank (before ++ ([] ++ after)) := hbefore.append hafter
    have hnil : dropBlanks (before ++ ([] ++ after)) = [] := List.dropWhile_eq_nil_iff.mpr hblank
    rw [trimBlanks, hnil]
    rfl
  · have hlast : Ends isBlank core.reverse := by
      intro c hc
      rw [List.head?_reverse] at hc
      exact hcore.2 c hc
    rw [trimBlanks, dropBlanks_append hbefore (hcore.ends_append hne), List.reverse_append,
      dropBlanks_append hafter.reverse hlast, List.reverse_reverse]

theorem hasCore_trimBlanks (s : List Char) : HasCore s (trimBlanks s) := by
  let taken := ((dropBlanks s).reverse.takeWhile isBlank).reverse
  have hrest : dropBlanks s = trimBlanks s ++ taken := by
    rw [trimBlanks, ← List.reverse_append]
    exact List.reverse_eq_iff.mp List.takeWhile_append_dropWhile.symm
  refine ⟨s.takeWhile isBlank, taken, ?_, ?_, ?_, ?_, ?_⟩
  · rw [← hrest]
    exact List.takeWhile_append_dropWhile.symm
  · exact fun c => List.mem_takeWhile_imp
  · exact Blank.reverse fun c => List.mem_takeWhile_imp
  · intro c hc
    apply ends_dropBlanks s
    rw [hrest, List.head?_append, Option.mem_def.mp hc]
    rfl
  · intro c hc
    rw [trimBlanks, List.getLast?_reverse] at hc
    exact ends_dropBlanks _ c hc

theorem trimBlanks_eq_iff : trimBlanks s = core ↔ HasCore s core := by
  constructor
  · rintro rfl
    exact hasCore_trimBlanks s
  · exact HasCore.trimBlanks_eq

theorem trimBlanks_eq_nil_iff : trimBlanks s = [] ↔ Blank s := by
  rw [trimBlanks_eq_iff]
  constructor
  · rintro ⟨before, after, rfl, hbefore, hafter, -⟩
    exact hbefore.append hafter
  · intro h
    exact ⟨s, [], (List.append_nil s).symm, h, by decide, by decide⟩

end

end ExprTree
