import ExprTree.Proofs.Text.Grammar

/-!
# Looking ahead

How the pieces of an expression begin and what can follow them, and what the parser decides when it
looks at them.
-/

namespace ExprTree

open Piece ExprTree.Expr ExprTree.Parser

/-- The pieces begin as those of an expression do. -/
inductive Leads : List Piece → Prop where
  | name {w : String} : w ≠ smallestDigits → Leads [word w]
  | word {w : String} {c : Char} {ps : List Piece} : w ≠ smallestDigits → c ≠ ')' → c ≠ ',' →
      (c = ' ' → w ≠ "is" ∧ w ≠ "var" ∨ ps.head? = some (mark '(')) → Leads (word w :: mark c :: ps)
  | string (s : String) (ps : List Piece) : Leads (.string s :: ps)
  | opening {c : Char} (ps : List Piece) : c ∈ ['(', '\x7b', '@'] → Leads (mark c :: ps)
  | sign {c : Char} {p : Piece} (ps : List Piece) : (signOf? c).isSome → p ≠ blank →
      p ≠ mark '=' → Leads (mark c :: p :: ps)

theorem Leads.function {w : String} (hw : w ≠ smallestDigits) (ps : List Piece) :
    Leads (Piece.word w :: mark '(' :: ps) :=
  .word hw (by decide) (by decide) fun h => absurd h (by decide)

theorem Leads.keyword {w : String} (hw : w ≠ smallestDigits) (hne : w ≠ "is" ∧ w ≠ "var")
    (ps : List Piece) : Leads (Piece.word w :: blank :: ps) :=
  .word hw (by decide) (by decide) fun _ => .inl hne

section Ends

variable {named : Bool} {rest : List Piece}

theorem stops_of_named (h : stops true rest = true) : stops named rest = true := by
  rcases rest with _ | ⟨w | s | c, ps⟩
  · rfl
  · cases h
  · cases h
  · simp only [stops] at h ⊢
    by_cases hc : c = ' '
    · rwa [if_pos hc] at h ⊢
    · rw [if_neg hc] at h ⊢
      simp_all

theorem rests_of_stops (h : stops named rest = true) : rests named rest = true := by
  simp [rests, h]

theorem stops_closing {c : Char} (hc : c ∈ [',', ')', ']', ';']) (ps : List Piece) :
    stops named (mark c :: ps) = true := by
  simp only [List.mem_cons, List.not_mem_nil, or_false] at hc
  rcases hc with rfl | rfl | rfl | rfl <;> rfl

theorem stops_blank {ps : List Piece} (h : opensExpr ps = false) :
    stops named (blank :: ps) = true := by
  simp [stops, h]

theorem rests_access {c : Char} (hc : c = '.' ∨ c = '[') (ps : List Piece) :
    rests named (mark c :: ps) = true := by
  rcases hc with rfl | rfl <;> simp [rests]

private theorem typeTest_of_stops {w : String} {ps : List Piece}
    (h : rests named (blank :: word w :: ps) = true) : (typeTest? (word w :: ps)).isSome := by
  simpa [rests, stops, opensExpr, Option.isSome_iff_ne_none] using h

private theorem eq_is_of_typeTest {w : String} {ps : List Piece}
    (h : (typeTest? (word w :: ps)).isSome) : w = "is" := by
  unfold typeTest? at h
  split at h
  · split at h <;> simp_all
  · split at h <;> simp_all
  · cases h

theorem typeTest_word (h : rests named rest = true) (w : String) :
    typeTest? (word w :: rest) = none := by
  unfold typeTest?
  split
  · rename_i w' v type ps heq
    simp only [List.cons.injEq] at heq
    obtain ⟨-, rfl⟩ := heq
    have hv := eq_is_of_typeTest (typeTest_of_stops h)
    simp [hv]
  · rename_i w' type ps heq
    simp only [List.cons.injEq] at heq
    obtain ⟨-, rfl⟩ := heq
    cases typeTest_of_stops h
  · rfl

theorem expect_word_of_rests (h : rests named rest = true) {w : String} (hw : w ≠ "is")
    (what : List Piece) : expect (blank :: word w :: what) rest = none := by
  rcases rest with _ | ⟨p, _ | ⟨q, ps⟩⟩
  · rfl
  · simp [expect]
  · by_cases hp : blank = p
    · by_cases hq : word w = q
      · subst hp hq
        exact absurd (eq_is_of_typeTest (typeTest_of_stops h)) hw
      · simp [expect, hq]
    · simp [expect, hp]

theorem expect_brace_of_rests (h : rests named rest = true) (what : List Piece) :
    expect (blank :: mark '\x7b' :: what) rest = none := by
  rcases rest with _ | ⟨p, _ | ⟨q, ps⟩⟩
  · rfl
  · simp [expect]
  · by_cases hp : blank = p
    · by_cases hq : mark '\x7b' = q
      · subst hp hq
        simp [rests, stops, opensExpr] at h
      · simp [expect, hq]
    · simp [expect, hp]

theorem head_ne_bracket (h : rests named rest = true) : rest.head? ≠ some (mark '(') := by
  rintro heq
  rcases rest with _ | ⟨p, ps⟩
  · cases heq
  · cases heq
    simp [rests, stops] at h

end Ends

section Begins

variable {ps : List Piece} (h : Leads ps)
include h

theorem Leads.append {rest : List Piece}
    (hrest : rest = [] ∨ rest.head? = some (mark '.') ∨ rest.head? = some (mark '[')) :
    Leads (ps ++ rest) := by
  cases h with
  | name hw =>
    rcases rest with _ | ⟨q, rest⟩
    · exact .name hw
    · simp only [reduceCtorEq, List.head?_cons, Option.some.injEq, false_or] at hrest
      rcases hrest with rfl | rfl <;>
        exact .word hw (by decide) (by decide) fun h => absurd h (by decide)
  | @word w c ps hw hclose hcomma hblank =>
    refine .word hw hclose hcomma fun hc => (hblank hc).imp id fun hhead => ?_
    show (ps ++ rest).head? = _
    rw [List.head?_append, hhead, Option.some_or]
  | string s ps => exact .string s _
  | opening ps hc => exact .opening _ hc
  | sign ps hc hblank heq => exact .sign _ hc hblank heq

theorem Leads.opensExpr {named : Bool} {rest : List Piece} (hrest : rests named rest = true) :
    opensExpr (ps ++ rest) = true := by
  cases h with
  | name => exact Option.isNone_iff_eq_none.mpr (typeTest_word hrest _)
  | @word w c ps hw hclose hcomma hblank =>
    refine Option.isNone_iff_eq_none.mpr (Option.not_isSome_iff_eq_none.mp fun hsome => ?_)
    have his := eq_is_of_typeTest hsome
    -- a blank and another word would have to follow
    have hhead (hc : c = ' ') : ps.head? = some (mark '(') :=
      (hblank hc).resolve_left fun hne => hne.1 his
    rcases ps with _ | ⟨p, ps⟩ <;> unfold typeTest? at hsome <;> split at hsome <;> simp_all
  | string s ps => rfl
  | opening ps hc => simp_all [ExprTree.opensExpr]
  | sign ps hc hblank heq => simp_all [ExprTree.opensExpr]

theorem Leads.head_ne_mark {c : Char} (hopening : c ∉ ['(', '\x7b', '@'])
    (hsign : signOf? c = none) (rest : List Piece) : (ps ++ rest).head? ≠ some (mark c) := by
  cases h with
  | opening ps hd =>
    rintro heq
    cases heq
    exact hopening hd
  | sign ps hd =>
    rintro heq
    cases heq
    rw [hsign] at hd
    cases hd
  | _ => exact nofun

theorem Leads.exists_cons :
    ∃ p qs, ps = p :: qs ∧ ∀ c ∉ ['(', '\x7b', '@'], signOf? c = none → p ≠ mark c := by
  have hcons : ∃ p qs, ps = p :: qs := by cases h <;> exact ⟨_, _, rfl⟩
  obtain ⟨p, qs, rfl⟩ := hcons
  refine ⟨p, qs, rfl, fun c hopening hsign heq => h.head_ne_mark hopening hsign [] ?_⟩
  rw [heq]
  rfl

theorem Leads.head_ne_smallest (rest : List Piece) :
    (ps ++ rest).head? ≠ some (Piece.word smallestDigits) := by
  cases h with
  | name hw | word hw =>
    rintro heq
    cases heq
    exact hw rfl
  | _ => exact nofun

theorem Leads.opensNames (rest : List Piece) :
    opensNames (ps ++ rest) = false ∨ ∃ w, ps = [Piece.word w] := by
  have hhead := h.head_ne_mark (c := ')') (by decide) rfl rest
  cases h with
  | @name w => exact .inr ⟨w, rfl⟩
  | word hw hclose hcomma =>
    left
    simp only [List.cons_append, ExprTree.opensNames]
    split <;> simp_all
  | string s ps => exact .inl rfl
  | opening | sign =>
    left
    simp only [List.cons_append, ExprTree.opensNames]
    split <;> simp_all

theorem Leads.opensSwitch (rest : List Piece) :
    opensSwitch (ps ++ mark ')' :: blank :: mark '\x7b' :: rest) = true := by
  rcases h.opensNames (mark ')' :: blank :: mark '\x7b' :: rest) with hnames | ⟨w, rfl⟩
  · unfold ExprTree.opensSwitch
    split
    · rfl
    · rw [hnames]
      rfl
  · rfl

theorem Leads.readVariables {rest : List Piece} (hrest : rest.head? ≠ some blank) :
    readVariables (blank :: (ps ++ rest)) = some ([], blank :: (ps ++ rest)) := by
  unfold ExprTree.readVariables
  split
  · rename_i x qs hexpect
    exfalso
    rw [expect_cons] at hexpect
    cases h with
    | name =>
      rcases rest with _ | ⟨p, rest⟩ <;> simp_all [expect]
    | @word w c ps hw hclose hcomma hblank =>
      have htail : "var" = w ∧ ' ' = c ∧ ps ++ rest = Piece.word x :: qs := by
        simpa [expect] using hexpect
      obtain ⟨rfl, rfl, htail⟩ := htail
      rcases ps with _ | ⟨p, ps⟩ <;> simp_all
    | _ => simp [expect] at hexpect
  · rfl

end Begins

theorem opensNames_words (names : List String) (ps : List Piece) :
    opensNames (separated (words names) ++ mark ')' :: ps) = true := by
  rcases names with _ | ⟨x, _ | ⟨y, names⟩⟩ <;> rfl

theorem opensSwitch_words (names : List String) (ps : List Piece) :
    opensSwitch (separated (words names) ++ mark ')' :: (marks " => " ++ ps)) = false := by
  rcases names with _ | ⟨x, _ | ⟨y, names⟩⟩ <;> rfl

end ExprTree
