import ExprTree.Proofs.Text.Plain

/-!
# Blocks and quoted strings

The longest block of characters of one kind at the front of a text, and a reader for quoted strings.
-/

namespace ExprTree

/-- The text ends here, or goes on with a character that does not belong to the block. -/
def Ends (p : Char → Bool) (cs : List Char) : Prop := ∀ c ∈ cs.head?, p c = false

section Blocks

variable {p : Char → Bool} {block rest : List Char}

theorem ends_cons {c : Char} {cs : List Char} (h : p c = false) : Ends p (c :: cs) := by
  intro d hd
  cases hd
  exact h

theorem takeWhile_block (hb : ∀ c ∈ block, p c = true) (hr : Ends p rest) :
    (block ++ rest).takeWhile p = block := by
  rw [List.takeWhile_append_of_pos hb]
  cases rest with
  | nil => rw [List.takeWhile_nil, List.append_nil]
  | cons c cs => rw [List.takeWhile_cons_of_neg (by simp [hr c rfl]), List.append_nil]

theorem dropWhile_block (hb : ∀ c ∈ block, p c = true) (hr : Ends p rest) :
    (block ++ rest).dropWhile p = rest := by
  rw [List.dropWhile_append_of_pos hb]
  cases rest with
  | nil => rfl
  | cons c cs => rw [List.dropWhile_cons_of_neg (by simp [hr c rfl])]

end Blocks

def unescape : Char → Char
  | 'n' => '\n'
  | 't' => '\t'
  | 'r' => '\r'
  | c => c

/-- The content of a quoted string, of which the opening quotation mark has been read. -/
def readString : List Char → Option (List Char × List Char)
  | [] => none
  | '"' :: cs => some ([], cs)
  | '\\' :: c :: cs => (readString cs).map fun (s, rest) => (unescape c :: s, rest)
  | c :: cs => (readString cs).map fun (s, rest) => (c :: s, rest)

private theorem readString_escapeChar (c : Char) (cs : List Char) :
    readString (escapeChar c ++ cs) = (readString cs).map fun (s, rest) => (c :: s, rest) := by
  unfold escapeChar
  split
  case h_6 hquote hbackslash _ _ _ =>
    rw [List.cons_append, List.nil_append, readString]
    · exact hquote
    · intro d ds hd
      exact absurd hd hbackslash
  all_goals rfl

theorem readString_escaped (s cs : List Char) :
    readString (s.flatMap escapeChar ++ '"' :: cs) = some (s, cs) := by
  induction s with
  | nil => rfl
  | cons c s ih =>
    rw [List.flatMap_cons, List.append_assoc, readString_escapeChar, ih]
    rfl

end ExprTree
