import ExprTree.CommandLine.Binding
import ExprTree.Proofs.Text.Numeral
import ExprTree.Proofs.Text.Trim

/-!
# The grammar of bindings

A binding is a name, an equals sign and a numeral of a 64-bit number, with blanks around the two
parts. What is no binding is refused for one of three reasons, looked for in this order: there is no
equals sign, nothing but blanks stands in front of the first one, or no such numeral stands behind
it.
-/

namespace ExprTree

/-- The text is cut in two by the first equals sign in it. -/
def SplitsInto (raw : String) (left right : List Char) : Prop :=
  raw.toList = left ++ '=' :: right ∧ '=' ∉ left

section

variable {raw : String} {left right : List Char}

private theorem ne_equals (h : '=' ∉ left) : ∀ c ∈ left, decide (c ≠ '=') = true := by
  intro c hc
  rw [decide_eq_true_eq]
  rintro rfl
  exact h hc

theorem readBinding_of_not_mem (h : '=' ∉ raw.toList) :
    readBinding raw = .error (.missingEquals raw) := by
  have hnil := List.dropWhile_eq_nil_iff.mpr (ne_equals h)
  simp only [readBinding, hnil]

private theorem SplitsInto.parts (h : SplitsInto raw left right) :
    raw.toList.takeWhile (fun c => decide (c ≠ '=')) = left ∧
      raw.toList.dropWhile (fun c => decide (c ≠ '=')) = '=' :: right := by
  obtain ⟨hraw, hleft⟩ := h
  have hends : Ends (fun c => decide (c ≠ '=')) ('=' :: right) := ends_cons (by decide)
  rw [hraw]
  exact ⟨takeWhile_block (ne_equals hleft) hends, dropWhile_block (ne_equals hleft) hends⟩

theorem readBinding_of_blank (h : SplitsInto raw left right) (hleft : Blank left) :
    readBinding raw = .error (.emptyName raw) := by
  obtain ⟨hname, hrest⟩ := h.parts
  have hnil := trimBlanks_eq_nil_iff.mpr hleft
  simp only [readBinding, hname, hrest, hnil, if_true]

theorem readBinding_of_not_blank (h : SplitsInto raw left right) (hleft : ¬ Blank left) :
    (∃ n, readInt64? (trimBlanks right) = some n ∧
      readBinding raw = .ok (String.ofList (trimBlanks left), n)) ∨
    readInt64? (trimBlanks right) = none ∧
      readBinding raw = .error (.notAnInteger (String.ofList (trimBlanks right))) := by
  obtain ⟨hname, hrest⟩ := h.parts
  have hnil : trimBlanks left ≠ [] := fun hnil => hleft (trimBlanks_eq_nil_iff.mp hnil)
  simp only [readBinding, hname, hrest, if_neg hnil]
  cases readInt64? (trimBlanks right) with
  | some n => exact .inl ⟨n, rfl, rfl⟩
  | none => exact .inr ⟨rfl, rfl⟩

private theorem readBinding_ne_error {e : BindingError} (h : SplitsInto raw left right)
    (hleft : ¬ Blank left) (he : ∀ value, e ≠ .notAnInteger value) :
    readBinding raw ≠ .error e := by
  intro hread
  rcases readBinding_of_not_blank h hleft with ⟨n, -, hok⟩ | ⟨-, herror⟩
  · rw [hok] at hread
    cases hread
  · rw [herror] at hread
    cases hread
    exact he _ rfl

theorem readBinding_eq_missingEquals_iff :
    readBinding raw = .error (.missingEquals raw) ↔ '=' ∉ raw.toList := by
  refine ⟨fun h hmem => ?_, readBinding_of_not_mem⟩
  obtain ⟨left, right, hsplits⟩ := List.eq_append_cons_of_mem hmem
  by_cases hleft : Blank left
  · rw [readBinding_of_blank hsplits hleft] at h
    cases h
  · exact readBinding_ne_error hsplits hleft (by simp) h

theorem readBinding_eq_emptyName_iff (h : SplitsInto raw left right) :
    readBinding raw = .error (.emptyName raw) ↔ Blank left := by
  refine ⟨fun hread => ?_, readBinding_of_blank h⟩
  by_contra hleft
  exact readBinding_ne_error h hleft (by simp) hread

private theorem ofList_trimBlanks_eq_iff {s : List Char} {core : String} :
    String.ofList (trimBlanks s) = core ↔ HasCore s core.toList := by
  rw [← String.toList_inj, String.toList_ofList, trimBlanks_eq_iff]

private theorem readInt64?_trimBlanks_eq_some_iff {s : List Char} {n : Int64} :
    readInt64? (trimBlanks s) = some n ↔ ∃ core, HasCore s core ∧ Numeral core n.toInt := by
  rw [readInt64?_eq_some_iff]
  constructor
  · intro h
    exact ⟨_, hasCore_trimBlanks s, h⟩
  · rintro ⟨core, hcore, h⟩
    rwa [hcore.trimBlanks_eq]

theorem readBinding_eq_ok_iff (h : SplitsInto raw left right) {name : String} {n : Int64} :
    readBinding raw = .ok (name, n) ↔ ¬ Blank left ∧ HasCore left name.toList ∧
      ∃ numeral, HasCore right numeral ∧ Numeral numeral n.toInt := by
  by_cases hleft : Blank left
  · simp [readBinding_of_blank h hleft, hleft]
  · rw [← ofList_trimBlanks_eq_iff, ← readInt64?_trimBlanks_eq_some_iff]
    rcases readBinding_of_not_blank h hleft with ⟨m, hm, hread⟩ | ⟨hnone, hread⟩
    · simp [hread, hleft, hm]
    · simp [hread, hnone]

theorem readBinding_eq_notAnInteger_iff (h : SplitsInto raw left right) {value : String} :
    readBinding raw = .error (.notAnInteger value) ↔ ¬ Blank left ∧ HasCore right value.toList ∧
      ∀ n : Int64, ¬ Numeral value.toList n.toInt := by
  by_cases hleft : Blank left
  · simp [readBinding_of_blank h hleft, hleft]
  · have hnumeral : (∀ n : Int64, ¬ Numeral value.toList n.toInt) ↔
        readInt64? value.toList = none := by
      simp only [← readInt64?_eq_some_iff, Option.eq_none_iff_forall_ne_some, ne_eq]
    rw [hnumeral, ← ofList_trimBlanks_eq_iff]
    rcases readBinding_of_not_blank h hleft with ⟨m, hm, hread⟩ | ⟨hnone, hread⟩
    · rw [hread]
      constructor
      · intro hok
        cases hok
      · rintro ⟨-, rfl, hnone⟩
        rw [String.toList_ofList, hm] at hnone
        cases hnone
    · rw [hread]
      constructor
      · intro herror
        cases herror
        exact ⟨hleft, rfl, by rwa [String.toList_ofList]⟩
      · rintro ⟨-, rfl, -⟩
        rfl

end

private theorem isBlank_of_isDigit {c : Char} (h : c.isDigit = true) : isBlank c = false := by
  obtain ⟨hlow, hhigh⟩ := Char.isDigit_iff_toNat.mp h
  change 0x30 ≤ c.toNat at hlow
  change c.toNat ≤ 0x39 at hhigh
  simp [isBlank]
  omega

theorem Numeral.trimmed {s : List Char} {i : Int} (h : Numeral s i) : Trimmed s := by
  have hall : ∀ c ∈ s, isBlank c = false := by
    cases h with
    | unsigned h => exact fun c hc => isBlank_of_isDigit (h.2 c hc)
    | plus h | minus h =>
      exact List.forall_mem_cons.mpr ⟨by decide, fun c hc => isBlank_of_isDigit (h.2 c hc)⟩
  exact ⟨fun c hc => hall c (List.mem_of_mem_head? hc),
    fun c hc => hall c (List.mem_of_mem_getLast? hc)⟩

theorem readBinding_text {name : String} {n : Int64} {b₁ b₂ b₃ b₄ : String} (hname : name ≠ "")
    (htrimmed : Trimmed name.toList) (hequals : '=' ∉ name.toList)
    (hblank : ∀ b ∈ [b₁, b₂, b₃, b₄], Blank b.toList) :
    readBinding (b₁ ++ name ++ b₂ ++ "=" ++ b₃ ++ (Literal.int n).text ++ b₄) = .ok (name, n) := by
  simp only [List.forall_mem_cons] at hblank
  obtain ⟨h₁, h₂, h₃, h₄, -⟩ := hblank
  have hnumeral : Numeral (Literal.int n).text.toList n.toInt := numeral_toString n.toInt
  have hsplits : SplitsInto (b₁ ++ name ++ b₂ ++ "=" ++ b₃ ++ (Literal.int n).text ++ b₄)
      (b₁.toList ++ (name.toList ++ b₂.toList))
      (b₃.toList ++ ((Literal.int n).text.toList ++ b₄.toList)) := by
    constructor
    · simp
    · simp only [List.mem_append, hequals, false_or, not_or]
      exact ⟨fun h => absurd (h₁ _ h) (by decide), fun h => absurd (h₂ _ h) (by decide)⟩
  have hleft : ¬ Blank (b₁.toList ++ (name.toList ++ b₂.toList)) := by
    intro h
    have hne : name.toList ≠ [] := fun hnil => hname (String.toList_eq_nil_iff.mp hnil)
    exact htrimmed.not_blank hne fun c hc => h c (by simp [hc])
  exact (readBinding_eq_ok_iff hsplits).mpr ⟨hleft, ⟨_, _, rfl, h₁, h₂, htrimmed⟩,
    _, ⟨_, _, rfl, h₃, h₄, hnumeral.trimmed⟩, hnumeral⟩

/-- A text without an equals sign is refused for that. Of any other text it is decided by the part
in front of the first equals sign and the part behind it: the text is refused for the lack of a name
when the former is blank; it is read as a name and a number when the former is not blank, and the
latter is a numeral of a 64-bit number between blanks; and it is refused for what stands between
blanks in the latter in all other cases. A trimmed name and the text of a number are read back. -/
theorem readBinding_grammar :
    (∀ raw, readBinding raw = .error (.missingEquals raw) ↔ '=' ∉ raw.toList) ∧
    (∀ raw left right, SplitsInto raw left right →
      (readBinding raw = .error (.emptyName raw) ↔ Blank left) ∧
      (∀ name n, readBinding raw = .ok (name, n) ↔
        ¬ Blank left ∧ HasCore left name.toList ∧
          ∃ numeral, HasCore right numeral ∧ Numeral numeral n.toInt) ∧
      ∀ value, readBinding raw = .error (.notAnInteger value) ↔
        ¬ Blank left ∧ HasCore right value.toList ∧ ∀ n : Int64, ¬ Numeral value.toList n.toInt) ∧
    ∀ (name : String) (n : Int64) (b₁ b₂ b₃ b₄ : String),
      name ≠ "" → Trimmed name.toList → '=' ∉ name.toList →
      (∀ b ∈ [b₁, b₂, b₃, b₄], Blank b.toList) →
      readBinding (b₁ ++ name ++ b₂ ++ "=" ++ b₃ ++ (Literal.int n).text ++ b₄) =
        .ok (name, n) := by
  refine ⟨fun raw => readBinding_eq_missingEquals_iff, fun raw left right h => ?_, ?_⟩
  · exact ⟨readBinding_eq_emptyName_iff h, fun name n => readBinding_eq_ok_iff h,
      fun value => readBinding_eq_notAnInteger_iff h⟩
  · intro name n b₁ b₂ b₃ b₄ hname htrimmed hequals hblank
    exact readBinding_text hname htrimmed hequals hblank

/-- The smallest number, with a no-break space, a tab, an em space and a line feed around the two
parts. -/
theorem readBinding_grammar_smallestNumber :
    let raw := "\u00a0a\t=\u2003-9223372036854775808\n"
    let left := ['\u00a0', 'a', '\t']
    let right := ("\u2003-9223372036854775808\n").toList
    SplitsInto raw left right ∧ readBinding raw = .ok ("a", Int64.minValue) ∧
      ¬ Blank left ∧ ∃ numeral, HasCore right numeral ∧ Numeral numeral (-2 ^ 63) := by
  intro raw left right
  obtain ⟨-, hforms, htext⟩ := readBinding_grammar
  have hsplits : SplitsInto raw left right := ⟨by decide, by decide⟩
  have hread : readBinding raw = .ok ("a", Int64.minValue) :=
    htext "a" Int64.minValue "\u00a0" "\t" "\u2003" "\n" (by decide) (by decide) (by decide)
      (by decide)
  obtain ⟨hleft, -, hnumeral⟩ := ((hforms raw left right hsplits).2.1 _ _).mp hread
  exact ⟨hsplits, hread, hleft, hnumeral⟩

end ExprTree
