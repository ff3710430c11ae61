import ExprTree.Proofs.Text.Pieces

/-!
# Legible trees

Where names are identifiers and no constant is a float, no two words meet in the pieces of a tree,
so the pieces can be read off the text.
-/

namespace ExprTree

open Piece

namespace Piece

def isWord (text : String) : Bool := !text.toList.isEmpty && text.toList.all isNameChar

def isMark (c : Char) : Bool := !isNameChar c && c ≠ '"'

def startsWithWord : List Piece → Bool
  | word _ :: _ => true
  | _ => false

/-- Words and marks consist of the characters that are meant for them, and no two words meet. -/
def Clean : List Piece → Prop
  | [] => True
  | word text :: ps => isWord text = true ∧ startsWithWord ps = false ∧ Clean ps
  | string _ :: ps => Clean ps
  | mark c :: ps => isMark c = true ∧ Clean ps

-- not by `rfl`: these lemmas discharge the conditions of other simplification lemmas
@[simp] theorem startsWithWord_nil : startsWithWord [] = false := by
  simp only [startsWithWord]

@[simp] theorem startsWithWord_mark (c : Char) (ps : List Piece) :
    startsWithWord (mark c :: ps) = false := by
  simp only [startsWithWord]

@[simp] theorem startsWithWord_append (ps qs : List Piece) :
    startsWithWord (ps ++ qs) = (startsWithWord ps || (ps.isEmpty && startsWithWord qs)) := by
  rcases ps with _ | ⟨_ | _ | _, ps⟩ <;> rfl

@[simp] theorem startsWithWord_flatMap {α : Type} {f : α → List Piece} (xs : List α)
    (h : ∀ x, startsWithWord (f x) = false) : startsWithWord (xs.flatMap f) = false := by
  induction xs with
  | nil => rfl
  | cons x xs ih => simp [h, ih]

@[simp] theorem startsWithWord_elim {α : Type} {f : α → List Piece} (x : Option α)
    (h : ∀ a, startsWithWord (f a) = false) : startsWithWord (x.elim [] f) = false := by
  cases x with
  | none => rfl
  | some a => exact h a

@[simp] theorem clean_nil : Clean [] := trivial

@[simp] theorem clean_word (text : String) (ps : List Piece) :
    Clean (word text :: ps) ↔ isWord text = true ∧ startsWithWord ps = false ∧ Clean ps := Iff.rfl

@[simp] theorem clean_mark (c : Char) (ps : List Piece) :
    Clean (mark c :: ps) ↔ isMark c = true ∧ Clean ps := Iff.rfl

theorem Clean.tail {p : Piece} {ps : List Piece} (h : Clean (p :: ps)) : Clean ps := by
  cases p with
  | word => exact h.2.2
  | string => exact h
  | mark => exact h.2

@[simp] theorem clean_append {ps qs : List Piece} (hq : startsWithWord qs = false) :
    Clean (ps ++ qs) ↔ Clean ps ∧ Clean qs := by
  induction ps with
  | nil => simp
  | cons p ps ih =>
    cases p with
    | word text => simp [ih, hq, and_assoc]
    | string content => exact ih
    | mark c => simp [ih, and_assoc]

@[simp] theorem clean_flatMap {α : Type} {f : α → List Piece} {xs : List α}
    (h : ∀ x, startsWithWord (f x) = false) : Clean (xs.flatMap f) ↔ ∀ x ∈ xs, Clean (f x) := by
  induction xs with
  | nil => simp
  | cons x xs ih => simp [h, ih]

@[simp] theorem clean_elim {α : Type} {f : α → List Piece} {x : Option α} :
    Clean (x.elim [] f) ↔ ∀ a ∈ x, Clean (f a) := by
  cases x <;> simp

/-- The first piece of a text, and the rest of the text. -/
def readPiece : List Char → Option (Piece × List Char)
  | [] => none
  | c :: cs =>
    if c = '"' then
      (readString cs).map fun (content, rest) => (string (String.ofList content), rest)
    else if isNameChar c then
      some (word (String.ofList ((c :: cs).takeWhile isNameChar)), (c :: cs).dropWhile isNameChar)
    else some (mark c, cs)

private theorem Clean.ends {ps : List Piece} (h : Clean ps) (hs : startsWithWord ps = false) :
    Ends isNameChar (flatten ps) := by
  rcases ps with _ | ⟨_ | _ | c, ps⟩
  · exact fun c hc => nomatch hc
  · cases hs
  · exact ends_cons (by decide)
  · have hc := h.1
    rw [isMark, Bool.and_eq_true, Bool.not_eq_true'] at hc
    exact ends_cons hc.1

theorem Clean.readPiece {p : Piece} {ps : List Piece} (h : Clean (p :: ps)) :
    readPiece (flatten (p :: ps)) = some (p, flatten ps) := by
  cases p with
  | word text =>
    obtain ⟨hword, hstart, hps⟩ := h
    rw [isWord, Bool.and_eq_true, List.all_eq_true] at hword
    have hends := hps.ends hstart
    have htake := takeWhile_block hword.2 hends
    have hdrop := dropWhile_block hword.2 hends
    cases htext : text.toList with
    | nil => simp [htext] at hword
    | cons c cs =>
      have hc : isNameChar c = true := hword.2 c (by rw [htext]; exact List.mem_cons_self)
      have hquote : c ≠ '"' := by
        rintro rfl
        exact absurd hc (by decide)
      rw [htext] at htake hdrop
      rw [flatten_cons, chars_word, htext, List.cons_append, Piece.readPiece, if_neg hquote,
        if_pos hc, ← List.cons_append, htake, hdrop, ← htext, String.ofList_toList]
  | string content =>
    rw [flatten_cons, chars, List.cons_append, List.append_assoc, List.singleton_append,
      Piece.readPiece, if_pos rfl, readString_escaped]
    simp only [Option.map_some, String.ofList_toList]
  | mark c =>
    have hc := h.1
    simp only [isMark, Bool.and_eq_true, Bool.not_eq_true', decide_eq_true_eq] at hc
    rw [flatten_cons, chars_mark, List.singleton_append, Piece.readPiece, if_neg hc.2, if_neg]
    simp [hc.1]

/-- Clean lists of pieces with the same text are the same. -/
theorem Clean.flatten_inj {ps qs : List Piece} (hp : Clean ps) (hq : Clean qs)
    (h : flatten ps = flatten qs) : ps = qs := by
  induction ps generalizing qs with
  | nil =>
    cases qs with
    | nil => rfl
    | cons q qs =>
      have hread := hq.readPiece
      rw [← h] at hread
      cases hread
  | cons p ps ih =>
    have hread := hp.readPiece
    cases qs with
    | nil =>
      rw [h] at hread
      cases hread
    | cons q qs =>
      rw [h, hq.readPiece] at hread
      obtain ⟨rfl, hrest⟩ := Prod.mk.inj (Option.some.inj hread)
      rw [ih hp.tail hq.tail hrest.symm]

end Piece

/-- The names of an access to a member: without an object, the declaring type stands for it. -/
def MemberRef.names {ε : Type} (member : MemberRef) (object : Option ε) : List String :=
  if object.isNone then [member.declaringType, member.name] else [member.name]

/-- The names that the text of a node mentions. -/
def Node.names {ε : Type} : Node ε → List String
  | .parameter name | .default name => [name]
  | .block names _ | .runtimeVariables names => names
  | .loop _ breakLabel continueLabel => breakLabel.toList ++ continueLabel.toList
  | .goto _ target _ | .label target _ => [target]
  | .tryCatch _ handlers _ _ => handlers.flatMap fun h => h.type :: h.binder.toList
  | .new c => [c.type]
  | .newArray _ type _ | .typeTest _ _ type => [type]
  | .listInit c elements => c.type :: elements.map (·.method.name)
  | .memberInit c bindings => c.type :: bindings.map (·.member.name)
  | .methodCall object method _ => method.names object
  | .member object field => field.names object
  | .dynamic name _ | .extension name _ => [name]
  | .lambda name _ parameters _ => name.toList ++ parameters
  | _ => []

@[simp] theorem Node.names_map {α β : Type} (f : α → β) (n : Node α) :
    (n.map f).names = n.names := by
  cases n <;>
    simp [names, map, MemberRef.names, List.flatMap_map, Handler.map, Construct.map,
      ElementInit.map, Binding.map, Function.comp_def]

/-- No constant is a float, and the names in the text are identifiers. -/
inductive Expr.Legible : Expr → Prop where
  | node {n : Node Expr} : (∀ x : Float, n ≠ .constant (.float x)) →
      (∀ name ∈ n.names, isIdentifier name = true) → (∀ e ∈ n.children, Legible e) →
      Legible (node n)

private theorem isWord_of_isIdentifier {name : String} (h : isIdentifier name = true) :
    isWord name = true := by
  obtain ⟨c, cs, hname, -⟩ := head_of_isIdentifier h
  have hchars := isNameChar_of_isIdentifier h
  rw [isWord, Bool.and_eq_true, List.all_eq_true]
  exact ⟨by simp [hname], hchars⟩

@[simp] private theorem clean_separated (parts : List (List Piece)) :
    Clean (separated parts) ↔ ∀ p ∈ parts, Clean p := by
  cases parts with
  | nil => simp [separated]
  | cons part parts => simp +decide [separated]

@[simp] private theorem clean_words (names : List String) :
    (∀ p ∈ words names, Clean p) ↔ ∀ x ∈ names, isWord x = true := by
  simp [words]

@[simp] private theorem clean_parenthesised (parts : List (List Piece)) :
    Clean (parenthesised parts) ↔ ∀ p ∈ parts, Clean p := by
  simp +decide [parenthesised]

@[simp] private theorem clean_bracketed (parts : List (List Piece)) :
    Clean (bracketed parts) ↔ ∀ p ∈ parts, Clean p := by
  simp +decide [bracketed]

@[simp] private theorem clean_inBraces (body : List Piece) :
    Clean (inBraces body) ↔ Clean body := by
  simp +decide [inBraces]

@[simp] private theorem startsWithWord_parenthesised (parts : List (List Piece)) :
    startsWithWord (parenthesised parts) = false := by
  simp [parenthesised]

@[simp] private theorem startsWithWord_bracketed (parts : List (List Piece)) :
    startsWithWord (bracketed parts) = false := by
  simp [bracketed]

@[simp] private theorem startsWithWord_inBraces (body : List Piece) :
    startsWithWord (inBraces body) = false := by
  simp [inBraces]

private theorem isWord_toString {n : Int} (h : 0 ≤ n) : isWord (toString n) = true := by
  rw [isWord, toList_toString_of_nonneg h, Bool.and_eq_true, List.all_eq_true]
  obtain ⟨c, digits, hd, -⟩ := head_toDigits n.toNat
  exact ⟨by simp [hd], fun c hc => isNameChar_of_isDigit (isDigit_of_mem_toDigits hc)⟩

private theorem clean_pieces_literal {v : Literal} (h : ∀ x, v ≠ .float x) : Clean v.pieces := by
  cases v with
  | null => exact ⟨rfl, rfl, trivial⟩
  | bool b => cases b <;> exact ⟨rfl, rfl, trivial⟩
  | int n =>
    rw [Literal.pieces]
    split
    · exact ⟨rfl, isWord_toString (by omega), rfl, trivial⟩
    · exact ⟨isWord_toString (by omega), rfl, trivial⟩
  | float x => exact absurd rfl (h x)
  | string s => trivial

private theorem clean_marks_append {s : String} (h : s.toList.all isMark = true)
    (ps : List Piece) : Clean (marks s ++ ps) ↔ Clean ps := by
  unfold marks
  induction hs : s.toList generalizing s with
  | nil => rfl
  | cons c cs ih =>
    rw [hs, List.all_cons, Bool.and_eq_true] at h
    rw [List.map_cons, List.cons_append, clean_mark]
    have := ih (s := String.ofList cs) (by simpa using h.2) (by simp)
    rw [this]
    exact and_iff_right h.1

@[simp] private theorem clean_marks_symbol (op : BinaryOp) : Clean (marks op.symbol) := by
  have h (s : String) (h : s.toList.all isMark = true) : Clean (marks s) := by
    simpa using clean_marks_append h []
  rcases op with op | op | op | op | op | op | _ | _ | _
  case coalesce | arrayIndex | assign => exact h _ rfl
  all_goals cases op <;> exact h _ rfl

@[simp] private theorem startsWithWord_pieces_handler (h : Handler (List Piece)) :
    startsWithWord h.pieces = false := by
  simp [Handler.pieces]

@[simp] private theorem startsWithWord_pieces_case (c : Case (List Piece)) :
    startsWithWord c.pieces = false := by
  simp [Case.pieces]

private theorem clean_pieces_handler {h : Handler (List Piece)} (ht : isWord h.type = true)
    (hb : ∀ x ∈ h.binder, isWord x = true) (hc : ∀ p ∈ h.children, Clean p) : Clean h.pieces := by
  simp only [Handler.children, List.forall_mem_append, List.forall_mem_singleton,
    Option.mem_toList] at hc
  simp +decide [Handler.pieces, ht, hc.2]
  exact ⟨hb, hc.1⟩

private theorem clean_pieces_case {c : Case (List Piece)} (hc : ∀ p ∈ c.children, Clean p) :
    Clean c.pieces := by
  simp only [Case.children, List.forall_mem_append, List.forall_mem_singleton] at hc
  simp +decide [Case.pieces, hc.2]
  exact hc.1

private theorem clean_pieces_node {n : Node (List Piece)} (hf : ∀ x, n ≠ .constant (.float x))
    (hnames : ∀ name ∈ n.names, isWord name = true) (hc : ∀ p ∈ n.children, Clean p) :
    Clean n.pieces := by
  cases n
  case constant v => exact clean_pieces_literal fun x h => hf x (by rw [h])
  all_goals
    simp only [Node.names, Node.children, List.forall_mem_cons, List.forall_mem_append,
      Option.mem_toList] at hnames hc
  case unary op x =>
    obtain ⟨hx, -⟩ := hc
    cases op <;>
      first | exact (clean_marks_append rfl x).mpr hx | simpa +decide [Node.pieces] using hx
  case binary op l r => cases op <;> simp +decide [Node.pieces, hc]
  case conditional => simp +decide [Node.pieces, clean_marks_append, hc]
  case block names es =>
    cases names with
    | nil => simpa +decide [Node.pieces] using hc
    | cons name names => simpa +decide [Node.pieces] using ⟨List.forall_mem_cons.mp hnames, hc⟩
  case loop => simpa +decide [Node.pieces, hc] using hnames
  case goto jump _ _ => cases jump <;> simpa +decide [Node.pieces, hnames] using hc
  case label => simpa +decide [Node.pieces, hnames] using hc
  case tryCatch body handlers finallyBody faultBody =>
    have hhandlers : ∀ h ∈ handlers, Clean h.pieces := by
      intro h hh
      apply clean_pieces_handler
      · exact hnames _ (List.mem_flatMap_of_mem hh List.mem_cons_self)
      · exact fun x hx => hnames _ (List.mem_flatMap_of_mem hh (by simp [Option.mem_def.mp hx]))
      · exact fun p hp => hc.1.1.2 p (List.mem_flatMap_of_mem hh hp)
    simpa +decide [Node.pieces, hc.1.1.1] using ⟨hhandlers, hc.1.2, hc.2⟩
  case switch value cases fallback =>
    have hcases : ∀ c ∈ cases, Clean c.pieces := fun c hm =>
      clean_pieces_case fun p hp => hc.1.2 p (List.mem_flatMap_of_mem hm hp)
    simpa +decide [Node.pieces, hc.1.1] using ⟨hcases, hc.2⟩
  case new => simpa +decide [Node.pieces, Construct.pieces, hnames] using hc
  case newArray form _ _ => cases form <;> simpa +decide [Node.pieces, hnames] using hc
  case listInit c elements =>
    have helements : ∀ e ∈ elements, Clean e.pieces := by
      intro e he
      have hname := hnames.2 _ (List.mem_map_of_mem he)
      simpa [ElementInit.pieces, hname] using
        fun p hp => hc.2 p (List.mem_flatMap_of_mem he hp)
    simpa +decide [Node.pieces, Construct.pieces, hnames.1] using ⟨hc.1, helements⟩
  case memberInit c bindings =>
    have hbindings : ∀ b ∈ bindings, Clean b.pieces := by
      intro b hb
      have hname := hnames.2 _ (List.mem_map_of_mem hb)
      simpa +decide [Binding.pieces, hname, marks] using hc.2 _ (List.mem_map_of_mem hb)
    simpa +decide [Node.pieces, Construct.pieces, hnames.1] using ⟨hc.1, hbindings⟩
  case methodCall object _ _ =>
    cases object <;> simp_all +decide [Node.pieces, Access.pieces, MemberRef.names]
  case member object field =>
    cases object <;> simp_all +decide [Node.pieces, Access.pieces, MemberRef.names]
  case lambda name tailCall _ _ =>
    cases name <;> cases tailCall <;>
      simp_all +decide [Node.pieces, Prefix.pieces, clean_marks_append]
  case typeTest test _ _ => cases test <;> simp +decide [Node.pieces, hc, hnames]
  case invocation | index => simpa +decide [Node.pieces, Access.pieces] using hc
  case dynamic | extension => simpa +decide [Node.pieces, hnames] using hc
  case runtimeVariables => simpa +decide [Node.pieces] using hnames
  case parameter | default => simpa +decide [Node.pieces, words] using hnames.1

theorem Expr.Legible.clean {e : Expr} (h : e.Legible) : Clean e.pieces := by
  induction h with
  | @node n hf hnames hc ih =>
    rw [pieces_node]
    apply clean_pieces_node
    · intro x hx
      cases n <;> simp_all [Node.map]
    · rw [Node.names_map]
      exact fun name hm => isWord_of_isIdentifier (hnames name hm)
    · rw [Node.children_map, List.forall_mem_map]
      exact ih

theorem Expr.Legible.pieces_eq_of_text_eq {a b : Expr} (ha : a.Legible) (hb : b.Legible)
    (h : a.text = b.text) : a.pieces = b.pieces := by
  rw [← String.toList_inj, toList_text, toList_text] at h
  exact ha.clean.flatten_inj hb.clean h

theorem Expr.Plain.legible {e : Expr} (h : e.Plain) : e.Legible := by
  induction h with
  | constant hv =>
    refine .node ?_ nofun nofun
    rintro x ⟨⟩
    exact hv rfl
  | parameter hname => exact .node nofun (List.forall_mem_singleton.mpr hname) nofun
  | unary _ _ he => exact .node nofun nofun (List.forall_mem_singleton.mpr he)
  | binary _ _ _ hl hr =>
    exact .node nofun nofun (List.forall_mem_cons.mpr ⟨hl, List.forall_mem_singleton.mpr hr⟩)
  | conditional _ _ _ ht ha hb =>
    have hchildren : ∀ c ∈ [_, _, _], Legible c :=
      List.forall_mem_cons.mpr ⟨ht, List.forall_mem_cons.mpr ⟨ha, List.forall_mem_singleton.mpr hb⟩⟩
    exact .node nofun nofun hchildren
  | lambda hname hparameters _ hbody =>
    refine .node nofun ?_ (List.forall_mem_singleton.mpr hbody)
    exact List.forall_mem_append.mpr ⟨fun x hx => hname x (Option.mem_toList.mp hx), hparameters⟩

end ExprTree
