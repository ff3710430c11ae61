import ExprTree.Eval
import ExprTree.Text.Blank
import ExprTree.Text.Integer

/-! # Bindings of parameters

A binding is written `NAME=INT`, with blanks anywhere around the two parts. Of several bindings of
one name the last counts. -/

namespace ExprTree

inductive BindingError where
  | missingEquals (raw : String)
  | emptyName (raw : String)
  | notAnInteger (value : String)
  deriving DecidableEq

def BindingError.message : BindingError → String
  | .missingEquals raw => "expected NAME=INT, got `" ++ raw ++ "`"
  | .emptyName raw => "parameter name is empty in `" ++ raw ++ "`"
  | .notAnInteger value => "`" ++ value ++ "` is not an integer"

/-- Reads a binding, which is split at its first equals sign. -/
def readBinding (raw : String) : Except BindingError (String × Int64) :=
  let name := trimBlanks (raw.toList.takeWhile (· ≠ '='))
  match raw.toList.dropWhile (· ≠ '=') with
  | [] => .error (.missingEquals raw)
  | _ :: rest =>
    if name = [] then .error (.emptyName raw)
    else
      let value := trimBlanks rest
      match readInt64? value with
      | some n => .ok (String.ofList name, n)
      | none => .error (.notAnInteger (String.ofList value))

/-- Integers bound to names, sorted by name, each name once. -/
structure Bindings where
  entries : List (String × Int64)
  sorted : entries.Pairwise fun a b => a.1 < b.1
  deriving DecidableEq

namespace Bindings

protected def empty : Bindings := { entries := [], sorted := .nil }

private def insertEntry (name : String) (value : Int64) :
    List (String × Int64) → List (String × Int64)
  | [] => [(name, value)]
  | (other, old) :: rest =>
    if name < other then (name, value) :: (other, old) :: rest
    else if name = other then (name, value) :: rest
    else (other, old) :: insertEntry name value rest

section

variable {name : String} {value : Int64} {entries : List (String × Int64)}

private theorem mem_insertEntry {entry : String × Int64}
    (h : entry ∈ insertEntry name value entries) : entry = (name, value) ∨ entry ∈ entries := by
  induction entries with
  | nil => exact .inl (List.mem_singleton.mp h)
  | cons head rest ih =>
    unfold insertEntry at h
    split at h
    · exact List.mem_cons.mp h
    · split at h
      · rcases List.mem_cons.mp h with rfl | h
        · exact .inl rfl
        · exact .inr (List.mem_cons_of_mem _ h)
      · rcases List.mem_cons.mp h with rfl | h
        · exact .inr List.mem_cons_self
        · rcases ih h with rfl | h
          · exact .inl rfl
          · exact .inr (List.mem_cons_of_mem _ h)

private theorem pairwise_insertEntry (h : entries.Pairwise fun a b => a.1 < b.1) :
    (insertEntry name value entries).Pairwise fun a b => a.1 < b.1 := by
  induction entries with
  | nil => exact List.pairwise_singleton _ _
  | cons head rest ih =>
    obtain ⟨hhead, hrest⟩ := List.pairwise_cons.mp h
    unfold insertEntry
    split
    · rename_i hlt
      refine List.pairwise_cons.mpr ⟨fun entry hentry => ?_, h⟩
      rcases List.mem_cons.mp hentry with rfl | hentry
      · exact hlt
      · exact String.lt_trans hlt (hhead entry hentry)
    · rename_i hnlt
      split
      · rename_i heq
        exact List.pairwise_cons.mpr ⟨fun entry hentry => heq ▸ hhead entry hentry, hrest⟩
      · rename_i hne
        refine List.pairwise_cons.mpr ⟨fun entry hentry => ?_, ih hrest⟩
        rcases mem_insertEntry hentry with rfl | hentry
        · exact Std.lt_of_le_of_ne (String.not_lt.mp hnlt) (Ne.symm hne)
        · exact hhead entry hentry

end

/-- Binds a name, in place of any earlier binding of it. -/
def insert (b : Bindings) (name : String) (value : Int64) : Bindings where
  entries := insertEntry name value b.entries
  sorted := pairwise_insertEntry b.sorted

/-- Binds the names in order, so the last binding of a name counts. -/
def ofList (bindings : List (String × Int64)) : Bindings :=
  bindings.foldl (fun b (name, value) => b.insert name value) .empty

def isEmpty (b : Bindings) : Bool := b.entries.isEmpty

def environment (b : Bindings) : Environment := fun name => (b.entries.lookup name).map .int

end Bindings

end ExprTree
