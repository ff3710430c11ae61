/-! # Control sequences

What is left of a text when the sequences are taken out by which a terminal is told to do something
rather than to show something. A sequence begins with an escape character; its further course
depends on what follows. Main statements: a text of visible characters is left as it is, and only
visible characters are left. -/

namespace ExprTree

/-- The character moves the place of writing: a tab, a line feed, a form feed, a carriage return. -/
def isLayout (c : Char) : Bool :=
  c = '\t' || c = '\n' || c = '\x0c' || c = '\r'

/-- The character is layout, or no control character of the ASCII range. -/
def isVisible (c : Char) : Bool :=
  isLayout c || (' ' ≤ c && c ≠ '\x7f')

/-- Where a short sequence has come to. -/
inductive Sequence where
  /-- The escape character has been read. -/
  | escape
  /-- An escape character and a blank or a mark of punctuation have been read. -/
  | intermediate
  /-- An escape character and a bracket have been read, and parameters may follow. -/
  | parameters
  deriving DecidableEq

/-- Where the header of a device string has come to. -/
inductive DeviceHeader where
  | start
  | parameters
  | intermediate
  deriving DecidableEq

/-- What the next character belongs to. -/
inductive Reading where
  | text
  | sequence (part : Sequence)
  /-- The text that stands between layout inside a sequence and the rest of the sequence. -/
  | suspended (part : Sequence)
  | header (part : DeviceHeader)
  /-- A string for a device, which a string terminator ends. -/
  | device
  /-- A command to the operating system, which a bell ends. -/
  | command
  deriving DecidableEq

/-- What follows a character of a short sequence. A character that has no place in it is skipped. -/
def Sequence.next (part : Sequence) (c : Char) : Reading :=
  match part with
  | .escape =>
    if c = '[' then .sequence .parameters
    else if c = ']' then .command
    else if c = 'P' then .header .start
    else if c = 'X' || c = '^' || c = '_' then .device
    else if ' ' ≤ c && c ≤ '/' then .sequence .intermediate
    else if '0' ≤ c && c ≤ '~' then .text
    else .sequence .escape
  | .intermediate => if '0' ≤ c && c ≤ '~' then .text else .sequence .intermediate
  | .parameters => if '@' ≤ c && c ≤ '~' then .text else .sequence .parameters

/-- What follows a character of a header. Parameters that are out of order spoil the string, which
is skipped all the same. -/
def DeviceHeader.next (part : DeviceHeader) (c : Char) : Reading :=
  if '@' ≤ c && c ≤ '~' then .device
  else if ' ' ≤ c && c ≤ '/' then .header .intermediate
  else
    match part with
    | .start => if '0' ≤ c && c ≤ '?' then .header .parameters else .header .start
    | .parameters => if '<' ≤ c && c ≤ '?' then .device else .header .parameters
    | .intermediate => if '0' ≤ c && c ≤ '?' then .device else .header .intermediate

/-- The string terminator, which also ends a device string as a byte of another character. -/
def stringTerminator : UInt8 := 0x9c

namespace Reading

/-- The character is left in the text. Layout takes effect even inside a short sequence. -/
def shows : Reading → Char → Bool
  | .text, c => isVisible c
  | .suspended _, c => isVisible c
  | .sequence _, c => isLayout c
  | .header _, _ | .device, _ | .command, _ => false

/-- What follows a character. An escape character begins a sequence wherever it stands; cancel and
substitute end one. -/
def next (r : Reading) (c : Char) : Reading :=
  if c = '\x1b' then .sequence .escape
  else if c = '\x18' || c = '\x1a' then .text
  else
    match r with
    | .text => .text
    | .sequence part => if isLayout c then .suspended part else part.next c
    | .suspended part =>
      if !isVisible c then .sequence part
      else if c ≤ '\x7f' then .suspended part
      else .text
    | .header part => part.next c
    | .device => if (String.utf8EncodeChar c).contains stringTerminator then .text else .device
    | .command => if c = '\x07' then .text else .command

/-- What is left of the characters. -/
def shown (r : Reading) : List Char → List Char
  | [] => []
  | c :: rest =>
    if r.shows c then c :: (r.next c).shown rest else (r.next c).shown rest

theorem isVisible_of_shows {r : Reading} {c : Char} (h : r.shows c = true) :
    isVisible c = true := by
  cases r <;> simp_all [shows, isVisible]

theorem text_next_of_isVisible {c : Char} (h : isVisible c = true) : text.next c = text := by
  have hc : c ≠ '\x1b' := by
    rintro rfl
    exact absurd h (by decide)
  simp [next, hc]

theorem text_shown_of_isVisible {s : List Char} (h : ∀ c ∈ s, isVisible c = true) :
    text.shown s = s := by
  induction s with
  | nil => rfl
  | cons c rest ih =>
    have hc := h c List.mem_cons_self
    have hrest := ih fun d hd => h d (List.mem_cons_of_mem c hd)
    simp [shown, shows, hc, text_next_of_isVisible hc, hrest]

theorem isVisible_of_mem_shown {r : Reading} {s : List Char} {c : Char} (h : c ∈ r.shown s) :
    isVisible c = true := by
  induction s generalizing r with
  | nil => simp [shown] at h
  | cons d rest ih =>
    unfold shown at h
    split at h
    · next hd =>
      rcases List.mem_cons.1 h with rfl | h
      · exact isVisible_of_shows hd
      · exact ih h
    · exact ih h

end Reading

/-- The text without control sequences, and without control characters other than layout. -/
def withoutControl (s : String) : String := String.ofList (Reading.text.shown s.toList)

theorem isVisible_of_mem_withoutControl {s : String} {c : Char}
    (h : c ∈ (withoutControl s).toList) : isVisible c = true := by
  rw [withoutControl, String.toList_ofList] at h
  exact Reading.isVisible_of_mem_shown h

theorem withoutControl_eq_self {s : String} (h : ∀ c ∈ s.toList, isVisible c = true) :
    withoutControl s = s := by
  rw [withoutControl, Reading.text_shown_of_isVisible h, String.ofList_toList]

end ExprTree
