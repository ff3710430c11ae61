/-! # Messages

What a simplification reports while it runs, and computations that carry their messages along in
the order in which they arise. -/

namespace ExprTree

inductive Level where
  | trace | debug | warn
  deriving DecidableEq

def Level.name : Level → String
  | .trace => "trace"
  | .debug => "debug"
  | .warn => "warn"

/-- A message. Expressions appear in it as their texts. -/
inductive Message where
  /-- The transformer or rule group `name` changed the text of a node. -/
  | changed (name before after : String)
  /-- An extension is being replaced by what its reducer makes of it. -/
  | reducing (name : String)
  /-- Reduction was cut off after so many steps. -/
  | unsettled (steps : Nat)
  /-- A pass of a fixpoint search ended with this text. -/
  | pass (index : Nat) (text : String)
  deriving DecidableEq

namespace Message

def level : Message → Level
  | .changed .. | .reducing _ => .trace
  | .unsettled _ => .warn
  | .pass .. => .debug

def text : Message → String
  | .changed name before after => name ++ ": " ++ before ++ " => " ++ after
  | .reducing name => "reducing @" ++ name
  | .unsettled steps => "extension reduction did not settle after " ++ toString steps ++ " steps"
  | .pass index text => "pass " ++ toString index ++ ": " ++ text

end Message

/-- A value together with the messages that led to it. -/
structure Traced (α : Type) where
  log : List Message
  value : α

namespace Traced

variable {α β : Type}

instance : Monad Traced where
  pure a := ⟨[], a⟩
  bind x f :=
    let y := f x.value
    ⟨x.log ++ y.log, y.value⟩

def report (message : Message) : Traced Unit := ⟨[message], ()⟩

@[simp] theorem value_pure (a : α) : (pure a : Traced α).value = a := rfl

@[simp] theorem log_pure (a : α) : (pure a : Traced α).log = [] := rfl

@[simp] theorem value_bind (x : Traced α) (f : α → Traced β) :
    (x >>= f).value = (f x.value).value := rfl

@[simp] theorem log_bind (x : Traced α) (f : α → Traced β) :
    (x >>= f).log = x.log ++ (f x.value).log := rfl

@[simp] theorem log_report (message : Message) : (report message).log = [message] := rfl

instance : LawfulMonad Traced := LawfulMonad.mk' Traced
  (fun x => by simp [Functor.map])
  (fun a f => by simp [bind, pure])
  (fun x f g => by simp [bind])

end Traced

end ExprTree
