import ExprTree.CommandLine.Binding
import ExprTree.Text.Control

/-! # Command-line arguments

Four flags, two options with a value, and one positional argument. The value of an option stands
behind an equals sign or in the next argument; in the second case it is checked when the next option
or positional argument is taken up, or at the end. After the flag that asks for help nothing more is
read. -/

namespace ExprTree

inductive Flag where
  | list | fixpoint | json | help
  deriving DecidableEq

inductive ValueOption where
  | maxPasses | bind
  deriving DecidableEq

def Flag.usage : Flag → String
  | .list => "--list"
  | .fixpoint => "--fixpoint"
  | .json => "--json"
  | .help => "--help"

def ValueOption.usage : ValueOption → String
  | .maxPasses => "--max-passes <MAX_PASSES>"
  | .bind => "--bind <NAME=INT>"

inductive UsageError where
  | unexpectedArgument (argument : String)
  | unexpectedValue (flag : Flag) (value : String)
  | repeatedFlag (flag : Flag)
  | repeatedOption (option : ValueOption)
  | missingValue (option : ValueOption)
  | invalidNumber (value : String) (reason : NumberError)
  | invalidBinding (value : String) (reason : BindingError)
  | maxPassesWithoutFixpoint

namespace UsageError

private def marked (s : String) : String := "\x1b[1m" ++ s ++ "\x1b[0m"

private def quoted (s : String) : String := "'" ++ marked s ++ "'"

private def repeated (usage : String) : String :=
  "the argument " ++ quoted usage ++ " cannot be used multiple times"

private def invalid (value : String) (option : ValueOption) (reason : String) : String :=
  "invalid value " ++ quoted value ++ " for " ++ quoted option.usage ++ ": " ++ reason

def cause : UsageError → String
  | .unexpectedArgument argument => "unexpected argument " ++ quoted argument ++ " found"
  | .unexpectedValue flag value =>
    "unexpected value " ++ quoted value ++ " for " ++ quoted flag.usage ++
      " found; no more were expected"
  | .repeatedFlag flag => repeated flag.usage
  | .repeatedOption option => repeated option.usage
  | .missingValue option =>
    "a value is required for " ++ quoted option.usage ++ " but none was supplied"
  | .invalidNumber value reason => invalid value .maxPasses reason.message
  | .invalidBinding value reason => invalid value .bind reason.message
  | .maxPassesWithoutFixpoint =>
    "the following required arguments were not provided:\n  " ++ marked Flag.fixpoint.usage

def terminalMessage (e : UsageError) : String :=
  marked "error:" ++ " " ++ e.cause ++
    "\n\nFor more information, try " ++ quoted Flag.help.usage ++ ".\n"

/-- The message without control sequences, those that came with the arguments included. One that
the arguments leave unfinished takes with it what follows, up to the next text that is marked. -/
def message (e : UsageError) : String := withoutControl e.terminalMessage

theorem isVisible_of_mem_message {e : UsageError} {c : Char} (h : c ∈ e.message.toList) :
    isVisible c = true :=
  isVisible_of_mem_withoutControl h

/-- Whatever the arguments hold, nothing is left in a message that a terminal would not show. -/
theorem withoutControl_message (e : UsageError) : withoutControl e.message = e.message :=
  withoutControl_eq_self fun _ => isVisible_of_mem_message

end UsageError

structure Arguments where
  scenario : Option String := none
  list : Bool := false
  fixpoint : Bool := false
  json : Bool := false
  help : Bool := false
  maxPasses : Option Nat := none
  bindings : List (String × Int64) := []

inductive Pending where
  | none
  | awaiting (option : ValueOption)
  | given (option : ValueOption) (value : String)

inductive Form where
  /-- The two dashes after which everything is positional. -/
  | separator
  | long (name : String) (value : Option String)
  | short (name : Char)
  /-- A text that is a value where one is awaited, and positional otherwise. -/
  | plain

/-- The form of an argument. A single dash is plain. -/
def Form.of (argument : String) : Form :=
  match argument.toList with
  | ['-', '-'] => .separator
  | '-' :: '-' :: body =>
    let name := String.ofList (body.takeWhile (· ≠ '='))
    match body.dropWhile (· ≠ '=') with
    | [] => .long name none
    | _ :: value => .long name (some (String.ofList value))
  | '-' :: c :: _ => .short c
  | _ => .plain

def Flag.named? (name : String) : Option Flag :=
  [Flag.list, .fixpoint, .json, .help].find? (·.usage = "--" ++ name)

def ValueOption.named? : String → Option ValueOption
  | "max-passes" => some .maxPasses
  | "bind" => some .bind
  | _ => none

namespace Arguments

def has (a : Arguments) : Flag → Bool
  | .list => a.list
  | .fixpoint => a.fixpoint
  | .json => a.json
  | .help => a.help

def setFlag (a : Arguments) (flag : Flag) : Except UsageError Arguments :=
  if a.has flag then .error (.repeatedFlag flag)
  else .ok (match flag with
    | .list => { a with list := true }
    | .fixpoint => { a with fixpoint := true }
    | .json => { a with json := true }
    | .help => { a with help := true })

/-- Takes up the value of an option. The number of passes may be given once. -/
def setOption (a : Arguments) (option : ValueOption) (value : String) :
    Except UsageError Arguments :=
  match option with
  | .maxPasses =>
    if a.maxPasses.isSome then .error (.repeatedOption .maxPasses)
    else
      match readWord value.toList with
      | .ok n => .ok { a with maxPasses := some n }
      | .error reason => .error (.invalidNumber value reason)
  | .bind =>
    match readBinding value with
    | .ok binding => .ok { a with bindings := a.bindings ++ [binding] }
    | .error reason => .error (.invalidBinding value reason)

def settle (a : Arguments) : Pending → Except UsageError Arguments
  | .none => .ok a
  | .awaiting option => .error (.missingValue option)
  | .given option value => a.setOption option value

/-- Takes a positional argument, of which there may be one. An argument that has no place is
reported before anything that is wrong with a pending value. -/
def setScenario (a : Arguments) (pending : Pending) (name : String) :
    Except UsageError Arguments :=
  if a.scenario.isSome then .error (.unexpectedArgument name)
  else do
    let a ← a.settle pending
    return { a with scenario := some name }

def readPositional (a : Arguments) (pending : Pending) :
    List String → Except UsageError Arguments
  | [] => a.settle pending
  | argument :: rest => do
    let a ← a.setScenario pending argument
    readPositional a .none rest

def readFrom (a : Arguments) (pending : Pending) : List String → Except UsageError Arguments
  | [] => a.settle pending
  | argument :: rest =>
    match Form.of argument, pending with
    | .separator, _ => a.readPositional pending rest
    | .long name value, _ =>
      match Flag.named? name, ValueOption.named? name, value with
      | some flag, _, some value => .error (.unexpectedValue flag value)
      | some flag, _, none => do
        let a ← a.settle pending
        let a ← a.setFlag flag
        if flag = .help then return a
        readFrom a .none rest
      | none, some option, some value => do
        let a ← a.settle pending
        let a ← a.setOption option value
        readFrom a .none rest
      | none, some option, none => do
        let a ← a.settle pending
        readFrom a (.awaiting option) rest
      | none, none, _ => .error (.unexpectedArgument ("--" ++ name))
    | .short 'h', _ => do
      let a ← a.settle pending
      a.setFlag .help
    | .short name, _ => .error (.unexpectedArgument (String.ofList ['-', name]))
    | .plain, .awaiting option => readFrom a (.given option argument) rest
    | .plain, pending => do
      let a ← a.setScenario pending argument
      readFrom a .none rest

/-- Reads a command line. A number of passes makes sense for a fixpoint search only. -/
def read (arguments : List String) : Except UsageError Arguments := do
  let a ← ({} : Arguments).readFrom .none arguments
  if a.maxPasses.isSome && !a.fixpoint && !a.help then .error .maxPassesWithoutFixpoint
  else .ok a

def defaultScenario : String := "demo"

/-- How many passes a fixpoint search makes when no number is given. -/
def defaultPasses : Nat := 8

def scenarioName (a : Arguments) : String := a.scenario.getD defaultScenario

def passes (a : Arguments) : Nat := a.maxPasses.getD defaultPasses

end Arguments

end ExprTree
