/-
Workspaces and actions in them.

A workspace is what a tool finds when it starts and what it leaves behind: a file tree, a current
directory, variables, and what was told on the way.  An action changes a workspace and gives a
result or fails; what it did before it failed stays done.
-/
import SolidityKit.Workspace.Failure

namespace SolidityKit

/-- How much a notice matters. -/
inductive Level where
  /-- For those who look for a fault. -/
  | debug
  /-- For those who want to know what happened. -/
  | info
  /-- Something did not work. -/
  | warning
  /-- A whole job did not work. -/
  | error
deriving DecidableEq, Repr

/-- The name of a level. -/
def Level.name : Level → String
  | debug => "DEBUG"
  | info => "INFO"
  | warning => "WARNING"
  | error => "ERROR"

/-- Something that was told. -/
inductive Line where
  /-- A notice. -/
  | notice (level : Level) (words : Points)
  /-- A line of the result. -/
  | result (words : Points)
  /-- A line about what went wrong. -/
  | complaint (words : Points)
deriving DecidableEq, Repr

/-- What a tool finds and leaves behind. -/
structure Workspace where
  /-- The file tree. -/
  tree : Node
  /-- The current directory. -/
  cwd : Files.Place := []
  /-- The variables, in no particular order. -/
  environment : List (String × Points) := []
  /-- The home directory of whoever runs the tool, where no variable names it. -/
  ownHome : Points := "/"
  /-- The home directories of others, by name. -/
  homes : List (Points × Points) := []
  /-- The project root that was found last, and what the search started from. -/
  knownRoot : Option (Option Path × Path) := none
  /-- What was told, latest first. -/
  told : List Line := []
  /-- Which surrogates the stream of results takes; a stream of UTF-8 takes none. -/
  streamTakes : CodePoint → Bool := fun _ => false
  /-- The network. -/
  network : Rpc.Network := {}

/-- An action in a workspace. -/
abbrev Action := ExceptT Failure (StateM Workspace)

namespace Action

/-- Tells a line. -/
def tell (l : Line) : Action Unit := modify fun w => { w with told := l :: w.told }

/-- Tells a notice. -/
def notice (level : Level) (words : Points) : Action Unit := tell (.notice level words)

/-- Takes a result, or fails with what the fault amounts to. -/
def ofExcept {ε α : Type} (failure : ε → Failure) : Except ε α → Action α
  | .ok a => pure a
  | .error e => throw (failure e)

/-- The value of a variable. -/
def valueOf? (name : String) : Action (Option Points) := do
  return (← get).environment.lookup name

/-- The value of a variable that is set and not empty. -/
def nonemptyValueOf? (name : String) : Action (Option Points) := do
  return (← valueOf? name).filter (· ≠ [])

/-- Fails if a text has no bytes, apart from those that surrogates stand for where they are allowed. -/
def checkEncodable (allowed : CodePoint → Bool) (cs : Points) : Action Unit :=
  match Utf8.firstSurrogates allowed 0 cs with
  | some l => throw (.encoding l)
  | none => pure ()

/-- Fails if the system cannot take a text as a path, a name or a value. -/
def checkUsable (cs : Points) : Action Unit := do
  checkEncodable CodePoint.isByte cs
  if .char '\x00' ∈ cs then throw .nulCharacter

/-- Sets a variable unless it is set; a name or value that no variable can have is a failure. -/
def setIfUnset (name : String) (value : Points) : Action Unit := do
  if (← valueOf? name).isNone then
    checkUsable value
    checkUsable name
    if name = "" then throw .badVariable
    modify fun w => { w with environment := w.environment ++ [(name, value)] }

/-- Tells a line of the result, if the stream of results takes it. -/
def tellResult (words : Points) : Action Unit := do
  checkEncodable (← get).streamTakes words
  tell (.result words)

/-- Runs an action of the network. -/
def onNetwork {α : Type} (act : StateM Rpc.Network α) : Action α := do
  let w ← get
  let (a, network) := act.run w.network
  set { w with network }
  return a

end Action

end SolidityKit
