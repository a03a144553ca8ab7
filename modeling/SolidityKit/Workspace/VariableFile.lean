/-
Variables from a file, and getting a tool ready.

A variable file has lines with a name, an equals sign and a value, which may stand in quotes.  It
never changes a variable that is set.  `prepare` finds the project root and pins it in a variable, so
that every later question about the project has the same answer.
-/
import SolidityKit.Workspace.Project
import SolidityKit.Text.Lines

namespace SolidityKit.VariableFile

open SolidityKit.Action

/-- The name and the value on a line, if it is neither blank nor a comment and has an equals sign. -/
def binding? (line : Text) : Option (Text × Text) :=
  let t := Text.trim line
  if t.head? = some '#' then none
  else
    (Text.cut? '=' t).map fun (name, value) =>
      (Text.trim name, Text.stripWhile (fun c => c == '"' || c == '\'') (Text.trim value))

/-- The names and values of a variable file, in order. -/
def bindings (t : Text) : List (String × Points) :=
  ((Text.breakLines t).filterMap binding?).map fun b => (String.ofList b.1, .ofText b.2)

/-- The text of a file, or nothing if the file cannot be used; bytes that are no text are a failure. -/
def readIfUsable (p : Path) : Action (Option Text) :=
  tryCatchThe Failure (some <$> readText p) fun
    | .file _ => return none
    | f => throw f

/-- Sets the variables of a file that are not set yet. -/
def load (p : Path) : Action Unit := do
  if ← pathExists p then
    if let some t ← readIfUsable p then
      (bindings t).forM fun b => setIfUnset b.1 b.2

/-- Finds the project root, pins it, and loads the project's variable file if that is wanted. -/
def prepare (loadVariables : Bool) : Action Path := do
  let root ← Project.root
  setIfUnset "FLAT_REPO_ROOT" root.spelling
  if loadVariables then load (root / ".env")
  return root

end SolidityKit.VariableFile
