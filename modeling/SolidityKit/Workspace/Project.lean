/-
Where things are in a project.

The project root is the nearest directory, from the current one upwards, that holds one of the
project markers, or the current directory if none does; a variable overrides it.  The root that was
found last is remembered together with what the search started from, so that asking twice in a row
gives the same answer even if the current directory or the variable has changed.  Everything else has
a fixed place below the root.
-/
import SolidityKit.Workspace.FileAccess

namespace SolidityKit.Project

open SolidityKit.Action

/-- The files that mark a project. -/
def markers : List String := ["foundry.toml", "hardhat.config.js", "hardhat.config.ts", "pyproject.toml"]

/-- Whether a directory holds a marker. -/
def hasMarker (dir : Path) : Action Bool := markers.anyM fun (m : String) => pathExists (dir / m)

/-- The first of some directories that holds a marker. -/
def firstMarked? : List Path → Action (Option Path)
  | [] => return none
  | dir :: more => do if ← hasMarker dir then return some dir else firstMarked? more

/-- Looks for the project root, from a path or from the current directory. -/
def searchRoot (start : Option Path) : Action Path := do
  if let some given ← nonemptyValueOf? "FLAT_REPO_ROOT" then
    return ← resolve (← expandHome (Path.ofPoints given))
  let start ← start.elim (do resolve ⟨.top, (← get).cwd⟩) pure
  let first := if ← isDir start then start else start.parent
  match ← firstMarked? (first :: first.parents) with
  | some dir => resolve dir
  | none => resolve first

/-- The project root; the last answer is remembered with what the search started from. -/
def rootFrom (start : Option Path) : Action Path := do
  match (← get).knownRoot with
  | some (s, root) => if s = start then return root else search
  | none => search
where
  /-- Searches and remembers the answer. -/
  search : Action Path := do
    let root ← searchRoot start
    modify fun w => { w with knownRoot := some (start, root) }
    return root

/-- The project root. -/
def root : Action Path := rootFrom none

/-- Forgets the project root. -/
def forgetRoot : Action Unit := modify fun w => { w with knownRoot := none }

/-- A path below a base, or below the project root if no base is given; absolute paths stay. -/
def locate (p : Path) (base : Option Path) : Action Path := do
  let p ← expandHome p
  if p.isAbsolute then return p
  return (← base.elim root pure) / p

/-- A path below a base, or below the project root if no base is given; absolute paths stay. -/
def locatePoints (cs : Points) (base : Option Path) : Action Path := locate (Path.ofPoints cs) base

/-- The directory of settings files. -/
def configs : Action Path := do return (← root) / "configs"

/-- The settings file. -/
def settingsFile : Action Path := do return (← configs) / "flatten.yaml"

/-- The settings file of one developer, laid over the other. -/
def localSettingsFile : Action Path := do return (← configs) / "flatten.local.yaml"

/-- The directory of build artifacts; a variable overrides it. -/
def buildOutput : Action Path := do
  match ← nonemptyValueOf? "FLAT_FORGE_OUT" with
  | some given => resolve (← expandHome (Path.ofPoints given))
  | none => return (← root) / "out"

/-- The directory of broadcast records. -/
def broadcasts : Action Path := do return (← root) / "broadcast"

/-- The directory of coverage summaries. -/
def coverage : Action Path := do return (← root) / "coverage"

/-- The tracefile. -/
def tracefile : Action Path := do return (← root) / "lcov.info"

/-- The coverage summary in a directory, or in the usual one. -/
def coverageSummary (dir : Option Path) : Action Path := do
  return (← dir.elim coverage pure) / "coverage-summary.json"

/-- The build artifact of a contract, in a directory or in the usual one. -/
def buildArtifact (contract : Points) (dir : Option Path) : Action Path := do
  let named (ending : Points) : Points := contract ++ ending
  return (← dir.elim buildOutput pure) / named ".sol" / named ".json"

/-- The broadcast record of a script on a network. -/
def broadcastRecord (script network : Points) : Action Path := do
  return (← broadcasts) / script / network / "run-latest.json"

end SolidityKit.Project
