/-
The tool that merges the sources of a project into two artifacts.
-/
import SolidityKit.CommandLine.Tool
import SolidityKit.Flatten.Jobs

namespace SolidityKit.CommandLine

namespace FlattenTool

/-- The name of the tool. -/
def name : String := "flatten_contracts"

/-- Complains about each job that failed. -/
def tellFailures (r : Flatten.Report) : Action Unit :=
  r.failures.forM fun (job, message) => Tool.complain name (job ++ ": FAILED: " ++ message)

/-- Runs the jobs; nothing is there to complain about one by one if a source directory is missing. -/
def runJobs (s : Settings) (base : Path) (only : List Points) : Action Nat :=
  tryCatchThe Failure
    (do
      let report ← Flatten.run s base only
      tellFailures report
      return if report.ok then 0 else 1)
    fun
      | .file ⟨.notFound, path⟩ => do
        Tool.complain name s!"source root missing: {(Files.Fault.mk .notFound path).message}"
        return 2
      | f => throw f

/-- Loads the settings and runs the jobs. -/
def work (reader : Settings.Reader) (g : Given) (root : Path) : Action Nat := do
  let some s ← Tool.settings? reader name (Given.last? "config" g) | return 2
  let base ← Tool.givenPath? "root" g
  runJobs s (base.getD root) (Given.all "only" g)

end FlattenTool

/-- Merges the sources of a project into two artifacts. -/
def flattenTool (reader : Settings.Reader) : Tool where
  name := FlattenTool.name
  purpose := "Flatten Solidity sources into flat/contracts.sol + flat/tests.sol"
  switches := [⟨"config", .text, none⟩, ⟨"root", .text, none⟩,
    ⟨"only", .choice Flatten.jobNames, none⟩, verbose]
  work := FlattenTool.work reader

end SolidityKit.CommandLine
