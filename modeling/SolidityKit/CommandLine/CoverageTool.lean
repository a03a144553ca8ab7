/-
The tool that sums up the coverage in a tracefile.
-/
import SolidityKit.CommandLine.Tool
import SolidityKit.Coverage.SummaryFile

namespace SolidityKit.CommandLine

namespace CoverageTool

/-- The name of the tool. -/
def name : String := "lcov_summary"

/-- Writes the summary and tells it; a file that cannot be used, or a tracefile without records, is
complained about. -/
def summarize (tracefile dir : Option Path) : Action Nat :=
  tryCatchThe Failure
    (do
      let summary ← Coverage.writeSummary tracefile dir
      Action.tellResult (Json.print (.indented 2) summary.document)
      return 0)
    fun
      | .file f => do
        Tool.complain name f.message
        return 1
      | .coverage .noRecords => do
        Tool.complain name (Coverage.Fault.message .noRecords)
        return 1
      | f => throw f

/-- Finds the files and sums up. -/
def work (g : Given) (_ : Path) : Action Nat := do
  let tracefile ← Tool.givenPath? "lcov" g
  let dir ← Tool.givenPath? "out-dir" g
  summarize tracefile dir

end CoverageTool

/-- Sums up the coverage in a tracefile. -/
def coverageTool : Tool where
  name := CoverageTool.name
  purpose := "Summarize lcov.info into coverage-summary.json"
  switches := [⟨"lcov", .text, none⟩, ⟨"out-dir", .text, none⟩]
  work := CoverageTool.work

end SolidityKit.CommandLine
