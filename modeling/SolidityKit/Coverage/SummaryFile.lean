/-
Writing the coverage summary of a tracefile.

Everything that can go wrong with the tracefile and its counters does so before the summary's file is
touched.
-/
import SolidityKit.Workspace.Project

namespace SolidityKit.Coverage

open SolidityKit.Action

/-- The text of a summary, unless a counter is too long to be written. -/
def Summary.text (s : Summary) : Except Fault Points :=
  if s.document.isWritable then .ok (Json.print (.indented 2) s.document) else .error .longNumeral

/-- Sums up a tracefile and writes the summary, each at a given path or at the usual one. -/
def writeSummary (tracefile dir : Option Path) : Action Summary := do
  let source ← tracefile.elim Project.tracefile pure
  let t ← readText source
  let records ← ofExcept .coverage (read t)
  let summary ← ofExcept .coverage (summarize records)
  let target ← Project.coverageSummary dir
  makeDirs target.parent
  let text ← ofExcept .coverage summary.text
  writePoints target text
  notice .info (source.spelling ++ s!": {records.length} record(s) summarized -> " ++ target.spelling)
  return summary

end SolidityKit.Coverage
