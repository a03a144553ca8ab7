/-
Completing the broadcast record in a file.

The record is written back even if nothing was fetched.  If the round breaks off, the file stays as
it was.
-/
import SolidityKit.Workspace.Project

namespace SolidityKit.Receipts

open SolidityKit.Action

/-- Tells what happened while receipts were fetched. -/
def tellNotice (n : Notice) : Action Unit :=
  match n with
  | .failed .. => notice .warning n.message
  | .pending .. => notice .info n.message

/-- Completes the record in a file with what the node answers. -/
def completeFile (path : Path) (client : Rpc.Client) : Action Report := do
  let t ← readText path
  let record ← ofExcept .json (Json.read t)
  let round ← onNetwork (backfill record client.receipt)
  round.notices.forM tellNotice
  let report ← ofExcept .receipts round.outcome
  writePoints path (Json.print (.indented 2) round.record)
  notice .info (path.spelling ++ s!": fetched {report.fetched.length} receipt(s), "
    ++ s!"{report.pending.length} pending, {report.failures.length} failed")
  return report

end SolidityKit.Receipts
