/-
The tool that fetches the receipts missing from a broadcast record.
-/
import SolidityKit.CommandLine.Tool
import SolidityKit.Receipts.RecordFile

namespace SolidityKit.CommandLine

namespace BackfillTool

/-- The name of the tool. -/
def name : String := "backfill_broadcast_receipts"

/-- The value of an option, or else of a variable, unless it is empty. -/
def given? (option name : String) (g : Given) : Action (Option Points) := do
  match Given.last? option g with
  | some value => return (some value).filter (· ≠ [])
  | none => Action.nonemptyValueOf? name

/-- The script that was asked for, or else that of the settings; nothing if the settings are refused. -/
def script? (reader : Settings.Reader) (g : Given) : Action (Option Points) := do
  match Given.nonempty? "script" g with
  | some script => return some script
  | none => return (← Tool.settings? reader name none).map (·.broadcastScript)

/-- The record: the one at a given path, or else that of a script on a network; nothing after a complaint. -/
def target? (reader : Settings.Reader) (g : Given) : Action (Option Path) := do
  match ← Tool.givenPath? "path" g with
  | some path => return some path
  | none =>
    let some network ← given? "network-id" "NETWORK_ID" g
      | Tool.complain name "NETWORK_ID is not set (--network-id or $NETWORK_ID)"
        return none
    let some script ← script? reader g | return none
    return some (← Project.broadcastRecord script network)

/-- How many seconds to wait for the node. -/
def timeout (g : Given) : Binary64 :=
  ((Given.last? "timeout" g).bind numberOf?).getD (.ofInt 30)

/-- Completes the record and complains about each receipt that could not be fetched. -/
def complete (target : Path) (client : Rpc.Client) : Action Nat := do
  let report ← Receipts.completeFile target client
  report.failures.forM fun (place, message) => Action.tell (.complaint (s!"tx[{place}]: " ++ message))
  return if report.ok then 0 else 1

/-- Finds the record and the node, and completes the record. -/
def work (reader : Settings.Reader) (g : Given) (_ : Path) : Action Nat := do
  let some address ← given? "rpc" "RPC" g
    | Tool.complain name "RPC is not set (--rpc or $RPC)"
      return 2
  let some target ← target? reader g | return 2
  if !(← Action.pathExists target) then
    Tool.complain name ("broadcast record not found: " ++ target.spelling)
    return 2
  match Rpc.Client.ofAddress address ((timeout g).toText .plain) with
  | .error f =>
    Tool.complain name f.message
    return 2
  | .ok client => complete target client

end BackfillTool

/-- Fetches the receipts missing from a broadcast record. -/
def backfillTool (reader : Settings.Reader) : Tool where
  name := BackfillTool.name
  purpose := "Backfill missing receipts in a forge broadcast run-latest.json"
  switches := [⟨"rpc", .text, none⟩, ⟨"network-id", .text, none⟩, ⟨"script", .text, none⟩,
    ⟨"path", .text, none⟩, ⟨"timeout", .number, none⟩]
  loadsVariables := true
  asksNode := true
  work := BackfillTool.work reader

end SolidityKit.CommandLine
