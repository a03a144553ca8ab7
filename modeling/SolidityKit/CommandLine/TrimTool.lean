/-
The tool that trims the metadata of build artifacts.
-/
import SolidityKit.CommandLine.Tool
import SolidityKit.Metadata.Artifacts

namespace SolidityKit.CommandLine

namespace TrimTool

/-- The name of the tool. -/
def name : String := "trim_build_metadata"

/-- The line that says what became of an artifact. -/
def outcomeLine (o : Metadata.Outcome) : Points :=
  match o.status with
  | .trimmed size => o.path.spelling ++ s!" size: {size}"
  | status => o.path.spelling ++ s!" {status.name}"

/-- The contracts that were asked for, or else those of the settings; nothing if the settings are refused. -/
def contracts? (reader : Settings.Reader) (g : Given) : Action (Option (List Points)) := do
  match Given.all "contract" g with
  | [] => return (← Tool.settings? reader name (Given.last? "config" g)).map (·.metadataTargets)
  | given => return some given

/-- Trims the artifacts and tells what became of each. -/
def work (reader : Settings.Reader) (g : Given) (_ : Path) : Action Nat := do
  let some contracts ← contracts? reader g | return 2
  if contracts.isEmpty then
    Tool.complain name "no targets (metadata_targets is empty)"
    return 0
  let dir ← Tool.givenPath? "out" g
  let outcomes ← Metadata.trimAll dir contracts
  outcomes.forM fun o => Action.tellResult (outcomeLine o)
  return 0

end TrimTool

/-- Trims the metadata of build artifacts. -/
def trimTool (reader : Settings.Reader) : Tool where
  name := TrimTool.name
  purpose := "Trim compiler metadata in forge build artifacts"
  switches := [⟨"config", .text, none⟩, ⟨"out", .text, none⟩, ⟨"contract", .text, none⟩]
  work := TrimTool.work reader

end SolidityKit.CommandLine
