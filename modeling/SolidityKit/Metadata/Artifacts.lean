/-
Trimming the build artifacts of a project.

A build artifact that has metadata is replaced by that metadata, trimmed.  Artifacts that are not
there, or that have no metadata, are passed over and reported.
-/
import SolidityKit.Workspace.Project
import SolidityKit.Metadata.Trim

namespace SolidityKit.Metadata

open SolidityKit.Action

/-- What became of an artifact. -/
inductive Status where
  /-- It was trimmed and now has so many bytes. -/
  | trimmed (size : Nat)
  /-- It is not there. -/
  | missing
  /-- It has no metadata. -/
  | noMetadata
deriving DecidableEq, Repr

namespace Status

/-- The name of a status. -/
def name : Status → String
  | trimmed _ => "trimmed"
  | missing => "skipped_missing"
  | noMetadata => "skipped_no_metadata"

/-- The size of a trimmed artifact. -/
def size? : Status → Option Nat
  | trimmed n => some n
  | _ => none

/-- Whether the artifact was passed over. -/
def isSkipped (s : Status) : Bool := s.size?.isNone

end Status

/-- What became of the artifact of a contract. -/
structure Outcome where
  /-- The contract. -/
  contract : Points
  /-- Its artifact. -/
  path : Path
  /-- What became of it. -/
  status : Status
deriving DecidableEq, Repr

/-- The metadata of an artifact, if it is a map that has a map there. -/
def metadataOf (v : Value) : Option Entries := (v.field? "metadata").bind Value.entries?

/-- The text of trimmed metadata, each entry on a line of its own. -/
def trimmedText (es : Entries) : Points := Json.print (.indented 1) (.map (trim es))

/-- Trims the artifact of a contract. -/
def trimArtifact (dir : Option Path) (contract : Points) : Action Outcome := do
  let path ← Project.buildArtifact contract dir
  if !(← pathExists path) then
    notice .info (contract ++ ": artifact not found, skipping (" ++ path.spelling ++ ")")
    return ⟨contract, path, .missing⟩
  let t ← readText path
  let v ← ofExcept .json (Json.read t)
  match metadataOf v with
  | none =>
    notice .info (contract ++ ": no metadata in artifact, skipping")
    return ⟨contract, path, .noMetadata⟩
  | some es =>
    writePoints path (trimmedText es)
    let size := (← look path Node.readBytes).size
    notice .info (path.spelling ++ s!" size: {size}")
    return ⟨contract, path, .trimmed size⟩

/-- Trims the artifacts of contracts, each contract once. -/
def trimAll (dir : Option Path) (contracts : List Points) : Action (List Outcome) :=
  contracts.eraseDups.mapM (trimArtifact dir)

end SolidityKit.Metadata
