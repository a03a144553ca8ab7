/-
Everything that can end an action in a workspace early.

Each part of the library has faults of its own; a failure is one of them, or one of the few that
belong to the workspace itself.
-/
import SolidityKit.Flatten.Fault
import SolidityKit.Yaml.Fault
import SolidityKit.Settings.Basic
import SolidityKit.Coverage.Summary
import SolidityKit.Receipts.Backfill

namespace SolidityKit

/-- Why an action ended early. -/
inductive Failure where
  /-- A path cannot be used. -/
  | file (f : Files.Fault)
  /-- A path or a variable holds a NUL character, which none can. -/
  | nulCharacter
  /-- A path starts from a home directory that is not known. -/
  | noHome
  /-- Links lead back to one another. -/
  | linkLoop (path : Points)
  /-- A variable cannot have that name. -/
  | badVariable
  /-- Bytes are no text. -/
  | decoding (f : Utf8.Fault)
  /-- A text that is to be written, a path or a variable has no bytes. -/
  | encoding (l : Utf8.LoneSurrogates)
  /-- A JSON text cannot be read. -/
  | json (f : Json.Fault)
  /-- A whole number is too long to be written. -/
  | longNumeral
  /-- A configuration document cannot be read. -/
  | yaml (f : Yaml.Fault)
  /-- Settings were refused. -/
  | settings (f : Settings.Fault)
  /-- Coverage cannot be summed up. -/
  | coverage (f : Coverage.Fault)
  /-- A broadcast record cannot be completed. -/
  | receipts (f : Receipts.Fault)
  /-- The address of a node was refused. -/
  | url (f : Url.Fault)
  /-- A job of flattening failed. -/
  | job (f : Flatten.Fault)
  /-- Jobs were asked for that are not known. -/
  | unknownJobs (names : List Points)
  /-- A listing order was asked for that is not known. -/
  | unknownOrder (name : Points)

/-- The words for a failure. -/
def Failure.message : Failure → Points
  | file f => f.message
  | nulCharacter => "embedded null byte"
  | noHome => "Could not determine home directory."
  | linkLoop path => s!"Symlink loop from {path.inQuotes}"
  | badVariable => "[Errno 22] Invalid argument"
  | decoding f => f.message
  | encoding l => l.message
  | json f => f.message
  | longNumeral => Settings.Fault.longNumeral.message
  | yaml f => f.message
  | settings f => f.message
  | coverage f => f.message
  | receipts f => f.message
  | url f => f.message
  | job f => f.message
  | unknownJobs names => "unknown job(s): " ++ List.intercalate ", " names
  | unknownOrder name => s!"unknown listing_order: {name.inQuotes}"

end SolidityKit
