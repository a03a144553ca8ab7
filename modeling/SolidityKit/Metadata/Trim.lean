/-
Trimming compiler metadata.

Verification needs the sources and the settings of a compilation, not where the sources were
published, who compiled them or what came out.  Trimming drops those keys and keeps everything else,
in its order.
-/
import SolidityKit.Value.Basic

namespace SolidityKit.Metadata

/-- The keys of a source that are dropped. -/
def sourceKeys : List String := ["urls", "license", "keccak256"]

/-- The keys of the metadata that are dropped. -/
def outerKeys : List String := ["compiler", "version", "output"]

/-- The keys of the settings that are dropped. -/
def settingsKeys : List String := ["compilationTarget"]

/-- A map without some keys; any other value as it is. -/
def dropKeys (names : List String) : Value → Value
  | .map es => .map (Entries.dropFields names es)
  | v => v

/-- The description of each source without the keys that are dropped. -/
def trimSources : Value → Value
  | .map es => .map (es.map fun e => (e.1, dropKeys sourceKeys e.2))
  | v => v

/-- One entry of the metadata, trimmed. -/
def trimEntry (e : Scalar × Value) : Scalar × Value :=
  if e.1 = .text "sources" then (e.1, trimSources e.2)
  else if e.1 = .text "settings" then (e.1, dropKeys settingsKeys e.2)
  else e

/-- The metadata without the keys that verification does not need. -/
def trim (es : Entries) : Entries := (Entries.dropFields outerKeys es).map trimEntry

end SolidityKit.Metadata
