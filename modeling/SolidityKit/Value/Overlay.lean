/-
Laying one document over another.

Where both documents have a map at a key, the maps are laid over each other in turn; everywhere
else the upper document wins, lists included.  Keys of the lower document keep their places, and
keys that only the upper one has follow.
-/
import SolidityKit.Value.Basic

namespace SolidityKit

mutual

/-- The entries of `base` with those of another document laid over them. -/
def Entries.overlay (base : Entries) : List (Scalar × Value) → Entries
  | [] => base
  | (k, v) :: rest => Entries.overlay (base.insert k (Value.overlay (base.get? k) v)) rest

/-- A value laid over what was there before. -/
def Value.overlay (old : Option Value) : Value → Value
  | .map new =>
    match old with
    | some (.map es) => .map (Entries.overlay es new)
    | _ => .map new
  | v => v

end

end SolidityKit
