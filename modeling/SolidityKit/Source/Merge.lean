/-
Merging sources into one artifact.

A merge carries a state from source to source: whether a version directive has been kept, which
external imports have been seen, and what was removed.  The state outlives a call, so that a job
may be merged in batches; the first directive of the job and the first of equal imports survive.
-/
import SolidityKit.Source.Normalize

namespace SolidityKit

/-- Whether a version directive has been kept, and which. -/
structure DirectiveState where
  /-- Whether one has been kept. -/
  kept : Bool := false
  /-- The one that was kept. -/
  directive : Option Text := none
deriving DecidableEq, Repr

/-- The external imports seen so far. -/
structure ImportState where
  /-- The trimmed import lines, latest first, without repetition. -/
  seen : List Text := []
  /-- How many lines were dropped because their import had been seen. -/
  dropped : Nat := 0
deriving DecidableEq, Repr

/-- What a merge carries from source to source. -/
structure MergeState where
  /-- The version directive. -/
  directive : DirectiveState := {}
  /-- The external imports. -/
  imports : ImportState := {}
  /-- What normalising removed. -/
  removed : Removed := {}
deriving DecidableEq, Repr

namespace Source

open Pattern

/--
Keeps a version directive only if none was kept before: at most the first one of the text survives,
and the state remembers it.
-/
def reduceDirectives (t : Text) (s : DirectiveState) : Text × DirectiveState :=
  let pieces := Shape.versionDirective.pieces t
  let first := (pieces.filterMap Piece.match?).head?
  (keepFirst s.kept pieces,
   match s.kept, first with
   | false, some m => { kept := true, directive := some m.text }
   | _, _ => s)

/-- Drops each external import line whose trimmed text has been seen, and remembers the others. -/
def keepNewImports : List Text → ImportState → List Text × ImportState
  | [], s => ([], s)
  | line :: more, s =>
    if Text.isExternalImport line then
      let key := Text.trim line
      if s.seen.contains key then keepNewImports more { s with dropped := s.dropped + 1 }
      else
        let (kept, s) := keepNewImports more { s with seen := key :: s.seen }
        (line :: kept, s)
    else
      let (kept, s) := keepNewImports more s
      (line :: kept, s)

/-- A text without repeated external imports; relative and malformed imports stay. -/
def dedupeImports (t : Text) (s : ImportState) : Text × ImportState :=
  let (kept, s) := keepNewImports (Text.lines t) s
  (Text.joinWith '\n' kept, s)

/-- The part that one source adds to the merged text, without its final line feed. -/
def mergePart (t : Text) (s : MergeState) : Text × MergeState :=
  let normal := normalize t
  let (reduced, directive) := reduceDirectives normal.text s.directive
  -- a dropped directive leaves an empty line behind
  (Text.trim (collapseBlankRuns reduced), { s with directive, removed := s.removed + normal.removed })

/-- The parts of all sources, each closed by a line feed. -/
def mergeParts : List Text → MergeState → Text × MergeState
  | [], s => ([], s)
  | t :: more, s =>
    let (part, s) := mergePart t s
    let (parts, s) := mergeParts more s
    (part ++ '\n' :: parts, s)

/-- Merges sources in the given order. -/
def merge (sources : List Text) (s : MergeState) : Text × MergeState :=
  let (buffer, s) := mergeParts sources s
  let (merged, imports) := dedupeImports buffer s.imports
  (Text.trim merged, { s with imports })

end Source

end SolidityKit
