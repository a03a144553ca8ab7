/-
Normalising one source before it joins a merged artifact.

The steps run in a fixed order, and later ones rely on earlier ones: licence lines, relative
imports (their content is merged in anyway), boilerplate comments, file markers, all version
directives but the first, runs of blank lines, and blanks at either end.  `Removed` counts
what each rule took out.
-/
import SolidityKit.Text.Lines
import SolidityKit.Source.Shapes

namespace SolidityKit

/-- How many pieces of text each rule removed. -/
structure Removed where
  /-- Boilerplate comments. -/
  boilerplate : Nat := 0
  /-- File markers. -/
  fileMarkers : Nat := 0
  /-- Licence lines. -/
  licenses : Nat := 0
  /-- Relative imports, of names or whole. -/
  relativeImports : Nat := 0
  /-- Version directives after the first. -/
  directives : Nat := 0
deriving DecidableEq, Repr

namespace Removed

instance : Add Removed where
  add a b :=
    { boilerplate := a.boilerplate + b.boilerplate
      fileMarkers := a.fileMarkers + b.fileMarkers
      licenses := a.licenses + b.licenses
      relativeImports := a.relativeImports + b.relativeImports
      directives := a.directives + b.directives }

/-- The counts above zero with the names of their rules, in the order of those names. -/
def named (r : Removed) : List (String × Nat) :=
  [("boilerplate_comment", r.boilerplate), ("file_marker", r.fileMarkers), ("license", r.licenses),
   ("relative_import", r.relativeImports), ("version_directive", r.directives)].filter (0 < ·.2)

end Removed

/-- A normalised source and what was removed on the way. -/
structure Normalized where
  /-- The remaining text. -/
  text : Text
  /-- What was removed. -/
  removed : Removed
deriving DecidableEq, Repr

namespace Source

open Pattern

/-- A text without the matches of a pattern, and how many there were. -/
def removeAll (p : Pattern) (t : Text) : Text × Nat :=
  (p.replaceAll (fun _ => []) t, (p.allMatches t).length)

/-- A text without its boilerplate comments, and how many there were; other comments stay. -/
def removeBoilerplate (t : Text) : Text × Nat :=
  (Shape.blockComment.replaceAll (fun m => if Text.isBoilerplate m.text then [] else m.text) t,
   (Shape.blockComment.allMatches t).countP fun m => Text.isBoilerplate m.text)

/--
Keeps the first version directive among the pieces, unless one was kept before, and drops the others.
The answer holds the remaining text and the directives, in order.
-/
def keepFirst : (kept : Bool) → List Piece → Text
  | _, [] => []
  | kept, .plain c :: more => c :: keepFirst kept more
  | false, .hit m :: more => m.text ++ keepFirst true more
  | true, .hit _ :: more => keepFirst true more

/-- A text with its first version directive only, and how many were dropped. -/
def keepFirstDirective (t : Text) : Text × Nat :=
  (keepFirst false (Shape.versionDirective.pieces t), (Shape.versionDirective.allMatches t).length - 1)

/-- A text in which each run of blank lines is one line feed. -/
def collapseBlankRuns (t : Text) : Text := Shape.blankRun.replaceAll (fun _ => ['\n']) t

/-- Normalises a source. -/
def normalize (t : Text) : Normalized :=
  let (t, licenses) := removeAll Shape.licenseLine (Text.unifyLineEnds t)
  let (t, importsOfNames) := removeAll Shape.relativeImportOfNames t
  let (t, imports) := removeAll Shape.relativeImport t
  let (t, boilerplate) := removeBoilerplate t
  let (t, fileMarkers) := removeAll Shape.fileMarker t
  let (t, directives) := keepFirstDirective t
  { text := Text.trim (collapseBlankRuns t)
    removed :=
      { boilerplate, fileMarkers, licenses, relativeImports := importsOfNames + imports, directives } }

end Source

end SolidityKit
