/-
Finding the sources of a project.
-/
import SolidityKit.Workspace.Project
import SolidityKit.Files.Listing

namespace SolidityKit.Flatten

open SolidityKit.Action

/-- Which sources to look for. -/
structure Query where
  /-- How the file name of a source ends. -/
  suffix : Points := ".sol"
  /-- Which file names are wanted. -/
  wanted : Files.Name → Bool := fun _ => true
  /-- Further sources, listed after those that were found; they need not be there. -/
  extra : List Path := []
  /-- The name of a listing order. -/
  order : Points := "sorted"

/-- Whether a name contains a marker. -/
def contains (marker : Points) (name : Files.Name) : Bool := Text.containsText marker name

/-- The sources below a directory, and then the further ones. -/
def discover (dir : Path) (q : Query) : Action (List Path) := do
  unless q.order ∈ Settings.listingOrders do throw (.unknownOrder q.order)
  checkPath dir
  let w ← get
  let selection : Selection := { suffix := q.suffix, wanted := q.wanted, sorted := q.order = "sorted" }
  let found ← ofExcept .file (w.tree.filesBelow w.cwd selection dir)
  return found ++ q.extra

end SolidityKit.Flatten
