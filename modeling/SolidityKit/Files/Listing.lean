/-
Collecting files below a directory.

A tree is gone through depth first, each directory in a given order of its entries.  A link is
followed to see whether it is a directory; if it is, it is gone through under its own name.  A link
that leads nowhere counts as a file.  The number of links on a path is limited, so that links to a
directory above them end in a fault and not in an endless descent.
-/
import SolidityKit.Files.Tree

namespace SolidityKit

/-- Which files to collect, and in which order to go through a directory. -/
structure Selection where
  /-- How the name of a file ends. -/
  suffix : Points := ".sol"
  /-- Which names are wanted. -/
  wanted : Files.Name → Bool := fun _ => true
  /-- Whether entries are gone through by name, rather than in the order of the directory. -/
  sorted : Bool := true

namespace Selection

/-- Whether a file of that name is collected. -/
def takes (s : Selection) (name : Files.Name) : Bool := s.suffix.isSuffixOf name && s.wanted name

/-- The entries of a directory in the order in which they are gone through. -/
def inOrder (s : Selection) (es : List (Files.Name × Node)) : List (Files.Name × Node) :=
  if s.sorted then es.mergeSort fun a b => decide (a.1 ≤ b.1) else es

end Selection

namespace Node

open Files

mutual

/-- The levels of directories of a tree. -/
def height : Node → Nat
  | file _ => 0
  | link _ => 0
  | dir es => entriesHeight es + 1

/-- The greatest height among entries. -/
def entriesHeight : List (Name × Node) → Nat
  | [] => 0
  | (_, n) :: rest => max n.height (entriesHeight rest)

end

/-- A directory that an entry leads to: its place, its entries and how many links may still be followed. -/
abbrev Opened := Place × List (Name × Node) × Nat

/-- The directory that an entry leads to, if it leads to one. -/
def open? (tree : Node) (left : Nat) (place : Place) (name : Name) : Node → Except Cause (Option Opened)
  | dir es => .ok (some (place ++ [name], es, left))
  | file _ => .ok none
  | link _ =>
    match tree.walk true left place [name] with
    | .ok (.there place (dir es), left) => .ok (some (place, es, left))
    | .ok _ | .error .notFound => .ok none
    | .error c => .error c

/--
The files below an opened directory that a selection takes.  Between two links the descent goes down
the tree, so that `fuel` need not exceed the height of the tree for each link that may be followed.
-/
def collect (tree : Node) (s : Selection) : (fuel : Nat) → Path → Opened → Except Fault (List Path)
  | 0, path, _ => .error ⟨.tooManyLinks, path.spelling⟩
  | fuel + 1, path, (place, es, left) => do
    let found ← (s.inOrder es).mapM fun (name, node) => do
      let path := path.entry name
      match tree.open? left place name node with
      | .error c => .error ⟨c, path.spelling⟩
      | .ok (some opened) => collect tree s fuel path opened
      | .ok none => .ok (if s.takes name then [path] else [])
    return found.flatten

/-- The files below a directory that a selection takes. -/
def filesBelow (tree : Node) (cwd : Place) (s : Selection) (path : Path) : Except Fault (List Path) :=
  match tree.walk true maxLinks (startOf cwd path) path.names with
  | .error c => .error ⟨c, path.spelling⟩
  | .ok (.absent .., _) => .error ⟨.notFound, path.spelling⟩
  | .ok (.there place (dir es), left) =>
    collect tree s ((maxLinks + 1) * (tree.height + 1)) path (place, es, left)
  | .ok (.there .., _) => .error ⟨.notDirectory, path.spelling⟩

end Node

end SolidityKit
