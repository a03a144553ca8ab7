/-
The files of a tree, and what a change of the tree did to them.
-/
import SolidityKit.Files.Tree

namespace SolidityKit.Node

open Files

/-- The tree with a node planted at a place. Directories on the way there are made, a planted directory adds its
entries to a directory that is there, and whatever else is in the way is replaced. -/
def plant : Place → Node → Node → Node
  | [], dir es, dir more => dir (more.foldl (fun es e => setEntry e.1 e.2 es) es)
  | [], _, new => new
  | name :: rest, tree, new =>
    let es := tree.entries?.getD []
    dir (setEntry name (plant rest ((es.lookup name).getD (dir [])) new) es)

mutual

/-- The files of a tree with their places, links not followed. -/
def files (place : Place) : Node → List (Place × ByteArray)
  | file content => [(place, content)]
  | link _ => []
  | dir es => entryFiles place es

/-- The files of the entries of a directory. -/
def entryFiles (place : Place) : List (Name × Node) → List (Place × ByteArray)
  | [] => []
  | (name, n) :: rest => files (place ++ [name]) n ++ entryFiles place rest

end

/-- The files below a place that are new or have other bytes, with their places from there. -/
def changedFiles (below : Place) (before after : Node) : List (Place × ByteArray) :=
  let old := ((before.at? below).map (files [])).getD []
  (((after.at? below).map (files [])).getD []).filter fun f => (old.lookup f.1).all (· != f.2)

end SolidityKit.Node
