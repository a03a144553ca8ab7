/-
File trees.

A tree is a value: a file with its bytes, a link with its target, or a directory with named entries
in some order.  A path is followed name by name from a directory.  A link on the way is replaced by
its target, at most `maxLinks` times, so that loops of links end.

`walk` recurses on the number of links that may still be followed, and between two links on the
names still to be followed; neither needs any fuel beyond that.
-/
import SolidityKit.Files.Path
import SolidityKit.Text.Quoted

namespace SolidityKit

/-- A file, a link or a directory. -/
inductive Node where
  /-- A file with its bytes. -/
  | file (content : ByteArray)
  /-- A link to another path. -/
  | link (target : Points)
  /-- A directory with its entries. -/
  | dir (entries : List (Files.Name × Node))
deriving Inhabited

namespace Files

/-- What keeps a path from being used. -/
inductive Cause where
  /-- Nothing is there. -/
  | notFound
  /-- Something that is no directory stands where one is needed. -/
  | notDirectory
  /-- A directory stands where a file is needed. -/
  | isDirectory
  /-- Something is there already. -/
  | alreadyExists
  /-- Too many links follow one another. -/
  | tooManyLinks
  /-- A name is longer than any name can be. -/
  | nameTooLong
deriving DecidableEq, Repr

/-- The number of a cause. -/
def Cause.number : Cause → Nat
  | notFound => 2
  | alreadyExists => 17
  | notDirectory => 20
  | isDirectory => 21
  | nameTooLong => 36
  | tooManyLinks => 40

/-- The words for a cause. -/
def Cause.words : Cause → String
  | notFound => "No such file or directory"
  | alreadyExists => "File exists"
  | notDirectory => "Not a directory"
  | isDirectory => "Is a directory"
  | nameTooLong => "File name too long"
  | tooManyLinks => "Too many levels of symbolic links"

/-- Whether a cause only means that nothing usable is there. -/
def Cause.meansAbsent : Cause → Bool
  | notFound | notDirectory | tooManyLinks => true
  | _ => false

/-- A cause and the path that could not be used. -/
structure Fault where
  /-- The cause. -/
  cause : Cause
  /-- The path as it is spelled. -/
  path : Points
deriving DecidableEq, Repr

/-- The words for a fault. -/
def Fault.message (f : Fault) : String := s!"[Errno {f.cause.number}] {f.cause.words}: {f.path.inQuotes}"

/-- A place in a tree: the names of directories and of a last entry, from the top, none of them links. -/
abbrev Place := List Name

/-- What a path leads to. -/
inductive Found where
  /-- Something is at a place. -/
  | there (place : Place) (node : Node)
  /-- Nothing of that name is in the directory at a place. -/
  | absent (directory : Place) (name : Name)

/-- How many links may be followed on one path. -/
def maxLinks : Nat := 40

/-- How many bytes a name may have. -/
def maxNameBytes : Nat := 255

end Files

namespace Node

open Files

/-- The entries of a directory. -/
def entries? : Node → Option (List (Name × Node))
  | dir es => some es
  | _ => none

/-- The entry of a directory by its name. -/
def child? (name : Name) : Node → Option Node
  | dir es => es.lookup name
  | _ => none

/-- What stands at a place. -/
def at? : Place → Node → Option Node
  | [], n => some n
  | name :: rest, n => (n.child? name).bind (at? rest)

/-- Entries with one set; a new one goes to the end. -/
def setEntry (name : Name) (node : Node) : List (Name × Node) → List (Name × Node)
  | [] => [(name, node)]
  | (k, n) :: rest => if k = name then (k, node) :: rest else (k, n) :: setEntry name node rest

/-- The tree with a node set at a place; the directory above the place must be there. -/
def put : Place → Node → Node → Node
  | [], _, new => new
  | name :: rest, dir es, new =>
    match rest, es.lookup name with
    | [], _ => dir (setEntry name new es)
    | _, some n => dir (setEntry name (put rest n new) es)
    | _, none => dir es
  | _ :: _, n, _ => n

/-- The tree without what stands at a place. -/
def remove : Place → Node → Node
  | [], n => n
  | [name], dir es => dir (es.filter fun e => e.1 ≠ name)
  | name :: rest, dir es =>
    match es.lookup name with
    | some n => dir (setEntry name (remove rest n) es)
    | none => dir es
  | _ :: _, n => n

/-! ### Following paths -/

/-- What is missing: a name that no directory can hold is a fault of its own. -/
def missing (name : Name) : Cause := if maxNameBytes < name.byteLength then .nameTooLong else .notFound

/-- The names in a link's target; an empty last name asks for a directory. -/
def targetNames (target : Points) : List Name := Text.splitAt (.char '/') target

/-- Where the target of a link starts, if the link stands in a directory at a place. -/
def linkStart (target : Points) (place : Place) : Place := if target.head? = some (.char '/') then [] else place

/--
Follows names from a place.  Where a link is to be followed, `follow` takes over with the place that
the link's target starts from and all names then still to be followed.
-/
def walkNames (tree : Node) (followLast : Bool) (follow : Place → List Name → Except Cause (Found × Nat))
    (left : Nat) : Place → List Name → Except Cause (Found × Nat)
  | place, [] => (tree.at? place).elim (.error .notFound) fun n => .ok (.there place n, left)
  | place, name :: rest =>
    match tree.at? place with
    | some (dir es) =>
      if name = "" ∨ name = "." then walkNames tree followLast follow left place rest
      else if name = ".." then walkNames tree followLast follow left place.dropLast rest
      else
        match es.lookup name with
        | none =>
          if rest.isEmpty ∧ missing name = .notFound then .ok (.absent place name, left)
            else .error (missing name)
        | some (link target) =>
          if rest.isEmpty && !followLast then .ok (.there (place ++ [name]) (link target), left)
          else follow (linkStart target place) (targetNames target ++ rest)
        | some _ => walkNames tree followLast follow left (place ++ [name]) rest
    | some _ => .error .notDirectory
    | none => .error .notFound

/-- Follows names from a place, through at most `left` links. -/
def walk (tree : Node) (followLast : Bool) : (left : Nat) → Place → List Name → Except Cause (Found × Nat)
  | 0 => walkNames tree followLast (fun _ _ => .error .tooManyLinks) 0
  | left + 1 => walkNames tree followLast (walk tree followLast left) (left + 1)

/-- Where a path starts. -/
def startOf (cwd : Place) (p : Path) : Place := if p.isAbsolute then [] else cwd

/-- What a path leads to, through a link at its end. -/
def find (tree : Node) (cwd : Place) (p : Path) : Except Cause Found :=
  (tree.walk true maxLinks (startOf cwd p) p.names).map (·.1)

/-- What a path leads to; a link at its end is not followed. -/
def findLink (tree : Node) (cwd : Place) (p : Path) : Except Cause Found :=
  (tree.walk false maxLinks (startOf cwd p) p.names).map (·.1)

/-- What is there at the end of a path. -/
def get (tree : Node) (cwd : Place) (p : Path) : Except Cause Node :=
  (tree.find cwd p).bind fun
    | .there _ n => .ok n
    | .absent .. => .error .notFound

/-- The bytes of a file. -/
def readBytes (tree : Node) (cwd : Place) (p : Path) : Except Cause ByteArray :=
  (tree.get cwd p).bind fun
    | file content => .ok content
    | dir _ => .error .isDirectory
    | link _ => .error .notFound

/-- The tree with a file written; its directory must be there. -/
def writeBytes (tree : Node) (cwd : Place) (p : Path) (content : ByteArray) : Except Cause Node :=
  (tree.find cwd p).bind fun
    | .there _ (dir _) => .error .isDirectory
    | .there place _ => .ok (tree.put place (file content))
    | .absent directory name => .ok (tree.put (directory ++ [name]) (file content))

/-- The tree with a new, empty directory; the directory above must be there. -/
def makeDir (tree : Node) (cwd : Place) (p : Path) : Except Cause Node :=
  (tree.findLink cwd p).bind fun
    | .there .. => .error .alreadyExists
    | .absent directory name => .ok (tree.put (directory ++ [name]) (dir []))

end Node

end SolidityKit
