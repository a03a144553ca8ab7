/-
Paths as values.

A path is a root and a list of names; names may hold any code points.  Reading a path drops empty names and the
name `.`, and keeps `..`, because what stands above a link is not known from the text.  A path that starts with
exactly two slashes keeps both.  Everything here is about the spelling alone; what a path leads to is the
business of the file tree.
-/
import SolidityKit.Text.CodePoint
import SolidityKit.Text.Lines

namespace SolidityKit

/-- The name of a file, a directory or a link. -/
abbrev Files.Name := Points

open Files

/-- What a path starts from. -/
inductive Path.Root where
  /-- The current directory. -/
  | current
  /-- The top of the file tree. -/
  | top
  /-- The top of the file tree, spelled with two slashes. -/
  | doubled
deriving DecidableEq, Repr

/-- A path: where it starts and the names to follow from there. -/
@[ext] structure Path where
  /-- Where the path starts. -/
  root : Path.Root
  /-- The names, none of them empty or `.` in a path that was read from text. -/
  names : List Name
deriving DecidableEq, Repr

namespace Path

/-- The names in a text between slashes, without empty ones and without `.`. -/
def namesOf (cs : Points) : List Name :=
  (Text.splitAt (.char '/') cs).filter fun n => n ≠ "" && n ≠ "."

/-- Reads a path. -/
def ofPoints : Points → Path
  | .char '/' :: .char '/' :: .char '/' :: rest => ⟨.top, namesOf rest⟩
  | .char '/' :: .char '/' :: rest => ⟨.doubled, namesOf rest⟩
  | .char '/' :: rest => ⟨.top, namesOf rest⟩
  | cs => ⟨.current, namesOf cs⟩

/-- Reads a path. -/
def ofString (s : String) : Path := ofPoints s

/-- The slashes that a path starts with. -/
def Root.spelling : Root → Points
  | .current => ""
  | .top => "/"
  | .doubled => "//"

/-- The spelling of a path; the current directory is a single dot. -/
def spelling (p : Path) : Points :=
  match p.root, p.names with
  | .current, [] => "."
  | r, names => r.spelling ++ [.char '/'].intercalate names

/-- Whether the system can take the path: it has bytes, and no NUL character among them. -/
def isUsable (p : Path) : Bool := p.spelling.all CodePoint.isUsable

/-- Whether the path does not depend on the current directory. -/
def isAbsolute (p : Path) : Bool := p.root != .current

/-- Follows `q` from `p`; an absolute `q` replaces `p`. -/
def join (p q : Path) : Path := if q.isAbsolute then q else ⟨p.root, p.names ++ q.names⟩

instance : HDiv Path Path Path := ⟨join⟩

instance : HDiv Path Points Path := ⟨fun p cs => p.join (ofPoints cs)⟩

instance : HDiv Path String Path := ⟨fun p s => p / (s : Points)⟩

/-- The path without its last name; a path without names is its own parent. -/
def parent (p : Path) : Path := ⟨p.root, p.names.dropLast⟩

/-- All proper parents, nearest first. -/
def parents (p : Path) : List Path :=
  (List.range p.names.length).reverse.map fun n => ⟨p.root, p.names.take n⟩

/-- The path of an entry of a directory. -/
def entry (p : Path) (name : Name) : Path := ⟨p.root, p.names ++ [name]⟩

example : (ofString "a//b/./c").spelling = "a/b/c" := by decide

example : (ofString "").spelling = "." := by decide

example : ((ofString "//x") / "../y").spelling = "//x/../y" := by decide

end Path

end SolidityKit
