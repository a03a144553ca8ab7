/-
Files and directories of a workspace.

Paths are spelled as the user gave them, so that faults show that spelling.  Text files are read with
any of the three line ends and written as they are.  A file that is to be written is emptied first:
if its text turns out to have no bytes, the file stays empty.
-/
import SolidityKit.Workspace.Basic

namespace SolidityKit

namespace Node

/-- How many names all links of the tree have in their targets, plus one each. -/
def linkNames : Node → Nat
  | file _ => 0
  | link target => (targetNames target).length + 1
  | dir es => entriesLinkNames es
where
  /-- The sum over entries. -/
  entriesLinkNames : List (Files.Name × Node) → Nat
    | [] => 0
    | (_, n) :: rest => linkNames n + entriesLinkNames rest

/-- Names with `.` and empty ones left out and `..` applied to what stands before it. -/
def normalNames (names : List Files.Name) : List Files.Name :=
  names.foldl (fun acc (n : Files.Name) =>
    if n = "" ∨ n = "." then acc else if n = ".." then acc.dropLast else acc ++ [n]) []

/-- How far the links of a path have been replaced. -/
structure Resolved where
  /-- The names so far. -/
  names : List Files.Name
  /-- Whether all links could be replaced. -/
  complete : Bool
  /-- The links met so far, and what they were replaced by once that is known. -/
  met : List (Files.Place × Option Files.Place)

/--
Replaces the links among names that are followed from a place.  A link that is met while it is itself
being replaced closes a loop; the names from there on are left as they are.  Names that lead nowhere
are kept.
-/
def resolveNames (tree : Node) : (fuel : Nat) → Files.Place → List Files.Name →
    List (Files.Place × Option Files.Place) → Resolved
  | 0, place, todo, met => ⟨place ++ todo, false, met⟩
  | _, place, [], met => ⟨place, true, met⟩
  | fuel + 1, place, name :: rest, met =>
    if name = "" ∨ name = "." then resolveNames tree fuel place rest met
    else if name = ".." then resolveNames tree fuel place.dropLast rest met
    else
      let here := place ++ [name]
      match tree.at? here with
      | some (link target) =>
        match met.lookup here with
        | some (some known) => resolveNames tree fuel known rest met
        | some none => ⟨here ++ rest, false, met⟩
        | none =>
          let inner := resolveNames tree fuel (linkStart target place) (targetNames target)
            ((here, none) :: met)
          if inner.complete then
            resolveNames tree fuel inner.names rest ((here, some inner.names) :: inner.met)
          else ⟨inner.names ++ rest, false, inner.met⟩
      | _ => resolveNames tree fuel here rest met

/-- The path without links, as far as there are no loops. -/
def realPath (tree : Node) (cwd : Files.Place) (p : Path) : Path :=
  ⟨.top, normalNames (tree.resolveNames (p.names.length + tree.linkNames + 1) (startOf cwd p) p.names []).names⟩

end Node

namespace Action

open Files

/-- Fails if the system cannot take a path. -/
def checkPath (p : Path) : Action Unit := checkUsable p.spelling

/-- The failure of a path. -/
def fileFailure (p : Path) (c : Cause) : Failure := .file ⟨c, p.spelling⟩

/-- Looks something up in the file tree. -/
def look {α : Type} (p : Path) (f : Node → Place → Path → Except Cause α) : Action α := do
  checkPath p
  let w ← get
  ofExcept (fileFailure p) (f w.tree w.cwd p)

/-- Changes the file tree. -/
def change (p : Path) (f : Node → Place → Path → Except Cause Node) : Action Unit := do
  let tree ← look p f
  modify fun w => { w with tree }

/-- What is at a path, if anything usable is there. -/
def node? (p : Path) : Action (Option Node) := do
  if !p.isUsable then return none
  let w ← get
  match w.tree.get w.cwd p with
  | .ok n => return some n
  | .error c => if c.meansAbsent then return none else throw (fileFailure p c)

/-- Whether something is at a path. -/
def pathExists (p : Path) : Action Bool := do return (← node? p).isSome

/-- Whether a directory is at a path. -/
def isDir (p : Path) : Action Bool := do
  match ← node? p with
  | some (.dir _) => return true
  | _ => return false

/-- The text of a file, with unified line ends. -/
def readText (p : Path) : Action Text := do
  let bytes ← look p Node.readBytes
  let t ← ofExcept .decoding (Utf8.decode bytes)
  return Text.unifyLineEnds t

/-- Empties a file, or makes an empty one, and then writes its text. -/
def writePoints (p : Path) (cs : Points) : Action Unit := do
  change p fun tree cwd p => tree.writeBytes cwd p ByteArray.empty
  let bytes ← ofExcept .encoding (Utf8.encodePoints cs)
  change p fun tree cwd p => tree.writeBytes cwd p bytes

/-- Writes a text file. -/
def writeText (p : Path) (t : Text) : Action Unit := writePoints p (.ofText t)

/-- Tries to make a directory. -/
def tryMakeDir (p : Path) : Action (Option Cause) := do
  checkPath p
  let w ← get
  match w.tree.makeDir w.cwd p with
  | .ok tree => set { w with tree }; return none
  | .error c => return some c

/-- Fails for a cause unless a directory is at the path anyway. -/
def unlessDir (p : Path) (c : Cause) : Action Unit := do
  unless ← isDir p do throw (fileFailure p c)

/-- Makes a directory unless it is there. -/
def makeDir (p : Path) : Action Unit := do
  match ← tryMakeDir p with
  | none => return
  | some .notFound => throw (fileFailure p .notFound)
  | some c => unlessDir p c

/-- Makes a directory and up to `missing` directories above it, unless they are there. -/
def makeDirsUpTo : (missing : Nat) → Path → Action Unit
  | missing, p => do
    match ← tryMakeDir p with
    | none => return
    | some .notFound =>
      match missing with
      | 0 => throw (fileFailure p .notFound)
      | missing + 1 =>
        makeDirsUpTo missing p.parent
        makeDir p
    | some c => unlessDir p c

/-- Makes a directory and all directories above it, unless they are there. -/
def makeDirs (p : Path) : Action Unit := makeDirsUpTo p.names.length p

/-- The path without links; a loop of links is a failure. -/
def resolve (p : Path) : Action Path := do
  checkPath p
  let w ← get
  let real := w.tree.realPath w.cwd p
  match w.tree.get w.cwd real with
  | .error .tooManyLinks => throw (.linkLoop real.spelling)
  | _ => return real

/-- The home directory that is known for a first name: `~` alone, or with the name of someone. -/
def homeOf? (name : Name) : Action (Option Points) := do
  let w ← get
  if name = "~" then return (w.environment.lookup "HOME").getD w.ownHome
  else
    checkUsable (name.drop 1)
    return w.homes.lookup (name.drop 1)

/-- The home directory that a first name stands for, without slashes at its end. -/
def homeOf (name : Name) : Action Points := do
  match ← homeOf? name with
  | none => throw .noHome
  | some home =>
    let home := Text.dropRightWhile (· == .char '/') home
    let home : Points := if home = [] then "/" else home
    if home.head? = some (.char '~') then throw .noHome else return home

/-- The path with a home directory in place of a first name that stands for one. -/
def expandHome (p : Path) : Action Path := do
  match p.root, p.names with
  | .current, name :: rest =>
    if name.head? = some (.char '~') then
      let home := Path.ofPoints (← homeOf name)
      return ⟨home.root, home.names ++ rest⟩
    else return p
  | _, _ => return p

end Action

end SolidityKit
