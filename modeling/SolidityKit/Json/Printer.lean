/-
Writing JSON texts.

A document is written on one line, or with each item and each entry on a line of its own.  Every
character outside ASCII stands as it is; only quotes, backslashes and control characters are
escaped.
-/
import SolidityKit.Value.Display

namespace SolidityKit.Json

/-- How a document is spread over lines. -/
inductive Spread where
  /-- All on one line. -/
  | oneLine
  /-- Each item and entry on its own line, indented by so many spaces per level. -/
  | indented (spaces : Nat)
deriving DecidableEq, Repr

/-- One character inside a JSON text. -/
def escaped (c : Char) : Text :=
  match c with
  | '"' => ['\\', '"']
  | '\\' => ['\\', '\\']
  | '\n' => ['\\', 'n']
  | '\r' => ['\\', 'r']
  | '\t' => ['\\', 't']
  | c =>
    if c.toNat = 0x0C then ['\\', 'f']
    else if c.toNat = 0x08 then ['\\', 'b']
    else if c.toNat < 0x20 then '\\' :: 'u' :: Text.hexPadded 4 c.toNat
    else [c]

/-- Code points as a JSON text. -/
def printPoints (cs : List CodePoint) : List CodePoint :=
  .char '"' :: cs.flatMap (fun
    | .char c => (escaped c).map .char
    | p => [p]) ++ [.char '"']

/-- A scalar in JSON; dates and other kinds that JSON does not have are written as texts. -/
def printScalar : Scalar → List CodePoint
  | .null => Points.ofText "null".toList
  | .bool b => Points.ofText (if b then "true" else "false").toList
  | .int n => Points.ofText (Numeral.text n)
  | .float x => Points.ofText (x.toText .json)
  | .text s => printPoints (Points.ofText s.toList)
  | .torn cs => printPoints cs
  | s => printPoints s.display

/-- A key in JSON, which is always a text. -/
def printKey : Scalar → List CodePoint
  | .text s => printPoints (Points.ofText s.toList)
  | .torn cs => printPoints cs
  | s => .char '"' :: printScalar s ++ [.char '"']

/-- What stands before an item at a depth. -/
def lineBefore (spread : Spread) (depth : Nat) : List CodePoint :=
  match spread with
  | .oneLine => []
  | .indented n => .char '\n' :: List.replicate (n * depth) (.char ' ')

/-- What stands between two items at a depth. -/
def between (spread : Spread) (depth : Nat) : List CodePoint :=
  match spread with
  | .oneLine => Points.ofText ", ".toList
  | .indented _ => .char ',' :: lineBefore spread depth

mutual

/-- A value that stands at a depth. -/
def printAt (spread : Spread) (depth : Nat) : Value → List CodePoint
  | .scalar s => printScalar s
  | .list [] => Points.ofText "[]".toList
  | .list items =>
    .char '[' :: lineBefore spread (depth + 1) ++ printItems spread (depth + 1) items
      ++ lineBefore spread depth ++ [.char ']']
  | .map [] => [.char '{', .char '}']
  | .map es =>
    .char '{' :: lineBefore spread (depth + 1) ++ printEntries spread (depth + 1) es
      ++ lineBefore spread depth ++ [.char '}']

/-- The items of a list. -/
def printItems (spread : Spread) (depth : Nat) : List Value → List CodePoint
  | [] => []
  | [v] => printAt spread depth v
  | v :: rest => printAt spread depth v ++ between spread depth ++ printItems spread depth rest

/-- The entries of a map. -/
def printEntries (spread : Spread) (depth : Nat) : List (Scalar × Value) → List CodePoint
  | [] => []
  | [(k, v)] => printKey k ++ .char ':' :: .char ' ' :: printAt spread depth v
  | (k, v) :: rest =>
    printKey k ++ .char ':' :: .char ' ' :: printAt spread depth v ++ between spread depth
      ++ printEntries spread depth rest

end

/-- A document as a JSON text. -/
def print (spread : Spread) (v : Value) : List CodePoint := printAt spread 0 v

end SolidityKit.Json
