/-
Coverage tracefiles.

A tracefile is a text of entries, one a line: a key, a colon and fields between commas.  The entries
up to an `end_of_record` make one record.  Lines that are no entry are passed over, and a number
that cannot be read counts as zero, since a branch that was never reached has a dash in its place.

`Entry.ofLine?` reads a line and `Entry.line` writes one; `Record.entries` lists the entries that
describe a record, and `Record.add` takes an entry into a record.
-/
import SolidityKit.Text.Lines
import SolidityKit.Number.Numeral

namespace SolidityKit.Coverage

/-- A function and how often it was entered. -/
structure FunctionDetail where
  /-- The name. -/
  name : Text
  /-- The line where the function starts. -/
  line : Int
  /-- How often it was entered. -/
  hit : Int
deriving DecidableEq, Repr

/-- A line and how often it was run. -/
structure LineDetail where
  /-- The line. -/
  line : Int
  /-- How often it was run. -/
  hit : Int
deriving DecidableEq, Repr

/-- A branch and how often it was taken. -/
structure BranchDetail where
  /-- The line of the branching. -/
  line : Int
  /-- The block that branches. -/
  block : Int
  /-- The number of the branch within its block. -/
  branch : Int
  /-- How often it was taken. -/
  taken : Int
deriving DecidableEq, Repr

/-- How many items there are, how many were reached, and the items. -/
structure Counter (α : Type) where
  /-- The number of items, as the tracefile gives it. -/
  found : Int := 0
  /-- The number of items that were reached, as the tracefile gives it. -/
  hit : Int := 0
  /-- The items, in order. -/
  details : List α := []
deriving DecidableEq, Repr

/-- What a tracefile tells about one source. -/
structure Record where
  /-- The name of the test. -/
  title : Text := []
  /-- The path of the source. -/
  file : Text := []
  /-- The lines. -/
  lines : Counter LineDetail := {}
  /-- The functions. -/
  functions : Counter FunctionDetail := {}
  /-- The branches. -/
  branches : Counter BranchDetail := {}
deriving DecidableEq, Repr

/-- One line of a tracefile. -/
inductive Entry where
  /-- The name of the test. -/
  | title (name : Text)
  /-- The path of the source. -/
  | file (path : Text)
  /-- A function and its line. -/
  | function (line : Int) (name : Text)
  /-- How often a function was entered. -/
  | functionHit (hit : Int) (name : Text)
  /-- The number of functions. -/
  | functionsFound (n : Int)
  /-- The number of functions that were entered. -/
  | functionsHit (n : Int)
  /-- A line and how often it was run. -/
  | line (d : LineDetail)
  /-- The number of lines. -/
  | linesFound (n : Int)
  /-- The number of lines that were run. -/
  | linesHit (n : Int)
  /-- A branch and how often it was taken. -/
  | branch (d : BranchDetail)
  /-- The number of branches. -/
  | branchesFound (n : Int)
  /-- The number of branches that were taken. -/
  | branchesHit (n : Int)
  /-- The end of a record. -/
  | endOfRecord
deriving DecidableEq, Repr

namespace Entry

/-- The number in a field; what is no number counts as zero. -/
def number (t : Text) : Int := (Numeral.read? t).getD 0

/-- The entry with a key and a value, if the key is known and the value has enough fields. -/
def ofKeyValue? (key : String) (value : Text) : Option Entry :=
  match key, Text.splitAt ',' value with
  | "TN", _ => some (title (Text.trim value))
  | "SF", _ => some (file (Text.trim value))
  | "FN", a :: b :: more => some (function (number a) (Text.trim (Text.joinWith ',' (b :: more))))
  | "FNDA", a :: b :: more => some (functionHit (number a) (Text.trim (Text.joinWith ',' (b :: more))))
  | "FNF", _ => some (functionsFound (number value))
  | "FNH", _ => some (functionsHit (number value))
  | "DA", a :: b :: _ => some (line ⟨number a, number b⟩)
  | "LF", _ => some (linesFound (number value))
  | "LH", _ => some (linesHit (number value))
  | "BRDA", a :: b :: c :: d :: _ => some (branch ⟨number a, number b, number c, number d⟩)
  | "BRF", _ => some (branchesFound (number value))
  | "BRH", _ => some (branchesHit (number value))
  | _, _ => none

/-- The entry on a line, blanks at its ends aside. -/
def ofLine? (t : Text) : Option Entry :=
  let t := Text.trim t
  if t = "end_of_record".toList then some endOfRecord
  else (Text.cut? ':' t).bind fun (key, value) => ofKeyValue? (String.ofList key) value

/-- A line with a key and fields. -/
def keyed (key : String) (fields : List Text) : Text := key.toList ++ ':' :: Text.joinWith ',' fields

/-- The line of an entry. -/
def toLine : Entry → Text
  | title name => keyed "TN" [name]
  | file path => keyed "SF" [path]
  | function n name => keyed "FN" [Numeral.text n, name]
  | functionHit n name => keyed "FNDA" [Numeral.text n, name]
  | functionsFound n => keyed "FNF" [Numeral.text n]
  | functionsHit n => keyed "FNH" [Numeral.text n]
  | line d => keyed "DA" [Numeral.text d.line, Numeral.text d.hit]
  | linesFound n => keyed "LF" [Numeral.text n]
  | linesHit n => keyed "LH" [Numeral.text n]
  | branch d =>
    keyed "BRDA" [Numeral.text d.line, Numeral.text d.block, Numeral.text d.branch, Numeral.text d.taken]
  | branchesFound n => keyed "BRF" [Numeral.text n]
  | branchesHit n => keyed "BRH" [Numeral.text n]
  | endOfRecord => "end_of_record".toList

end Entry

/-- Sets how often the first function of a name was entered. -/
def setHit (name : Text) (hit : Int) : List FunctionDetail → List FunctionDetail
  | [] => []
  | d :: more => if d.name = name then { d with hit } :: more else d :: setHit name hit more

namespace Record

/-- The record with the news of one entry. -/
def add (r : Record) : Entry → Record
  | .title name => { r with title := name }
  | .file path => { r with file := path }
  | .function line name =>
    { r with functions := { r.functions with details := r.functions.details ++ [⟨name, line, 0⟩] } }
  | .functionHit hit name =>
    { r with functions := { r.functions with details := setHit name hit r.functions.details } }
  | .functionsFound n => { r with functions := { r.functions with found := n } }
  | .functionsHit n => { r with functions := { r.functions with hit := n } }
  | .line d => { r with lines := { r.lines with details := r.lines.details ++ [d] } }
  | .linesFound n => { r with lines := { r.lines with found := n } }
  | .linesHit n => { r with lines := { r.lines with hit := n } }
  | .branch d => { r with branches := { r.branches with details := r.branches.details ++ [d] } }
  | .branchesFound n => { r with branches := { r.branches with found := n } }
  | .branchesHit n => { r with branches := { r.branches with hit := n } }
  | .endOfRecord => r

/-- The entries that describe a record; all functions stand before the first count of entries. -/
def entries (r : Record) : List Entry :=
  [Entry.title r.title, Entry.file r.file]
    ++ r.functions.details.map (fun d => Entry.function d.line d.name)
    ++ r.functions.details.map (fun d => Entry.functionHit d.hit d.name)
    ++ [Entry.functionsFound r.functions.found, Entry.functionsHit r.functions.hit]
    ++ r.lines.details.map Entry.line
    ++ [Entry.linesFound r.lines.found, Entry.linesHit r.lines.hit]
    ++ r.branches.details.map Entry.branch
    ++ [Entry.branchesFound r.branches.found, Entry.branchesHit r.branches.hit, Entry.endOfRecord]

end Record

/-- The records that a list of entries completes, when `current` has been begun. -/
def recordsFrom (current : Record) : List Entry → List Record
  | [] => []
  | .endOfRecord :: more => current :: recordsFrom {} more
  | e :: more => recordsFrom (current.add e) more

/-- The entries of a tracefile. -/
def entriesOf (t : Text) : List Entry := (Text.breakLines t).filterMap Entry.ofLine?

/-- The records of a tracefile, or `none` if it completes none. -/
def records? (t : Text) : Option (List Record) :=
  match recordsFrom {} (entriesOf t) with
  | [] => none
  | rs => some rs

/-- The text of a tracefile, each entry on a line. -/
def printEntries (es : List Entry) : Text := es.flatMap fun e => e.toLine ++ ['\n']

/-- The text of a tracefile with the given records. -/
def print (rs : List Record) : Text := printEntries (rs.flatMap Record.entries)

end SolidityKit.Coverage
