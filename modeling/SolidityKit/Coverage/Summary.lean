/-
Coverage summaries.

A summary adds up the counters of all records and gives each a percentage with two decimals, halves
rounded up.  Percentages are computed in floating-point numbers, each step rounded, so that counters
beyond their range have none.  Tracefiles know no statements; the branches stand in for them.
-/
import SolidityKit.Coverage.Tracefile
import SolidityKit.Value.Basic

namespace SolidityKit.Coverage

/-- Why a summary cannot be made. -/
inductive Fault where
  /-- The tracefile completes no record. -/
  | noRecords
  /-- The quotient of two counters is beyond all floating-point numbers. -/
  | hugeQuotient
  /-- A percentage is beyond all floating-point numbers. -/
  | hugePercentage
  /-- A counter has too many digits to be written. -/
  | longNumeral
deriving DecidableEq, Repr

/-- The words for a fault. -/
def Fault.message : Fault → String
  | noRecords => "no lcov records found (missing end_of_record?)"
  | hugeQuotient => "integer division result too large for a float"
  | hugePercentage => "cannot convert float infinity to integer"
  | longNumeral =>
    s!"Exceeds the limit ({numeralLimit} digits) for integer string conversion; "
      ++ "use sys.set_int_max_str_digits() to increase the limit"

/-- Reads a tracefile. -/
def read (t : Text) : Except Fault (List Record) :=
  match records? t with
  | some rs => .ok rs
  | none => .error .noRecords

/-- What a step of a computation gives, and a fault if it gives nothing. -/
def required {α : Type} (fault : Fault) : Option α → Except Fault α
  | none => .error fault
  | some a => .ok a

/--
The percentage of `covered` in `total`, with two decimals.  The quotient is rounded to hundredths by
adding one half to its hundredfold and dropping the fraction.
-/
def percentage (covered total : Int) : Except Fault (Option Binary64) :=
  if total = 0 then .ok none
  else do
    let x ← required .hugeQuotient (Binary64.ofQuotient? (covered * 100) total)
    let n ← required .hugePercentage ((x.scale 100).addHalf).floor?
    let p ← required .hugeQuotient (Binary64.ofQuotient? n 100)
    return some p

/-- The sum of a counter over all records. -/
structure Tally where
  /-- The number of items. -/
  total : Int
  /-- The number of items that were reached. -/
  covered : Int
  /-- The percentage of items that were reached, if there are items. -/
  percent : Option Binary64
deriving DecidableEq, Repr

/-- The sums of all counters. -/
structure Summary where
  /-- The lines. -/
  lines : Tally
  /-- The functions. -/
  functions : Tally
  /-- The branches. -/
  branches : Tally
deriving DecidableEq, Repr

/-- The sum of counts. -/
def sum (counts : List Int) : Int := counts.foldr (· + ·) 0

/-- The tally of what was found and of what was hit. -/
def tally (found hit : List Int) : Except Fault Tally := do
  let percent ← percentage (sum hit) (sum found)
  return { total := sum found, covered := sum hit, percent }

/-- The summary of records. -/
def summarize (rs : List Record) : Except Fault Summary := do
  let lines ← tally (rs.map (·.lines.found)) (rs.map (·.lines.hit))
  let functions ← tally (rs.map (·.functions.found)) (rs.map (·.functions.hit))
  let branches ← tally (rs.map (·.branches.found)) (rs.map (·.branches.hit))
  return { lines, functions, branches }

namespace Summary

/-- The statements, for which the branches stand in. -/
def statements (s : Summary) : Tally := s.branches

/-- The categories with their names, in the order in which they are written. -/
def categories (s : Summary) : List (String × Tally) :=
  [("lines", s.lines), ("functions", s.functions), ("branches", s.branches), ("statements", s.statements)]

end Summary

/-- The document of one category; nothing is ever skipped. -/
def Tally.document (t : Tally) : Value :=
  .map
    [(.text "total", .int t.total), (.text "covered", .int t.covered), (.text "skipped", .int 0),
     (.text "pct", .scalar ((t.percent.map Scalar.float).getD .null))]

/-- The document of a summary. -/
def Summary.document (s : Summary) : Value :=
  .map [(.text "total", .map (s.categories.map fun c => (.text c.1, c.2.document)))]

end SolidityKit.Coverage
