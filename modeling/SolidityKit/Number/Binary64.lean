/-
Binary floating-point numbers of double width, with exact arithmetic behind them.

A finite number is a sign, a significand below 2^53 and a number of doublings, all natural: its
size is `significand * 2 ^ doublings` in units of 2^-1074, the smallest positive number there is.
Every operation computes its exact result as a quotient of natural numbers and then rounds once,
to the nearest number and to the even significand when two are equally near.
-/

namespace SolidityKit

/-- A binary floating-point number. -/
inductive Binary64 where
  /-- No number at all. -/
  | nan
  /-- Beyond all finite numbers. -/
  | infinite (negative : Bool)
  /-- A finite number, of size `significand * 2 ^ doublings` in units of 2^-1074. -/
  | finite (negative : Bool) (significand doublings : Nat)
deriving DecidableEq, Repr

namespace Binary64

/-- How many doublings lead from the smallest positive number to one. -/
def unitDoublings : Nat := 1074

/-- How many of the smallest positive numbers make up one. -/
def unitsPerOne : Nat := Nat.pow 2 unitDoublings

/-- The quotient rounded to the nearest natural number, and to the even one of two. -/
def divHalfEven (a b : Nat) : Nat :=
  let q := a / b
  let r := a % b
  if 2 * r < b then q else if b < 2 * r then q + 1 else q + q % 2

/--
The significand and the doublings nearest to `a / b` units.  The number of doublings is chosen so that
the significand keeps 53 bits; rounding up may carry into a 54th, which one more doubling absorbs.
-/
def nearest (a b : Nat) : Nat × Nat :=
  let doublings := Nat.log2 (a / b) - 52
  let significand := divHalfEven a (b * Nat.pow 2 doublings)
  if significand = Nat.pow 2 53 then (Nat.pow 2 52, doublings + 1) else (significand, doublings)

/-- The number with this significand and these doublings, unless there are too many of them. -/
def bounded (negative : Bool) : Nat × Nat → Binary64
  | (significand, doublings) =>
    if doublings ≤ 2045 then finite negative significand doublings else infinite negative

/-- The number nearest to `num / den`, with the given sign. -/
def ofRatio (negative : Bool) (num den : Nat) : Binary64 := bounded negative (nearest (num * unitsPerOne) den)

/-- Zero with a sign. -/
def zero (negative : Bool) : Binary64 := finite negative 0 0

/-- The number nearest to an integer. -/
def ofInt (n : Int) : Binary64 := ofRatio (n < 0) n.natAbs 1

/-- The size of a finite number in units of 2^-1074. -/
def units (significand doublings : Nat) : Nat := significand * Nat.pow 2 doublings

/-- The product with a positive integer. -/
def scale (x : Binary64) (n : Nat) : Binary64 :=
  match x with
  | nan => nan
  | infinite s => infinite s
  | finite s m d => ofRatio s (units m d * n) unitsPerOne

/-- The sum with one half. -/
def addHalf (x : Binary64) : Binary64 :=
  match x with
  | nan => nan
  | infinite s => infinite s
  | finite s m d =>
    let half := unitsPerOne / 2
    if s && half < units m d then ofRatio true (units m d - half) unitsPerOne
    else if s then ofRatio false (half - units m d) unitsPerOne
    else ofRatio false (units m d + half) unitsPerOne

/-- The greatest integer that is no greater, for a finite number. -/
def floor? (x : Binary64) : Option Int :=
  match x with
  | finite s m d =>
    let size : Int := units m d
    some (Int.fdiv (if s then -size else size) unitsPerOne)
  | _ => none

/-- The number itself, if it is finite. -/
def finite? : Binary64 → Option Binary64
  | finite s m d => some (finite s m d)
  | _ => none

/-- The number nearest to the quotient of two integers, if it is finite. -/
def ofQuotient? (a b : Int) : Option Binary64 := (ofRatio ((a < 0) != (b < 0)) a.natAbs b.natAbs).finite?

/-- Whether the number is one of the two zeros. -/
def isZero : Binary64 → Bool
  | finite _ 0 _ => true
  | _ => false

/-- Equality of values: the two zeros are equal, and what is no number equals nothing. -/
def sameValue : Binary64 → Binary64 → Bool
  | nan, _ => false
  | _, nan => false
  | infinite s, infinite t => s == t
  | finite s m d, finite t n e => (m == 0 && n == 0) || (s == t && m == n && d == e)
  | _, _ => false

/-- Whether a number has exactly the value of an integer. -/
def isInt (x : Binary64) (n : Int) : Bool :=
  match x with
  | finite s m d => units m d == n.natAbs * unitsPerOne && (n == 0 || s == decide (n < 0))
  | _ => false

theorem divHalfEven_bounds (a b : Nat) : a / b ≤ divHalfEven a b ∧ divHalfEven a b ≤ a / b + 1 := by
  simp only [divHalfEven]
  split
  · omega
  · split <;> omega

end Binary64

end SolidityKit
