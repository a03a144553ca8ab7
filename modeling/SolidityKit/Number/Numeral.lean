/-
Whole numbers as texts.

A numeral is an optional sign and digits of any script, with single underscores allowed between
two digits.  Numerals of more than `numeralLimit` digits are refused in both directions, so that
no conversion takes more than a fixed effort.
-/
import SolidityKit.Number.Decimal
import SolidityKit.Text.DecimalDigit

namespace SolidityKit

/-- The most digits a numeral may have. -/
def numeralLimit : Nat := 4300

namespace Numeral

/-- The values of the digits, if the text is digits with single underscores between them. -/
def digitsOf? : Text → Option (List Nat)
  | [] => none
  | [c] => (digitValue? c).map ([·])
  | c :: '_' :: rest => (digitValue? c).bind fun d => (digitsOf? rest).map (d :: ·)
  | c :: rest => (digitValue? c).bind fun d => (digitsOf? rest).map (d :: ·)

/-- The natural number with these decimal digits, most significant first. -/
def ofDigits (ds : List Nat) : Nat := ds.foldl (fun n d => 10 * n + d) 0

/-- Splits a sign off. -/
def signed : Text → Bool × Text
  | '-' :: rest => (true, rest)
  | '+' :: rest => (false, rest)
  | t => (false, t)

/-- Reads a numeral, with blanks around it allowed. -/
def read? (t : Text) : Option Int := do
  let (negative, body) := signed (Text.trim t)
  let ds ← digitsOf? body
  guard (ds.length ≤ numeralLimit)
  let n : Int := ofDigits ds
  return if negative then -n else n

/-- The decimal digits of an integer, with a minus sign below zero. -/
def text (n : Int) : Text :=
  if n < 0 then '-' :: Nat.toDigits 10 n.natAbs else Nat.toDigits 10 n.natAbs

/-- Whether an integer has few enough digits to be written. -/
def isWritable (n : Int) : Bool := decimalLength n.natAbs ≤ numeralLimit

end Numeral

end SolidityKit
