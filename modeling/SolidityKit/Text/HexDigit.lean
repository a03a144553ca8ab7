/-
Hexadecimal digits, in either case of letters.
-/
import SolidityKit.Text.Blank

namespace SolidityKit

/-- The value of a hexadecimal digit. -/
def hexDigitValue? (c : Char) : Option Nat :=
  if '0' ≤ c && c ≤ '9' then some (c.toNat - '0'.toNat)
  else if 'a' ≤ c && c ≤ 'f' then some (c.toNat - 'a'.toNat + 10)
  else if 'A' ≤ c && c ≤ 'F' then some (c.toNat - 'A'.toNat + 10)
  else none

/-- The number that hexadecimal digits stand for, most significant first. -/
def hexNumber? (t : Text) : Option Nat :=
  t.foldlM (fun n c => (hexDigitValue? c).map (16 * n + ·)) 0

end SolidityKit
