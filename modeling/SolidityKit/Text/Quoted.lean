/-
Texts in quotes, for messages.

The quote is a single one, unless the text holds single quotes and no double ones.  The quote, the
backslash and every character without a visible form are escaped, so that a message stays on one
line and shows what is in the text.
-/
import SolidityKit.Text.CodePoint
import SolidityKit.Text.Printable

namespace SolidityKit.Text

/-- The hexadecimal digits of a number, with zeros in front up to a width. -/
def hexPadded (width n : Nat) : Text :=
  let ds := Nat.toDigits 16 n
  List.replicate (width - ds.length) '0' ++ ds

/-- The escape of a code point by its number, with as few of two, four or eight digits as are enough. -/
def escapeNumber (n : Nat) : Text :=
  if n < 0x100 then '\\' :: 'x' :: hexPadded 2 n
  else if n < 0x10000 then '\\' :: 'u' :: hexPadded 4 n
  else '\\' :: 'U' :: hexPadded 8 n

/-- One code point inside quotes. -/
def quotedPoint (quote : Char) : CodePoint → Text
  | .char '\\' => ['\\', '\\']
  | .char '\t' => ['\\', 't']
  | .char '\n' => ['\\', 'n']
  | .char '\r' => ['\\', 'r']
  | .char c =>
    if c = quote then ['\\', c] else if isPrintable c then [c] else escapeNumber c.toNat
  | .surrogate half => escapeNumber (CodePoint.surrogate half).number

/-- The quote that a text is put in. -/
def quoteFor (cs : Points) : Char :=
  if cs.contains (.char '\'') && !cs.contains (.char '"') then '"' else '\''

/-- The code points in quotes. -/
def quotedPoints (cs : Points) : Text :=
  let q := quoteFor cs
  q :: cs.flatMap (quotedPoint q) ++ [q]

/-- The text in quotes. -/
def quoted (t : Text) : Text := quotedPoints (.ofText t)

end SolidityKit.Text

namespace SolidityKit

namespace Points

/-- The text in quotes. -/
def inQuotes (cs : Points) : String := String.ofList (Text.quotedPoints cs)

/-- The text as it is shown, with each surrogate that stands alone escaped by its number. -/
def shown (cs : Points) : String :=
  String.ofList (cs.flatMap fun
    | .char c => [c]
    | .surrogate half => Text.escapeNumber (CodePoint.surrogate half).number)

end Points

end SolidityKit
