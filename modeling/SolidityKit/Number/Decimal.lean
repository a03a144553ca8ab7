/-
Decimal texts of binary numbers, in both directions.

Reading rounds the exact decimal value once.  Writing picks the fewest digits that read back as the
same number, and of those the digits nearest to its value.  `Layout` holds the conventions of the
text itself.
-/
import SolidityKit.Number.Binary64
import SolidityKit.Text.Blank

namespace SolidityKit

/-- How many decimal digits a natural number has; zero has one. -/
def decimalLength (n : Nat) : Nat := (Nat.toDigits 10 n).length

/-- A decimal number `digits * 10 ^ exponent`. -/
structure Decimal where
  /-- The digits, as a natural number. -/
  digits : Nat
  /-- The power of ten that they count. -/
  exponent : Int
deriving DecidableEq, Repr

namespace Decimal

/-- The value of a decimal number as a quotient. -/
def ratio (d : Decimal) : Nat × Nat :=
  if 0 ≤ d.exponent then (d.digits * Nat.pow 10 d.exponent.toNat, 1)
    else (d.digits, Nat.pow 10 (-d.exponent).toNat)

/--
The nearest binary number.  A decimal number of 10^400 and above is beyond all finite ones, and one
below 10^-400 is nearer to zero than to the smallest of them, so that their powers are never formed.
-/
def toBinary (negative : Bool) (d : Decimal) : Binary64 :=
  if d.digits = 0 then .zero negative
  else if 400 < d.exponent then .infinite negative
  else if d.exponent + decimalLength d.digits < -400 then .zero negative
  else .ofRatio negative d.ratio.1 d.ratio.2

/-- The number of digits before the decimal point; zero and below if the number starts with `0.`. -/
def pointPlace (num den : Nat) : Int :=
  if den ≤ num then decimalLength (num / den)
  -- the least `j` with `den ≤ num * 10 ^ j` is the length of the rounded-up quotient less one
  else 1 - (decimalLength ((den + num - 1) / num - 1) : Int)

/-- The two decimal numbers with `n` digits around `num / den`: the one below or equal, and the next. -/
def neighbours (num den n : Nat) : Decimal × Decimal :=
  let exponent := pointPlace num den - n
  let below :=
    if 0 ≤ exponent then num / (den * Nat.pow 10 exponent.toNat) else num * Nat.pow 10 (-exponent).toNat / den
  (⟨below, exponent⟩, ⟨below + 1, exponent⟩)

/-- Whether `num / den` is nearer to the first neighbour than to the second, or as near and the
first is even. -/
def prefersBelow (num den : Nat) (below : Decimal) : Bool :=
  let middle : Decimal := ⟨10 * below.digits + 5, below.exponent - 1⟩
  let (a, b) := middle.ratio
  num * b < a * den || (num * b == a * den && below.digits % 2 == 0)

/-- The neighbour with `n` digits that reads back as `x`, the nearer one if both do. -/
def withDigits? (x : Binary64) (num den n : Nat) : Option Decimal :=
  let (below, above) := neighbours num den n
  match below.toBinary false == x, above.toBinary false == x with
  | true, true => some (if prefersBelow num den below then below else above)
  | true, false => some below
  | false, true => some above
  | false, false => none

/-- The fewest digits, at least `n`, that read back as a positive finite number; 17 are always enough. -/
def shortestFrom (x : Binary64) (num den : Nat) : (tries n : Nat) → Decimal
  | 0, n => (neighbours num den n).1
  | tries + 1, n => (withDigits? x num den n).getD (shortestFrom x num den tries (n + 1))

/-- The shortest decimal number that reads back as the number with this significand and these doublings. -/
def shortest (significand doublings : Nat) : Decimal :=
  shortestFrom (.finite false significand doublings) (Binary64.units significand doublings)
    Binary64.unitsPerOne 17 1

/-- The conventions of a number's text. -/
structure Layout where
  /-- The least place of the point that is still written without an exponent. -/
  leastPlace : Int
  /-- The greatest place of the point that is still written without an exponent. -/
  greatestPlace : Int
  /-- The least number of digits of an exponent. -/
  exponentWidth : Nat
  /-- The text of what is no number. -/
  nan : String
  /-- The text of infinity. -/
  infinity : String

/-- From 0.0001 up to below 10^16 without an exponent; an exponent has a sign and two digits at least. -/
def Layout.plain : Layout := ⟨-3, 16, 2, "nan", "inf"⟩

/-- As `plain`, with the names that JSON readers commonly take. -/
def Layout.json : Layout := { Layout.plain with nan := "NaN", infinity := "Infinity" }

/-- A natural number with zeros in front up to a least number of digits. -/
def padded (width n : Nat) : Text :=
  let ds := Nat.toDigits 10 n
  List.replicate (width - ds.length) '0' ++ ds

/-- Lays out the digits of a number whose point stands after `place` of them. -/
def layOut (l : Layout) (ds : Text) (place : Int) : Text :=
  if l.leastPlace ≤ place && place ≤ l.greatestPlace then
    if place ≤ 0 then '0' :: '.' :: List.replicate (-place).toNat '0' ++ ds
    else
      let whole := ds.take place.toNat
      let fraction := ds.drop place.toNat
      whole ++ List.replicate (place.toNat - ds.length) '0' ++ '.' ::
        (if fraction.isEmpty then ['0'] else fraction)
  else
    let exponent := place - 1
    ds.take 1 ++ (if ds.length ≤ 1 then [] else '.' :: ds.drop 1)
      ++ 'e' :: (if exponent < 0 then '-' else '+') :: padded l.exponentWidth exponent.natAbs

/-- The digits of a decimal number without zeros at the end, and the place of its point. -/
def digitsAndPlace (d : Decimal) : Text × Int :=
  let ds := Nat.toDigits 10 d.digits
  (Text.dropRightWhile (· == '0') ds, ds.length + d.exponent)

end Decimal

/-- The text of a number: the fewest digits that read back, in the given layout. -/
def Binary64.toText (l : Decimal.Layout) : Binary64 → Text
  | .nan => l.nan.toList
  | .infinite s => (if s then ['-'] else []) ++ l.infinity.toList
  | .finite s 0 _ => (if s then ['-'] else []) ++ ['0', '.', '0']
  | .finite s m d =>
    let (ds, place) := (Decimal.shortest m d).digitsAndPlace
    (if s then ['-'] else []) ++ Decimal.layOut l ds place

end SolidityKit
