/-
Floating-point numbers as texts that people write.

A number is an optional sign, digits with at most one point among them, and perhaps an exponent; or
one of the names of infinity and of no number, in any case.  Digits may be of any script, with single
underscores between two of them, and blanks may stand around the number.
-/
import SolidityKit.Number.Numeral

namespace SolidityKit.Binary64

/-- The text with a digit of ASCII in place of every digit of another script. -/
def plainDigits (t : Text) : Text :=
  t.map fun c => (digitValue? c).elim c fun d => Char.ofNat ('0'.toNat + d)

/-- The text without the underscores between two digits; `none` if one stands elsewhere. -/
def dropUnderscores? : Text → Option Text
  | [] => some []
  | ['_'] => none
  | '_' :: _ :: _ => none
  | c :: '_' :: d :: rest =>
    if c.isDigit && d.isDigit then (dropUnderscores? (d :: rest)).map (c :: ·) else none
  | c :: rest => (dropUnderscores? rest).map (c :: ·)

/-- The power of ten after the mark of an exponent; no exponent at all is a power of zero. -/
def exponentOf? : Text → Option Int
  | [] => some 0
  | e :: rest =>
    if e ≠ 'e' && e ≠ 'E' then none
    else
      let (negative, ds) := Numeral.signed rest
      if ds.isEmpty || !ds.all Char.isDigit then none
      else
        let n : Int := Numeral.ofDigits (ds.filterMap digitValue?)
        some (if negative then -n else n)

/-- The number that digits, a point among them and an exponent stand for. -/
def ofDigits? (negative : Bool) (t : Text) : Option Binary64 := do
  let (whole, rest) := t.span Char.isDigit
  let (fraction, rest) :=
    match rest with
    | '.' :: rest => rest.span Char.isDigit
    | _ => ([], rest)
  guard (!(whole ++ fraction).isEmpty)
  let exponent ← exponentOf? rest
  let digits := Numeral.ofDigits ((whole ++ fraction).filterMap digitValue?)
  return Decimal.toBinary negative ⟨digits, exponent - fraction.length⟩

/-- Reads a number. -/
def read? (t : Text) : Option Binary64 := do
  let plain ← dropUnderscores? (plainDigits (Text.trim t))
  let (negative, body) := Numeral.signed plain
  let name := String.ofList (body.map Char.toLower)
  if name = "inf" || name = "infinity" then return .infinite negative
  else if name = "nan" then return .nan
  else ofDigits? negative body

/-- The sum of two numbers. -/
def add : Binary64 → Binary64 → Binary64
  | nan, _ | _, nan => nan
  | infinite s, infinite t => if s = t then infinite s else nan
  | infinite s, _ => infinite s
  | _, infinite t => infinite t
  | finite s m d, finite t n e =>
    let signed (negative : Bool) (size : Nat) : Int := if negative then -size else size
    let sum := signed s (units m d) + signed t (units n e)
    if sum = 0 then zero (s && t) else ofRatio (sum < 0) sum.natAbs unitsPerOne

/-- The number with the opposite sign. -/
def negate : Binary64 → Binary64
  | nan => nan
  | infinite s => infinite (!s)
  | finite s m d => finite (!s) m d

end SolidityKit.Binary64
