/-
Why a configuration document cannot be read.
-/
import SolidityKit.Number.Numeral
import SolidityKit.Text.Quoted

namespace SolidityKit.Yaml

/-- A part of a date or time that is out of its range. -/
inductive DateFault where
  /-- The text is no date. -/
  | form
  /-- The year. -/
  | year (n : Nat)
  /-- The month. -/
  | month
  /-- The day of the month. -/
  | day
  /-- The hour. -/
  | hour
  /-- The minute. -/
  | minute
  /-- The second. -/
  | second
  /-- The distance from universal time, in minutes. -/
  | distance (minutes : Int)
deriving DecidableEq, Repr

/-- Why a document cannot be read. -/
inductive Fault where
  /-- The text has not the form of a document, or the document has no value. -/
  | malformed
  /-- An escape by number names no character. -/
  | noCharacter
  /-- An escape by number does not even fit into a machine word. -/
  | hugeCharacter
  /-- A number without a text. -/
  | emptyNumber
  /-- A text that is no whole number in a base. -/
  | badNumeral (digits : Text) (base : Nat)
  /-- A whole number with more digits than are accepted. -/
  | longNumeral (digits : Nat)
  /-- A text that is no floating-point number. -/
  | badDecimal (text : Text)
  /-- A text that is no truth value. -/
  | badTruth (text : Text)
  /-- A date or time that does not exist. -/
  | badDate (f : DateFault)
  /-- Anything else that a reader may have to say. -/
  | other (words : String)
deriving DecidableEq, Repr

/-- A distance in minutes as days and seconds, the seconds never negative. -/
def durationText (minutes : Int) : String :=
  let days := Int.fdiv minutes 1440
  let seconds := (minutes % 1440) * 60
  let parts := (if days = 0 then [] else [s!"days={days}"]) ++
    (if seconds = 0 then [] else [s!"seconds={seconds}"])
  let listed := ", ".intercalate parts
  s!"datetime.timedelta({listed})"

/-- The words for a date that does not exist. -/
def DateFault.message : DateFault → String
  | form => "'NoneType' object has no attribute 'groupdict'"
  | year n => s!"year {n} is out of range"
  | month => "month must be in 1..12"
  | day => "day is out of range for month"
  | hour => "hour must be in 0..23"
  | minute => "minute must be in 0..59"
  | second => "second must be in 0..59"
  | distance minutes =>
    "offset must be a timedelta strictly between -timedelta(hours=24) and timedelta(hours=24), "
      ++ s!"not {durationText minutes}."

/-- The words for a fault. -/
def Fault.message : Fault → String
  | malformed => "the document is malformed"
  | noCharacter => "chr() arg not in range(0x110000)"
  | hugeCharacter => "Python int too large to convert to C int"
  | emptyNumber => "string index out of range"
  | badNumeral digits base =>
      s!"invalid literal for int() with base {base}: {String.ofList (Text.quoted digits)}"
  | longNumeral digits =>
    s!"Exceeds the limit ({numeralLimit} digits) for integer string conversion: value has {digits} digits; "
      ++ "use sys.set_int_max_str_digits() to increase the limit"
  | badDecimal text => s!"could not convert string to float: {String.ofList (Text.quoted text)}"
  | badTruth text => String.ofList (Text.quoted text)
  | badDate f => f.message
  | other words => words

end SolidityKit.Yaml
