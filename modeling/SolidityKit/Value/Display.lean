/-
Values as they appear in messages and in settings made from them.

A text on its own stands as it is, with the surrogates that stand alone in it.  Inside a list or a map it is
quoted and they are escaped.  Dates are shown there with the kind of date named; everything else looks the same
on its own and inside.
-/
import SolidityKit.Value.Basic
import SolidityKit.Text.Quoted

namespace SolidityKit

/-- A day as year, month and day between dashes. -/
def Day.text (d : Day) : Text :=
  Decimal.padded 4 d.year ++ '-' :: Decimal.padded 2 d.month ++ '-' :: Decimal.padded 2 d.day

namespace Clock

/-- The distance from universal time with its sign. -/
def aheadText (minutes : Int) : Text :=
  (if minutes < 0 then '-' else '+') :: Decimal.padded 2 (minutes.natAbs / 60) ++
    ':' :: Decimal.padded 2 (minutes.natAbs % 60)

/-- A time of day; microseconds and the distance from universal time appear only if they are there. -/
def text (c : Clock) : Text :=
  Decimal.padded 2 c.hour ++ ':' :: Decimal.padded 2 c.minute ++ ':' :: Decimal.padded 2 c.second
    ++ (if c.micro = 0 then [] else '.' :: Decimal.padded 6 c.micro)
    ++ (c.ahead.map aheadText).getD []

/-- The zone of a clock inside a list or a map; a negative distance counts back from a day before. -/
def zoneText (minutes : Int) : String :=
  if minutes = 0 then "datetime.timezone.utc"
  else
    let seconds := (minutes * 60) % 86400
    let days := Int.fdiv (minutes * 60) 86400
    let parts := (if days = 0 then [] else [s!"days={days}"]) ++
      (if seconds = 0 then [] else [s!"seconds={seconds}"])
    let listed := ", ".intercalate parts
    s!"datetime.timezone(datetime.timedelta({listed}))"

end Clock

namespace Scalar

/-- The parts of a moment, as they are listed inside a list or a map. -/
def momentText (d : Day) (c : Clock) : String :=
  let base := [d.year, d.month, d.day, c.hour, c.minute]
  let clock := if c.micro ≠ 0 then [c.second, c.micro] else if c.second ≠ 0 then [c.second] else []
  let zone := (c.ahead.map fun m => [s!"tzinfo={Clock.zoneText m}"]).getD []
  let listed := ", ".intercalate ((base ++ clock).map toString ++ zone)
  s!"datetime.datetime({listed})"

/-- The words for a scalar, with a text in quotes. -/
def words : Scalar → Text
  | null => "None".toList
  | bool b => (if b then "True" else "False").toList
  | int n => Numeral.text n
  | float x => x.toText .plain
  | text s => Text.quoted s.toList
  | torn cs => Text.quotedPoints cs
  | date d => d.text
  | moment d c => d.text ++ ' ' :: c.text
  | other v => v.words

/-- A scalar on its own. -/
def display : Scalar → Points
  | text s => s
  | torn cs => cs
  | s => .ofText s.words

/-- A scalar inside a list or a map. -/
def displayPart : Scalar → Text
  | date d => s!"datetime.date({d.year}, {d.month}, {d.day})".toList
  | moment d c => (momentText d c).toList
  | s => s.words

end Scalar

namespace Value

mutual

/-- A value inside a list or a map. -/
def displayPart : Value → Text
  | scalar s => s.displayPart
  | list items => '[' :: displayItems items ++ [']']
  | map es => '{' :: displayEntries es ++ ['}']

/-- The items of a list, with commas between them. -/
def displayItems : List Value → Text
  | [] => []
  | [v] => v.displayPart
  | v :: rest => v.displayPart ++ ',' :: ' ' :: displayItems rest

/-- The entries of a map, with commas between them. -/
def displayEntries : List (Scalar × Value) → Text
  | [] => []
  | [(k, v)] => k.displayPart ++ ':' :: ' ' :: v.displayPart
  | (k, v) :: rest => k.displayPart ++ ':' :: ' ' :: v.displayPart ++ ',' :: ' ' :: displayEntries rest

end

/-- A value on its own. -/
def display : Value → Points
  | scalar s => s.display
  | v => .ofText v.displayPart

end Value

end SolidityKit
