/-
Dates and times in configuration documents.

A date is a year, a month and a day.  A time may follow, with a fraction of a second and a distance
from universal time.  `Timestamp.read?` takes the form apart, and `Timestamp.toScalar` checks that
there is such a day and such a time.
-/
import SolidityKit.Yaml.Fault
import SolidityKit.Text.Lines
import SolidityKit.Value.Basic

namespace SolidityKit.Yaml

/-- A time of day as it is written. -/
structure ClockText where
  /-- The hour. -/
  hour : Nat
  /-- The minute. -/
  minute : Nat
  /-- The second. -/
  second : Nat
  /-- The digits of the fraction of a second. -/
  fraction : Text
  /-- How many minutes the clock is ahead of universal time, if that is written. -/
  ahead : Option Int

/-- A date as it is written. -/
structure Timestamp where
  /-- The year, of four digits. -/
  year : Nat
  /-- The digits of the month, one or two. -/
  month : Text
  /-- The digits of the day, one or two. -/
  day : Text
  /-- The time of day, if one is written. -/
  clock : Option ClockText

namespace Timestamp

/-- The number that digits of ASCII stand for. -/
def number (ds : Text) : Nat := Numeral.ofDigits (ds.map fun c => c.toNat - '0'.toNat)

/-- Splits off exactly `n` digits. -/
def digits? (n : Nat) (t : Text) : Option (Text × Text) :=
  let ds := t.take n
  if ds.length = n && ds.all Char.isDigit then some (ds, t.drop n) else none

/-- Splits off two digits, or one if there are no two. -/
def oneOrTwo? (t : Text) : Option (Text × Text) := (digits? 2 t).orElse fun _ => digits? 1 t

/-- Splits off one given character. -/
def mark? (c : Char) : Text → Option Text
  | d :: rest => if c = d then some rest else none
  | [] => none

/-- Reads a distance from universal time, to the end of the text. -/
def zone? : Text → Option (Option Int)
  | ['Z'] => some (some 0)
  | sign :: rest => do
    guard (sign = '-' || sign = '+')
    let (hours, rest) ← oneOrTwo? rest
    let minutes ←
      match rest with
      | [] => some 0
      | _ => do
        let (minutes, rest) ← digits? 2 (← mark? ':' rest)
        guard rest.isEmpty
        some (number minutes)
    let distance : Int := (number hours * 60 + minutes : Nat)
    return some (if sign = '-' then -distance else distance)
  | [] => none

/-- Reads a time of day, to the end of the text. -/
def clock? (t : Text) : Option ClockText := do
  let (hour, t) ← oneOrTwo? t
  let (minute, t) ← digits? 2 (← mark? ':' t)
  let (second, t) ← digits? 2 (← mark? ':' t)
  let (fraction, t) := ((mark? '.' t).map (·.span Char.isDigit)).getD ([], t)
  let ahead ← if t.isEmpty then some none else zone? (t.dropWhile fun c => c == ' ' || c == '\t')
  return ⟨number hour, number minute, number second, fraction, ahead⟩

/-- The text after what separates a date from a time: a letter T, or spaces. -/
def afterDate? : Text → Option Text
  | c :: rest =>
    if c = 'T' || c = 't' then some rest
    else if c = ' ' || c = '\t' then some (rest.dropWhile fun c => c == ' ' || c == '\t')
    else none
  | [] => none

/-- Reads a date and what follows it. -/
def read? (t : Text) : Option Timestamp := do
  let (year, t) ← digits? 4 t
  let (month, t) ← oneOrTwo? (← mark? '-' t)
  let (day, t) ← oneOrTwo? (← mark? '-' t)
  if t.isEmpty then return ⟨number year, month, day, none⟩
  else return ⟨number year, month, day, some (← clock? (← afterDate? t))⟩

/-- Whether a plain text of this form is a date: without a time, month and day need two digits each. -/
def isPlainForm (s : Timestamp) : Bool := s.clock.isSome || (s.month.length = 2 && s.day.length = 2)

/-- How many days a month has. -/
def daysIn (year month : Nat) : Nat :=
  if month = 2 then if year % 4 = 0 && (year % 100 ≠ 0 || year % 400 = 0) then 29 else 28
  else if month = 4 || month = 6 || month = 9 || month = 11 then 30
  else 31

/-- Checks that there is such a day. -/
def checkDay (d : Day) : Except DateFault Day :=
  if d.year = 0 then .error (.year d.year)
  else if d.month = 0 || 12 < d.month then .error .month
  else if d.day = 0 || daysIn d.year d.month < d.day then .error .day
  else .ok d

/-- Checks that there is such a time of day. -/
def checkClock (c : Clock) : Except DateFault Clock :=
  if 23 < c.hour then .error .hour
  else if 59 < c.minute then .error .minute
  else if 59 < c.second then .error .second
  else .ok c

/-- Checks that the distance from universal time is less than a day. -/
def checkDistance : Option Int → Except DateFault (Option Int)
  | some minutes => if minutes.natAbs < 1440 then .ok (some minutes) else .error (.distance minutes)
  | none => .ok none

/-- The first six digits of a fraction of a second, as microseconds. -/
def micros (fraction : Text) : Nat :=
  let ds := fraction.take 6
  number ds * Nat.pow 10 (6 - ds.length)

/-- The date, or the moment, that a text stands for. -/
def toScalar (s : Timestamp) : Except DateFault Scalar := do
  let day : Day := ⟨s.year, number s.month, number s.day⟩
  match s.clock with
  | none => return .date (← checkDay day)
  | some c =>
    let ahead ← checkDistance c.ahead
    let day ← checkDay day
    return .moment day (← checkClock ⟨c.hour, c.minute, c.second, micros c.fraction, ahead⟩)

end Timestamp

end SolidityKit.Yaml
