/-
Values of structured documents.

A value is a scalar, a list or a map.  Maps keep their entries in order; setting a key that is
present changes its value and leaves its place.  Keys are compared by value, so that the keys `1`,
`1.0` and `true` are one key.  JSON documents have text keys only; configuration documents may use
any scalar.
-/
import SolidityKit.Number.Numeral
import SolidityKit.Text.CodePoint

namespace SolidityKit

/-- A day of the calendar. -/
structure Day where
  /-- The year. -/
  year : Nat
  /-- The month, from 1. -/
  month : Nat
  /-- The day of the month, from 1. -/
  day : Nat
deriving DecidableEq, Repr

/-- A time of day, perhaps with its distance from universal time. -/
structure Clock where
  /-- The hour. -/
  hour : Nat
  /-- The minute. -/
  minute : Nat
  /-- The second. -/
  second : Nat
  /-- The microsecond. -/
  micro : Nat
  /-- How many minutes the clock is ahead of universal time. -/
  ahead : Option Int
deriving DecidableEq, Repr

/-- A value of a kind that documents seldom have, such as bytes or a set. -/
structure OtherValue where
  /-- The name of the kind. -/
  kind : String
  /-- How the value is shown. -/
  words : Text
  /-- Whether it counts as true. -/
  truthy : Bool
deriving DecidableEq, Repr

/-- A value without parts. -/
inductive Scalar where
  /-- The absent value. -/
  | null
  /-- A truth value. -/
  | bool (b : Bool)
  /-- A whole number. -/
  | int (n : Int)
  /-- A floating-point number. -/
  | float (x : Binary64)
  /-- A text. -/
  | text (s : String)
  /-- A text with at least one surrogate that stands alone. -/
  | torn (cs : List CodePoint)
  /-- A date. -/
  | date (d : Day)
  /-- A date with a time. -/
  | moment (d : Day) (c : Clock)
  /-- A value of another kind. -/
  | other (v : OtherValue)
deriving DecidableEq, Repr

/-- A structured document. -/
inductive Value where
  /-- A value without parts. -/
  | scalar (s : Scalar)
  /-- A sequence. -/
  | list (items : List Value)
  /-- Entries in order, each key once. -/
  | map (entries : List (Scalar × Value))
deriving Repr, Inhabited

namespace Scalar

/-- The whole number that a scalar counts as when it is compared, if it is one. -/
def asInt? : Scalar → Option Int
  | bool b => some (if b then 1 else 0)
  | int n => some n
  | _ => none

/-- Whether two scalars have the same value. -/
def sameValue (a b : Scalar) : Bool :=
  match a, b with
  | float x, float y => x.sameValue y
  | float x, b => (b.asInt?.map x.isInt).getD false
  | a, float y => (a.asInt?.map y.isInt).getD false
  | a, b =>
    match a.asInt?, b.asInt? with
    | some m, some n => m == n
    | _, _ => a == b

/-- Whether two scalars are the same key; unlike as a value, `nan` is itself as a key. -/
def sameKey (a b : Scalar) : Bool := a == b || a.sameValue b

/-- Whether a scalar counts as true. -/
def isTruthy : Scalar → Bool
  | null => false
  | bool b => b
  | int n => n != 0
  | float x => !x.isZero
  | text s => s != ""
  | torn _ | date _ | moment .. => true
  | other v => v.truthy

/-- The text with these code points. -/
def ofPoints (cs : Points) : Scalar :=
  match CodePoint.toText? cs with
  | some t => text (String.ofList t)
  | none => torn cs

/-- The name of the kind of a scalar. -/
def kindName : Scalar → String
  | null => "NoneType"
  | bool _ => "bool"
  | int _ => "int"
  | float _ => "float"
  | text _ | torn _ => "str"
  | date _ => "date"
  | moment .. => "datetime"
  | other v => v.kind

end Scalar

/-- The entries of a map. -/
abbrev Entries := List (Scalar × Value)

namespace Entries

/-- The value at a key. -/
def get? (key : Scalar) : Entries → Option Value
  | [] => none
  | (k, v) :: rest => if k.sameKey key then some v else get? key rest

/-- Sets the value at a key; a new key goes to the end. -/
def insert (key : Scalar) (value : Value) : Entries → Entries
  | [] => [(key, value)]
  | (k, v) :: rest => if k.sameKey key then (k, value) :: rest else (k, v) :: insert key value rest

/-- The value at a text key. -/
def field? (name : String) (es : Entries) : Option Value := get? (.text name) es

/-- Sets the value at a text key. -/
def setField (name : String) (value : Value) (es : Entries) : Entries := insert (.text name) value es

/-- The entries without those at the given text keys. -/
def dropFields (names : List String) (es : Entries) : Entries :=
  es.filter fun e => !names.any fun n => e.1.sameKey (.text n)

/-- Builds entries one after the other; the last value of a repeated key stands at its first place. -/
def ofList (es : List (Scalar × Value)) : Entries :=
  es.foldl (fun acc e => insert e.1 e.2 acc) []

end Entries

namespace Value

/-- The absent value. -/
def null : Value := scalar .null

/-- A text. -/
def text (s : String) : Value := scalar (.text s)

/-- The text with these code points. -/
def ofPoints (cs : Points) : Value := scalar (.ofPoints cs)

/-- A whole number. -/
def int (n : Int) : Value := scalar (.int n)

/-- The entries of a map. -/
def entries? : Value → Option Entries
  | map es => some es
  | _ => none

/-- The value at a text key, if the value is a map that has it. -/
def field? (name : String) : Value → Option Value
  | map es => Entries.field? name es
  | _ => none

/-- Whether the value is a map. -/
def isMap : Value → Bool
  | map _ => true
  | _ => false

/-- Whether the value is absent. -/
def isNull : Value → Bool
  | scalar .null => true
  | _ => false

/-- Whether a value counts as true: absent, zero and empty values do not. -/
def isTruthy : Value → Bool
  | scalar s => s.isTruthy
  | list items => !items.isEmpty
  | map es => !es.isEmpty

/-- The name of the kind of a value. -/
def kindName : Value → String
  | scalar s => s.kindName
  | list _ => "list"
  | map _ => "dict"

mutual

/-- Whether two parts of a document are equal; inside a document `nan` is equal to itself. -/
def samePart : Value → Value → Bool
  | scalar a, scalar b => a.sameKey b
  | list xs, list ys => sameParts xs ys
  | map es, map fs => es.length == fs.length && sameEntries es fs
  | _, _ => false

/-- Whether two sequences have equal parts. -/
def sameParts : List Value → List Value → Bool
  | [], [] => true
  | x :: xs, y :: ys => samePart x y && sameParts xs ys
  | _, _ => false

/-- Whether each entry has an equal one among the others, in any order. -/
def sameEntries : List (Scalar × Value) → Entries → Bool
  | [], _ => true
  | (k, v) :: rest, fs =>
    (match Entries.get? k fs with
      | some w => samePart v w
      | none => false) && sameEntries rest fs

end

/-- Whether two documents have the same value; a document that is `nan` equals none. -/
def sameValue : Value → Value → Bool
  | scalar a, scalar b => a.sameValue b
  | v, w => samePart v w

mutual

/-- Whether all whole numbers in the document have few enough digits to be written. -/
def isWritable : Value → Bool
  | scalar (.int n) => Numeral.isWritable n
  | scalar _ => true
  | list items => areWritable items
  | map es => entriesAreWritable es

/-- Whether `isWritable` holds of all items. -/
def areWritable : List Value → Bool
  | [] => true
  | v :: rest => v.isWritable && areWritable rest

/-- Whether `isWritable` holds of all keys and values. -/
def entriesAreWritable : List (Scalar × Value) → Bool
  | [] => true
  | (k, v) :: rest =>
    (match k with
      | .int n => Numeral.isWritable n
      | _ => true) && v.isWritable && entriesAreWritable rest

end

end Value

end SolidityKit
