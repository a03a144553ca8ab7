/-
The values of configuration documents.

`Yaml.read` gives the value of the one document of a text.  Faults of form come first.  Of the values
that cannot be read, the one nearest to the top of the document counts, and of several at one depth the
first.

This is the reader of the program, made for documents of settings; the tools take any reader.  A tag for
bytes, a set or pairs is a fault here, and an alias inside of what it names stands for the absent value.
-/
import SolidityKit.Yaml.Node
import SolidityKit.Number.FloatText
import SolidityKit.Text.LowerCase
import SolidityKit.Value.Basic

namespace SolidityKit.Yaml

/-! ### Scalars -/

/-- The value of a digit or a letter as a digit. -/
def digitOrLetterValue? (c : Char) : Option Nat :=
  if c.isLower then some (c.toNat - 'a'.toNat + 10)
  else if c.isUpper then some (c.toNat - 'A'.toNat + 10)
  else digitValue? c

/-- The text without the mark of a base. -/
def dropBaseMark (base : Nat) : Text → Text
  | '0' :: m :: rest =>
    if (base = 2 && m.toLower = 'b') || (base = 8 && m.toLower = 'o') ||
      (base = 16 && m.toLower = 'x') then rest
    else '0' :: m :: rest
  | t => t

/-- The whole number that a text stands for in a base; only bases that are no power of two limit its length. -/
def numeralIn (base : Nat) (t : Text) : Except Fault Int :=
  let (negative, body) := Numeral.signed (Text.trim t)
  match (dropBaseMark base body).mapM fun c => (digitOrLetterValue? c).filter (· < base) with
  | none | some [] => .error (.badNumeral t base)
  | some ds =>
    if base = 10 && numeralLimit < ds.length then .error (.longNumeral ds.length)
    else
      let n : Int := (ds.foldl (fun n d => base * n + d) 0 : Nat)
      .ok (if negative then -n else n)

/-- The sum of parts that count sixty of the part after them each. -/
def sexagesimalSum {α : Type} (zero : α) (add : α → α → α) (scale : α → Nat → α) (parts : List α) : α :=
  (parts.reverse.foldl (fun (sum, weight) p => (add sum (scale p weight), weight * 60)) (zero, 1)).1

/-- The sign of a number and the rest of its text, without underscores. -/
def signedNumber (t : Text) : Except Fault (Bool × Text) :=
  match t.filter (· ≠ '_') with
  | [] => .error .emptyNumber
  | '-' :: rest => .ok (true, rest)
  | '+' :: rest => .ok (false, rest)
  | t => .ok (false, t)

/-- The whole number without a sign that a text stands for. -/
def unsignedInt : Text → Except Fault Int
  | [] => .error .emptyNumber
  | ['0'] => .ok 0
  | '0' :: 'b' :: ds => numeralIn 2 ds
  | '0' :: 'x' :: ds => numeralIn 16 ds
  | '0' :: ds => numeralIn 8 ('0' :: ds)
  | t => do
    let parts ← (Text.splitAt ':' t).mapM (numeralIn 10)
    return sexagesimalSum 0 (· + ·) (fun n w => n * w) parts

/-- The whole number that a text stands for. -/
def readInt (t : Text) : Except Fault Int := do
  let (negative, body) ← signedNumber t
  let n ← unsignedInt body
  return if negative then -n else n

/-- The floating-point number that a part of a text stands for. -/
def decimalPart (t : Text) : Except Fault Binary64 := (Binary64.read? t).elim (.error (.badDecimal t)) .ok

/-- The floating-point number without a sign that a text stands for. -/
def unsignedFloat (t : Text) : Except Fault Binary64 :=
  if t = ".inf".toList then .ok (.infinite false)
  else if t = ".nan".toList then .ok .nan
  else
    match Text.splitAt ':' t with
    | [_] => decimalPart t
    | parts => do
      return sexagesimalSum (.zero false) .add .scale (← parts.mapM decimalPart)

/-- The floating-point number that a text stands for. -/
def readFloat (t : Text) : Except Fault Binary64 := do
  let (negative, body) ← signedNumber (Text.lower t)
  let x ← unsignedFloat body
  return if negative then x.negate else x

/-- The truth value that a text stands for. -/
def readTruth (t : Text) : Except Fault Bool :=
  let word := String.ofList (Text.lower t)
  if ["yes", "true", "on"].contains word then .ok true
  else if ["no", "false", "off"].contains word then .ok false
  else .error (.badTruth (Text.lower t))

/-- The date that a text stands for. -/
def readDate (t : Text) : Except Fault Scalar :=
  (((Timestamp.read? t).elim (.error .form) Timestamp.toScalar).mapError .badDate)

/-- The value of a scalar of a kind. -/
def readScalar (kind : Kind) (points : List CodePoint) : Except Fault Scalar :=
  let t := CodePoint.toTextLossy points
  match kind with
  | .null => .ok .null
  | .text => .ok (.ofPoints points)
  | .bool => (readTruth t).map .bool
  | .int => (readInt t).map .int
  | .float => (readFloat t).map .float
  | .date => readDate t
  | .list | .map | .merge | .default | .unknown => .error .malformed

/-! ### Values -/

/-- What has been read, or the fault that counts and how deep it is. -/
abbrev Found (α : Type) := Except (Nat × Fault) α

/-- Two results together; of two faults the less deep one counts, or else the first. -/
def Found.pair {α β : Type} : Found α → Found β → Found (α × β)
  | .ok a, .ok b => .ok (a, b)
  | .ok _, .error f => .error f
  | .error e, .ok _ => .error e
  | .error e, .error f => .error (if f.1 < e.1 then f else e)

/-- The fault of a list or a map whose kind is neither: known only when its content is read, or at once. -/
def wrongForm {α : Type} (depth : Nat) (kind : Kind) : Found α :=
  .error (if kind = .list || kind = .map then depth + 1 else depth, .malformed)

namespace Node

mutual

/-- The value of a node at a depth. -/
def value (depth : Nat) : Node → Found Value
  | scalar kind points =>
    if kind = .list || kind = .map then wrongForm depth kind
    else ((readScalar kind points).mapError (depth, ·)).map .scalar
  | list kind items =>
    if kind = .list then (itemValues (depth + 1) items).map .list else wrongForm depth kind
  | map kind es complete =>
    if kind = .map then
      if complete then (entryValues (depth + 1) es).map fun es => .map (Entries.ofList es)
      else .error (depth + 1, .malformed)
    else wrongForm depth kind

/-- The values of the items of a list. -/
def itemValues (depth : Nat) : List Node → Found (List Value)
  | [] => .ok []
  | n :: rest => (Found.pair (value depth n) (itemValues depth rest)).map fun (v, vs) => v :: vs

/-- The entries of a map; a key must be a scalar. -/
def entryValues (depth : Nat) : List (Node × Node) → Found (List (Scalar × Value))
  | [] => .ok []
  | (k, v) :: rest =>
    let key : Found Scalar :=
      match k with
      | scalar kind points => (readScalar kind points).mapError (depth, ·)
      | _ => .error (depth, .malformed)
    (Found.pair key (Found.pair (value depth v) (entryValues depth rest))).map
      fun (k, v, es) => (k, v) :: es

end

end Node

/-- The value of the one document of a text; without a document there is no value. -/
def read (t : Text) : Except Fault (Option Value) := do
  match ← Node.ofTokens (Tokens.ofText t) with
  | none => return none
  | some n => (n.value 0).mapError (·.2) |>.map some

end SolidityKit.Yaml
