/-
What a scalar is to be read as.

A tag says it; without a tag, a quoted text is a text, and a plain one is whatever it looks like:
nothing, a truth value, a number, a date, or else a text.  The shapes are given here; the values that
they stand for are read elsewhere.
-/
import SolidityKit.Yaml.Timestamp
import SolidityKit.Text.HexDigit

namespace SolidityKit.Yaml

/-- What a part of a document is to be read as. -/
inductive Kind where
  /-- Nothing. -/
  | null
  /-- A truth value. -/
  | bool
  /-- A whole number. -/
  | int
  /-- A floating-point number. -/
  | float
  /-- A date, perhaps with a time. -/
  | date
  /-- A text. -/
  | text
  /-- A list. -/
  | list
  /-- A map. -/
  | map
  /-- As a key: the entries of other maps. -/
  | merge
  /-- As a key: the default value. -/
  | default
  /-- Something that is not known. -/
  | unknown
deriving DecidableEq, Repr

namespace Kind

/-- How the known tags start. -/
def tagStart : Text := "tag:yaml.org,2002:".toList

/-- The kinds by the ends of their tags. -/
def names : List (String × Kind) :=
  [("null", null), ("bool", bool), ("int", int), ("float", float), ("timestamp", date), ("str", text),
   ("seq", list), ("map", map), ("merge", merge), ("value", default)]

/-- The kind that a tag stands for. -/
def ofTag (tag : Text) : Kind :=
  if tagStart.isPrefixOf tag then
    (names.lookup (String.ofList (tag.drop tagStart.length))).getD unknown
  else unknown

/-- The plain texts that stand for nothing. -/
def nullWords : List String := ["", "~", "null", "Null", "NULL"]

/-- The plain texts that stand for truth values. -/
def truthWords : List String :=
  ["yes", "Yes", "YES", "no", "No", "NO", "true", "True", "TRUE", "false", "False", "FALSE",
   "on", "On", "ON", "off", "Off", "OFF"]

/-- Whether a character is a digit or an underscore. -/
def isDigitOrLine (c : Char) : Bool := c.isDigit || c == '_'

/-- Whether a text is a digit and further digits and underscores. -/
def isDigits : Text → Bool
  | [] => false
  | c :: rest => c.isDigit && rest.all isDigitOrLine

/-- Whether a text is a number from 0 to 59, of one digit or two. -/
def isSixtieth : Text → Bool
  | [d] => d.isDigit
  | [a, b] => '0' ≤ a && a ≤ '5' && b.isDigit
  | _ => false

/-- Whether a text is digits and one or more numbers from 0 to 59, with colons between them. -/
def isSexagesimal (t : Text) : Bool :=
  match Text.splitAt ':' t with
  | first :: part :: parts => isDigits first && (part :: parts).all isSixtieth
  | _ => false

/-- Whether a text without a sign is a whole number. -/
def isWhole : Text → Bool
  | ['0'] => true
  | '0' :: 'b' :: ds => !ds.isEmpty && ds.all fun c => c == '0' || c == '1' || c == '_'
  | '0' :: 'x' :: ds => !ds.isEmpty && ds.all fun c => (hexDigitValue? c).isSome || c == '_'
  | '0' :: ds => ds.all fun c => ('0' ≤ c && c ≤ '7') || c == '_'
  | t => isDigits t || isSexagesimal t

/-- Whether a text is nothing or an exponent with a sign. -/
def isSignedExponent : Text → Bool
  | [] => true
  | e :: sign :: ds =>
      (e == 'e' || e == 'E') && (sign == '-' || sign == '+') && !ds.isEmpty && ds.all Char.isDigit
  | _ => false

/-- Whether a text is digits and underscores and perhaps an exponent. -/
def isFraction (t : Text) : Bool := isSignedExponent (t.dropWhile isDigitOrLine)

/-- Whether a text is a floating-point number. -/
def isFloat (t : Text) : Bool :=
  let body := (Numeral.signed t).2
  match Text.cut? '.' body with
  | none => false
  | some ([], rest) =>
    ["inf", "Inf", "INF"].contains (String.ofList rest)
      || (body == t && (["nan", "NaN", "NAN"].contains (String.ofList rest)
        || (rest.head?.any Char.isDigit && isFraction rest)))
  | some (whole, rest) =>
    (isDigits whole && isFraction rest) || (isSexagesimal whole && rest.all isDigitOrLine)

/-- What a plain text is to be read as. -/
def ofPlainText (t : Text) : Kind :=
  let s := String.ofList t
  if nullWords.contains s then null
  else if truthWords.contains s then bool
  else if s = "<<" then merge
  else if s = "=" then default
  else if isFloat t then float
  else if isWhole (Numeral.signed t).2 then int
  else if (Timestamp.read? t).any (·.isPlainForm) then date
  else text

/-- What the code points of a plain text are to be read as. -/
def ofPlain (points : List CodePoint) : Kind := ((CodePoint.toText? points).map ofPlainText).getD text

/-- Shapes of numbers and of texts that only look like them. -/
example : (["010", "08", "0x1F", "1:30", "0:30", "1e3", "1.0e+3", "-.5", ".5", "+.inf", "1_0.", "-0"].map
    fun s => ofPlainText s.toList) =
    [int, text, int, int, text, text, float, text, float, float, float, int] := by decide +kernel

end Kind

end SolidityKit.Yaml
