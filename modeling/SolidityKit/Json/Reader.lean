/-
Reading JSON texts.

The reader takes JSON as it is commonly written: whole numbers and floating-point numbers are told
apart, `NaN` and the two infinities are numbers, control characters must be escaped, and the last
value of a repeated key wins.  A fault names what was expected and where.

While reading, a place is given by the amount of text that remains; the whole text, known only at
the end, turns it into line and column.
-/
import SolidityKit.Value.Basic
import SolidityKit.Text.HexDigit

namespace SolidityKit.Json

/-- What is wrong with a JSON text at a place. -/
inductive Cause where
  /-- No value starts here. -/
  | expectedValue
  /-- No key starts here. -/
  | expectedKey
  /-- No colon after a key. -/
  | expectedColon
  /-- Neither a comma nor the end of a list or map. -/
  | expectedComma
  /-- Something follows the document. -/
  | extraData
  /-- The text that starts here has no end. -/
  | unterminated
  /-- A control character inside a text. -/
  | controlCharacter
  /-- A backslash before a character that has no escape. -/
  | badEscape
  /-- An escape by number without four hexadecimal digits. -/
  | badNumberEscape
  /-- The document starts with a byte order mark. -/
  | byteOrderMark
deriving DecidableEq, Repr

/-- Why a JSON text was refused. -/
inductive Fault where
  /-- The form is wrong at a place: line and column from one, offset from zero. -/
  | malformed (cause : Cause) (line column offset : Nat)
  /-- A whole number has more digits than are accepted. -/
  | longNumeral (digits : Nat)
deriving DecidableEq, Repr

/-- The words for a cause. -/
def Cause.message : Cause → String
  | expectedValue => "Expecting value"
  | expectedKey => "Expecting property name enclosed in double quotes"
  | expectedColon => "Expecting ':' delimiter"
  | expectedComma => "Expecting ',' delimiter"
  | extraData => "Extra data"
  | unterminated => "Unterminated string starting at"
  | controlCharacter => "Invalid control character at"
  | badEscape => "Invalid \\escape"
  | badNumberEscape => "Invalid \\uXXXX escape"
  | byteOrderMark => "Unexpected UTF-8 BOM (decode using utf-8-sig)"

/-- The words for a fault. -/
def Fault.message : Fault → String
  | malformed cause line column offset => s!"{cause.message}: line {line} column {column} (char {offset})"
  | longNumeral digits =>
    s!"Exceeds the limit ({numeralLimit} digits) for integer string conversion: value has {digits} digits; "
      ++ "use sys.set_int_max_str_digits() to increase the limit"

/-- A fault at a place that is given by the amount of text remaining there. -/
inductive Stop where
  /-- The form is wrong. -/
  | malformed (cause : Cause) (remaining : Nat)
  /-- A whole number has more digits than are accepted. -/
  | longNumeral (digits : Nat)

/-- Reading gives a result and the text after it. -/
abbrev Reading (α : Type) := Except Stop (α × Text)

/-- A fault of form at the start of a text. -/
def stopAt {α : Type} (cause : Cause) (t : Text) : Except Stop α := .error (.malformed cause t.length)

/-- Whether the character may stand between the parts of a document. -/
def isSpace (c : Char) : Bool := c == ' ' || c == '\t' || c == '\n' || c == '\r'

/-- The text after leading space. -/
def skipSpace (t : Text) : Text := t.dropWhile isSpace

/-- The number that four hexadecimal digits stand for. -/
def hexFour? (a b c d : Char) : Option Nat := hexNumber? [a, b, c, d]

/-- The character that a letter after a backslash stands for. -/
def escape? : Char → Option Char
  | '"' => some '"'
  | '\\' => some '\\'
  | '/' => some '/'
  | 'b' => some (Char.ofNat 0x08)
  | 'f' => some (Char.ofNat 0x0C)
  | 'n' => some '\n'
  | 'r' => some '\r'
  | 't' => some '\t'
  | _ => none

/--
The code points up to the closing quote, and the text after it.  Of an escape by number, the first
`skip` characters after the `u` have been taken already.
-/
def readPoints (opened : Nat) : (skip : Nat) → Text → Reading (List CodePoint)
  | skip + 1, _ :: rest => readPoints opened skip rest
  | _, [] => .error (.malformed .unterminated opened)
  | 0, '"' :: rest => .ok ([], rest)
  | 0, '\\' :: [] => .error (.malformed .unterminated opened)
  | 0, '\\' :: 'u' :: rest =>
    match rest with
    -- the digits must not be the last thing in the text
    | a :: b :: c :: d :: _ :: _ =>
      match hexFour? a b c d with
      | some n => (readPoints opened 4 rest).map fun r => (.ofNat n :: r.1, r.2)
      | none => stopAt .badNumberEscape ('u' :: rest)
    | _ => stopAt .badNumberEscape ('u' :: rest)
  | 0, '\\' :: c :: rest =>
    match escape? c with
    | some x => (readPoints opened 0 rest).map fun r => (.char x :: r.1, r.2)
    | none => stopAt .badEscape ('\\' :: c :: rest)
  | 0, c :: rest =>
    if c.toNat < 0x20 then stopAt .controlCharacter (c :: rest)
    else (readPoints opened 0 rest).map fun r => (.char c :: r.1, r.2)

/-- Reads the text whose opening quote comes next. -/
def readText (t : Text) : Reading Scalar :=
  (readPoints t.length 0 (t.drop 1)).map fun r => (.ofPoints (CodePoint.joinPairs r.1), r.2)

/-- Whether the character is a decimal digit of ASCII. -/
def isDigit (c : Char) : Bool := '0' ≤ c && c ≤ '9'

/-- The digits after a point, if a point and a digit come next. -/
def fraction : Text → Text × Text
  | '.' :: c :: rest =>
    if isDigit c then ((c :: rest).takeWhile isDigit, (c :: rest).dropWhile isDigit) else ([], '.' :: c :: rest)
  | t => ([], t)

/-- The sign and the digits of an exponent, if one comes next. -/
def exponent? : Text → Option (Bool × Text × Text)
  | c :: rest =>
    if c == 'e' || c == 'E' then
      let (negative, body) := Numeral.signed rest
      let ds := body.takeWhile isDigit
      if ds.isEmpty then none else some (negative, ds, body.dropWhile isDigit)
    else none
  | [] => none

/-- The natural number that ASCII digits stand for. -/
def digitsValue (ds : Text) : Nat := ds.foldl (fun n c => 10 * n + (c.toNat - '0'.toNat)) 0

/-- Reads the number that comes next. -/
def readNumber (t : Text) : Reading Scalar :=
  let (negative, body) :=
    match t with
    | '-' :: rest => (true, rest)
    | _ => (false, t)
  let whole :=
    match body with
    | '0' :: _ => ['0']
    | _ => body.takeWhile isDigit
  if whole.isEmpty then stopAt .expectedValue t
  else
    let (decimals, afterPoint) := fraction (body.drop whole.length)
    match decimals, exponent? afterPoint with
    | [], none =>
      if numeralLimit < whole.length then .error (.longNumeral whole.length)
      else
        let n : Int := digitsValue whole
        .ok (.int (if negative then -n else n), afterPoint)
    | _, power =>
      let digits := digitsValue (whole ++ decimals)
      let (shift, rest) : Int × Text :=
        match power with
        | none => (0, afterPoint)
        | some (down, ds, rest) => (if down then -(digitsValue ds : Int) else digitsValue ds, rest)
      .ok (.float (Decimal.toBinary negative ⟨digits, shift - decimals.length⟩), rest)

/-- The words that are values, longest first where one starts another. -/
def words : List (Text × Scalar) :=
  [("null".toList, .null), ("true".toList, .bool true), ("false".toList, .bool false),
    ("NaN".toList, .float .nan),
   ("Infinity".toList, .float (.infinite false)), ("-Infinity".toList, .float (.infinite true))]

/-- Reads the scalar other than a text that comes next. -/
def readWord (t : Text) : Reading Scalar :=
  match words.find? fun w => w.1.isPrefixOf t with
  | some (w, s) => .ok (s, t.drop w.length)
  | none => readNumber t

mutual

/-- Reads the value that comes next; `fuel` bounds the depth and the length of what is read. -/
def readValue : (fuel : Nat) → Text → Reading Value
  | 0, t => stopAt .expectedValue t
  | _, '"' :: rest => (readText ('"' :: rest)).map fun r => (.scalar r.1, r.2)
  | fuel + 1, '{' :: rest =>
    match skipSpace rest with
    | '}' :: rest => .ok (.map [], rest)
    | t => (readEntries fuel t).map fun r => (.map (Entries.ofList r.1), r.2)
  | fuel + 1, '[' :: rest =>
    match skipSpace rest with
    | ']' :: rest => .ok (.list [], rest)
    | t => (readItems fuel t).map fun r => (.list r.1, r.2)
  | _, t => (readWord t).map fun r => (.scalar r.1, r.2)

/-- Reads items up to the closing bracket. -/
def readItems : (fuel : Nat) → Text → Except Stop (List Value × Text)
  | 0, t => stopAt .expectedValue t
  | fuel + 1, t => do
    let (v, t) ← readValue fuel t
    match skipSpace t with
    | ']' :: rest => .ok ([v], rest)
    | ',' :: rest => (readItems fuel (skipSpace rest)).map fun r => (v :: r.1, r.2)
    | t => stopAt .expectedComma t

/-- Reads entries up to the closing brace. -/
def readEntries : (fuel : Nat) → Text → Except Stop (List (Scalar × Value) × Text)
  | 0, t => stopAt .expectedValue t
  | fuel + 1, t => do
    match t with
    | '"' :: _ =>
      let (key, t) ← readText t
      match skipSpace t with
      | ':' :: rest =>
        let (v, t) ← readValue fuel (skipSpace rest)
        match skipSpace t with
        | '}' :: rest => .ok ([(key, v)], rest)
        | ',' :: rest => (readEntries fuel (skipSpace rest)).map fun r => ((key, v) :: r.1, r.2)
        | t => stopAt .expectedComma t
      | t => stopAt .expectedColon t
    | t => stopAt .expectedKey t

end

/-- A fault at an offset of a text. -/
def faultAt (t : Text) (cause : Cause) (offset : Nat) : Fault :=
  let before := t.take offset
  .malformed cause (before.count '\n' + 1) ((before.reverse.takeWhile (· != '\n')).length + 1) offset

/-- Gives a fault its place in the whole text. -/
def Stop.locate (t : Text) : Stop → Fault
  | .malformed cause remaining => faultAt t cause (t.length - remaining)
  | .longNumeral digits => .longNumeral digits

/-- Reads a document.  Every step takes at least one character, so that the fuel never runs out. -/
def read (t : Text) : Except Fault Value :=
  if t.head? = some (Char.ofNat 0xFEFF) then .error (faultAt t .byteOrderMark 0)
  else
    match readValue (2 * t.length + 2) (skipSpace t) with
    | .error stop => .error (stop.locate t)
    | .ok (v, rest) =>
      match skipSpace rest with
      | [] => .ok v
      | extra => .error (faultAt t .extraData (t.length - extra.length))

end SolidityKit.Json
