/-
The texts of scalars: plain, quoted and block texts.

A plain text ends where something else can start.  A quoted text ends with its quote.  In both, a
single line end reads as a space, and of several the first is dropped.  A block text consists of the
indented lines after its header; a folded one joins lines as plain texts do.

Each reader takes a cursor at the start of a text and gives the text and the cursor after it.  The
readers recurse on an amount of text that is left to read at most, which their callers take from the
cursor.
-/
import SolidityKit.Yaml.Cursor
import SolidityKit.Yaml.Fault
import SolidityKit.Text.HexDigit

namespace SolidityKit.Yaml

/-- What a line end and the ends of blank lines after it read as. -/
def foldBreaks (first : Char) (more : Text) : Text :=
  if first ≠ '\n' then first :: more else if more.isEmpty then [' '] else more

/-- Whether a character is a space or a tab. -/
def isSpaceOrTab (c : Char) : Bool := c == ' ' || c == '\t'

/-! ### Plain texts -/

/-- The characters that open, close or separate parts in brackets. -/
def isFlowMark (c : Char) : Bool := c == ',' || c == '[' || c == ']' || c == '{' || c == '}'

/-- Whether a colon before a character ends a key. -/
def endsKey (inFlow : Bool) (next : Char) : Bool := isGapOrTab next || (inFlow && isFlowMark next)

/-- The first word of a plain text; inside brackets the marks of brackets end it too. -/
def plainWord (inFlow : Bool) : Text → Text
  | [] => []
  | c :: rest =>
    if isGapOrTab c || (c == ':' && endsKey inFlow (rest.headD endMark))
        || (inFlow && (isFlowMark c || c == '?')) then []
    else c :: plainWord inFlow rest

/-- The ends of blank lines, and the place after them; `none` if documents are separated there. -/
def blankLines : (fuel : Nat) → Cursor → Text → Option Text × Cursor
  | 0, c, acc => (some acc.reverse, c)
  | fuel + 1, c, acc =>
    if c.peek == ' ' then blankLines fuel c.advance acc
    else if isBreak c.peek then
      if c.advance.atSeparator then (none, c.advance)
      else blankLines fuel c.advance (breakChar c.peek :: acc)
    else (some acc.reverse, c)

/-- What the space between two words reads as, and the place after it; nothing where a text must end. -/
def plainGap (c : Cursor) : Text × Cursor :=
  let (spaces, c) := c.takeWhile (· == ' ')
  if !isBreak c.peek then (spaces, c)
  else if c.advance.atSeparator then ([], c.advance)
  else
    match blankLines c.rest.length c.advance [] with
    | (some more, after) => (foldBreaks (breakChar c.peek) more, after)
    | (none, after) => ([], after)

/-- A text that has been read. -/
structure ReadText where
  /-- The code points of the text. -/
  points : List CodePoint
  /-- The place after the text. -/
  after : Cursor
  /-- Whether a line ended after the last word. -/
  lineEnded : Bool := false

/-- Reads the words of a plain text, after those in `acc` and the space in `gap`. -/
def plainWords (inFlow : Bool) (margin : Nat) :
    (fuel : Nat) → Cursor → (acc gap : Text) → (lineEnded : Bool) → ReadText
  | 0, c, acc, _, lineEnded => ⟨acc.map .char, c, lineEnded⟩
  | fuel + 1, c, acc, gap, lineEnded =>
    let word := if c.peek == '#' then [] else plainWord inFlow c.rest
    if word.isEmpty then ⟨acc.map .char, c, lineEnded⟩
    else
      let wordEnd := c.skip word.length
      let (nextGap, next) := plainGap wordEnd
      let acc := acc ++ gap ++ word
      let lineEnded := next.line != wordEnd.line
      if nextGap.isEmpty || next.peek == '#' || (!inFlow && next.column < margin) then
        ⟨acc.map .char, next, lineEnded⟩
      else plainWords inFlow margin fuel next acc nextGap lineEnded

/-- Reads a plain text; outside brackets its lines must be indented as far as `margin`. -/
def readPlain (inFlow : Bool) (margin : Nat) (c : Cursor) : ReadText :=
  plainWords inFlow margin (c.rest.length + 1) c [] [] false

/-! ### Quoted texts -/

/-- The character that a letter after a backslash stands for. -/
def escape? : Char → Option Char
  | '0' => some '\x00'
  | 'a' => some '\x07'
  | 'b' => some '\x08'
  | 't' | '\t' => some '\t'
  | 'n' => some '\n'
  | 'v' => some '\x0b'
  | 'f' => some '\x0c'
  | 'r' => some '\r'
  | 'e' => some '\x1b'
  | ' ' => some ' '
  | '"' => some '"'
  | '\\' => some '\\'
  | '/' => some '/'
  | 'N' => some '\x85'
  | '_' => some '\xa0'
  | 'L' => some '\u2028'
  | 'P' => some '\u2029'
  | _ => none

/-- How many hexadecimal digits follow a letter after a backslash. -/
def escapeWidth? : Char → Option Nat
  | 'x' => some 2
  | 'u' => some 4
  | 'U' => some 8
  | _ => none

/-- The code point that an escape by number stands for. -/
def numberedPoint (n : Nat) : Except Fault CodePoint :=
  if n < 0x110000 then .ok (.ofNat n) else if n < 0x80000000 then .error .noCharacter else .error .hugeCharacter

/-- The ends of blank lines inside quotes, where documents may not be separated. -/
def quotedBreaks : (fuel : Nat) → Cursor → Text → Except Fault (Text × Cursor)
  | 0, c, acc => .ok (acc.reverse, c)
  | fuel + 1, c, acc =>
    if c.atSeparator then .error .malformed
    else
      let c := c.skipWhile isSpaceOrTab
      if isBreak c.peek then quotedBreaks fuel c.advance (breakChar c.peek :: acc) else .ok (acc.reverse, c)

/-- What space inside quotes reads as. -/
def quotedGap (c : Cursor) : Except Fault (Text × Cursor) := do
  let (spaces, c) := c.takeWhile isSpaceOrTab
  if !isBreak c.peek then return (spaces, c)
  let (more, after) ← quotedBreaks (c.rest.length + 1) c.advance []
  return (foldBreaks (breakChar c.peek) more, after)

/-- What an escape after its backslash reads as. -/
def readEscape (c : Cursor) : Except Fault (List CodePoint × Cursor) := do
  if let some ch := escape? c.peek then return ([.char ch], c.advance)
  if let some width := escapeWidth? c.peek then
    let digits := c.rest.tail.take width
    if digits.length ≠ width then throw .malformed
    let some n := hexNumber? digits | throw .malformed
    return ([← numberedPoint n], c.skip (width + 1))
  if isBreak c.peek then
    let (more, after) ← quotedBreaks (c.rest.length + 1) c.advance []
    return (more.map .char, after)
  throw .malformed

/-- Reads the code points up to a closing quote, after those in `acc`, which are in reverse. -/
def quotedPoints (double : Bool) : (fuel : Nat) → Cursor → List CodePoint → Except Fault ReadText
  | 0, _, _ => .error .malformed
  | fuel + 1, c, acc =>
    match c.peek with
    | '\x00' => .error .malformed
    | '\'' =>
      if double then quotedPoints double fuel c.advance (.char '\'' :: acc)
      else if c.peekAt 1 == '\'' then quotedPoints double fuel (c.skip 2) (.char '\'' :: acc)
      else .ok ⟨acc.reverse, c.advance, false⟩
    | '"' =>
      if double then .ok ⟨acc.reverse, c.advance, false⟩
      else quotedPoints double fuel c.advance (.char '"' :: acc)
    | '\\' =>
      if double then do
        let (points, after) ← readEscape c.advance
        quotedPoints double fuel after (points.reverse ++ acc)
      else quotedPoints double fuel c.advance (.char '\\' :: acc)
    | ch =>
      if isSpaceOrTab ch || isBreak ch then do
        let (text, after) ← quotedGap c
        quotedPoints double fuel after ((text.map .char).reverse ++ acc)
      else quotedPoints double fuel c.advance (.char ch :: acc)

/-- Reads a quoted text from its opening quote. -/
def readQuoted (double : Bool) (c : Cursor) : Except Fault ReadText :=
  quotedPoints double (c.rest.length + 1) c.advance []

/-! ### Block texts -/

/-- What becomes of the line ends after the last line of a block text. -/
inductive Chomping where
  /-- All are dropped. -/
  | strip
  /-- The first is kept. -/
  | clip
  /-- All are kept. -/
  | keep
deriving DecidableEq, Repr

/-- The header of a block text. -/
structure BlockHeader where
  /-- What becomes of the last line ends. -/
  chomping : Chomping := .clip
  /-- How far the lines are indented, if the header says so. -/
  indent : Option Nat := none

/-- Reads how the last line ends are treated. -/
def readChomping (c : Cursor) : Option Chomping × Cursor :=
  if c.peek == '+' then (some .keep, c.advance)
  else if c.peek == '-' then (some .strip, c.advance)
  else (none, c)

/-- Reads how far lines are indented; it may not be nothing. -/
def readIndent (c : Cursor) : Except Fault (Option Nat × Cursor) :=
  if c.peek == '0' then .error .malformed
  else if c.peek.isDigit then .ok (some (c.peek.toNat - '0'.toNat), c.advance)
  else .ok (none, c)

/-- The place after what may follow to the end of a line: spaces and a comment. -/
def readLineEnd (c : Cursor) : Except Fault Cursor :=
  let c := (c.skipWhile (· == ' ')).skipComment
  if isBreak c.peek || c.peek == endMark then .ok c.skipBreak else .error .malformed

/-- Reads the header of a block text, after its mark. -/
def readBlockHeader (c : Cursor) : Except Fault (BlockHeader × Cursor) := do
  let (first, c) := readChomping c
  let (indent, c) ← readIndent c
  let (chomping, c) := if first.isSome || indent.isNone then (first, c) else readChomping c
  if !isGap c.peek then throw .malformed
  return (⟨chomping.getD .clip, indent⟩, ← readLineEnd c)

/-- The ends of blank lines, how far the spaces among them reach, and the place after them. -/
def leadingBreaks : (fuel : Nat) → Cursor → Text → (widest : Nat) → Text × Nat × Cursor
  | 0, c, acc, widest => (acc.reverse, widest, c)
  | fuel + 1, c, acc, widest =>
    if isBreak c.peek then leadingBreaks fuel c.advance (breakChar c.peek :: acc) widest
    else if c.peek == ' ' then leadingBreaks fuel c.advance acc (max widest c.advance.column)
    else (acc.reverse, widest, c)

/-- The ends of blank lines, and the place after them and after the indentation of the next line. -/
def blockBreaks (indent : Nat) : (fuel : Nat) → Cursor → Text → Text × Cursor
  | 0, c, acc => (acc.reverse, c)
  | fuel + 1, c, acc =>
    let c := c.skipIndent indent
    if isBreak c.peek then blockBreaks indent fuel c.advance (breakChar c.peek :: acc) else (acc.reverse, c)

/-- What has been read of a block text. -/
structure BlockText where
  /-- The text so far. -/
  text : Text
  /-- The end of the last line, if it has one. -/
  lastBreak : Text
  /-- The ends of blank lines after it. -/
  breaks : Text
  /-- The place after them. -/
  after : Cursor

/-- Whether a line of the block text starts at the place after what has been read. -/
def BlockText.continues (indent : Nat) (b : BlockText) : Bool :=
  b.after.column == indent && b.after.peek != endMark

/-- What stands for the line end between two lines of a block text. -/
def lineJoint (folded startsBlank : Bool) (b : BlockText) : Text :=
  if folded && b.lastBreak == ['\n'] && !startsBlank && !isSpaceOrTab b.after.peek then
    if b.breaks.isEmpty then [' '] else []
  else b.lastBreak

/-- Reads the lines of a block text. -/
def blockLines (folded : Bool) (indent : Nat) : (fuel : Nat) → BlockText → BlockText
  | 0, b => b
  | fuel + 1, b =>
    if b.continues indent then
      let (line, lineEnd) := b.after.takeLine
      let lastBreak := if isBreak lineEnd.peek then [breakChar lineEnd.peek] else []
      let (breaks, after) := blockBreaks indent (lineEnd.rest.length + 1) lineEnd.skipBreak []
      let next : BlockText := ⟨b.text ++ b.breaks ++ line, lastBreak, breaks, after⟩
      if next.continues indent then
        let joint := lineJoint folded (isSpaceOrTab b.after.peek) next
        blockLines folded indent fuel { next with text := next.text ++ joint }
      else next
    else b

/-- The text with the line ends at its end that are kept. -/
def BlockText.chomped (chomping : Chomping) (b : BlockText) : Text :=
  match chomping with
  | .strip => b.text
  | .clip => b.text ++ b.lastBreak
  | .keep => b.text ++ b.lastBreak ++ b.breaks

/-- Reads a block text from its mark; its lines are indented as far as `margin` at least. -/
def readBlock (folded : Bool) (margin : Nat) (c : Cursor) : Except Fault ReadText := do
  let (header, c) ← readBlockHeader c.advance
  let least := max margin 1
  let (indent, breaks, start) :=
    match header.indent with
    | some n =>
      let indent := least + n - 1
      (indent, blockBreaks indent (c.rest.length + 1) c [])
    | none =>
      let (breaks, widest, start) := leadingBreaks (c.rest.length + 1) c [] 0
      (max least widest, breaks, start)
  let b := blockLines folded indent (start.rest.length + 1) ⟨[], [], breaks, start⟩
  return ⟨(b.chomped header.chomping).map .char, b.after, true⟩

end SolidityKit.Yaml
