/-
Places in a configuration document.

A cursor is the text still to be read, with the line and the column that it starts at.  Indentation
decides what belongs together, so every step keeps count of columns.  Line ends are unified before
reading; besides the line feed there are three rarer characters that end a line.

`peek` gives the NUL character where the text ends.  No document may hold one, so it means nothing else.
-/
import SolidityKit.Text.Lines

namespace SolidityKit.Yaml

/-- The character that stands for the end of a document. -/
def endMark : Char := '\x00'

/-- Whether a character ends a line. -/
def isBreak (c : Char) : Bool := c == '\n' || c == '\x85' || c == '\u2028' || c == '\u2029'

/-- Whether a character separates words: a space, a line end or the end of the document. -/
def isGap (c : Char) : Bool := c == ' ' || isBreak c || c == endMark

/-- Whether a character separates words where a tab does so too. -/
def isGapOrTab (c : Char) : Bool := c == '\t' || isGap c

/-- Whether a character may stand in a document at all. -/
def isAllowed (c : Char) : Bool :=
  let n := c.toNat
  n == 9 || n == 10 || n == 13 || (0x20 ≤ n && n ≤ 0x7e) || n == 0x85 || (0xa0 ≤ n && n ≠ 0xfffe && n ≠ 0xffff)

/-- Whether a character may stand in the name of an anchor or of a directive. -/
def isNameChar (c : Char) : Bool := c.isAlphanum || c == '-' || c == '_'

/-- What a line end reads as: separators of lines and paragraphs are kept, all others are alike. -/
def breakChar (c : Char) : Char := if c == '\x85' then '\n' else c

/-- A place in a document. -/
structure Cursor where
  /-- The text from here on. -/
  rest : Text
  /-- How many characters come before. -/
  offset : Nat := 0
  /-- How many lines end before. -/
  line : Nat := 0
  /-- How many characters of the line come before; byte order marks do not count. -/
  column : Nat := 0

namespace Cursor

/-- The next character. -/
def peek (c : Cursor) : Char := c.rest.headD endMark

/-- The character `n` places on. -/
def peekAt (n : Nat) (c : Cursor) : Char := (c.rest.drop n).headD endMark

/-- One character on. -/
def advance (c : Cursor) : Cursor :=
  match c.rest with
  | [] => c
  | ch :: rest =>
    if isBreak ch then ⟨rest, c.offset + 1, c.line + 1, 0⟩
    else ⟨rest, c.offset + 1, c.line, if ch == '\ufeff' then c.column else c.column + 1⟩

/-- Some characters on. -/
def skip : Nat → Cursor → Cursor
  | 0, c => c
  | n + 1, c => skip n c.advance

/-- The characters from here that satisfy a condition, and the place after them. -/
def takeWhile (p : Char → Bool) (c : Cursor) : Text × Cursor :=
  let t := c.rest.takeWhile p
  (t, c.skip t.length)

/-- The place after the characters from here that satisfy a condition. -/
def skipWhile (p : Char → Bool) (c : Cursor) : Cursor := (c.takeWhile p).2

/-- The rest of the line, and the place where the line ends. -/
def takeLine (c : Cursor) : Text × Cursor := c.takeWhile (!isBreak ·)

/-- The place after a comment, if one starts here. -/
def skipComment (c : Cursor) : Cursor := if c.peek == '#' then c.takeLine.2 else c

/-- The place after a line end, if there is one here. -/
def skipBreak (c : Cursor) : Cursor := if isBreak c.peek then c.advance else c

/-- Whether a line that starts or ends a document starts here. -/
def startsWithMark (mark : Char) (c : Cursor) : Bool :=
  c.peek == mark && c.peekAt 1 == mark && c.peekAt 2 == mark && isGapOrTab (c.peekAt 3)

/-- Whether a line that separates documents starts here. -/
def atSeparator (c : Cursor) : Bool := c.startsWithMark '-' || c.startsWithMark '.'

/-- The place after spaces, but not beyond a column. -/
def skipIndent (column : Nat) (c : Cursor) : Cursor :=
  c.skip (min (column - c.column) (c.rest.takeWhile (· == ' ')).length)

end Cursor

end SolidityKit.Yaml
