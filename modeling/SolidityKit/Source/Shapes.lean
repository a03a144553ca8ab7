/-
What the lines of a source look like.

Flattening works on text alone: these patterns are the only place that knows what a licence
line, an import, a version directive or a comment looks like.  Everything else in the library
goes through them and through the tests built from them.
-/
import SolidityKit.Pattern

namespace SolidityKit.Shape

open Pattern

/-- A blank character. -/
def blank : Pattern := one isBlank

/-- Any character but a line feed. -/
def inLine : Pattern := one (· != '\n')

/-- Any character outside a list. -/
def noneOf (cs : List Char) : Pattern := one fun c => !cs.contains c

/-- One of the two quotes. -/
def quote : Pattern := one fun c => c == '"' || c == '\''

/--
Whether two characters are the same letter in different case.  Beside the ASCII pairs, the letter `i`
has two more relatives: the capital with a dot (U+0130) and the small one without (U+0131).
-/
def sameLetter (small c : Char) : Bool :=
  c == small || (small.isLower && c == small.toUpper)
    || (small == 'i' && (c.toNat == 0x130 || c.toNat == 0x131))

/-- A word in any mix of cases; the word itself is given in small letters. -/
def anyCase (word : String) : Pattern := inOrder (word.toList.map fun c => one (sameLetter c))

/-- A word exactly as given. -/
def word (w : String) : Pattern := literal w.toList

/-- A licence line: two slashes at the start of a line, the licence tag, and the rest of the line. -/
def licenseLine : Pattern :=
  inOrder [lineStart, word "//", many blank, word "SPDX-License-Identifier:", many inLine, lineEnd]

/-- Names in braces and the word `from`, with blanks around the latter. -/
def namesFrom : List Pattern :=
  [one (· == '{'), oneOrMore (noneOf ['}']), one (· == '}'), oneOrMore blank, word "from", oneOrMore blank]

/-- A quoted path that starts with one or two dots and a slash, a semicolon, and blanks up to a line end. -/
def relativeTarget : List Pattern :=
  [capture quote, one (· == '.'), optional (one (· == '.')), one (· == '/'), manyLazy inLine, again,
   one (· == ';'), many blank, lineEnd]

/-- An import of names from a relative path, from the start of a line. -/
def relativeImportOfNames : Pattern :=
  inOrder ([lineStart, word "import", oneOrMore blank] ++ namesFrom ++ relativeTarget)

/-- An import of a whole relative path, from the start of a line. -/
def relativeImport : Pattern :=
  inOrder ([lineStart, word "import", oneOrMore blank] ++ relativeTarget)

/-- A block comment, up to the first closing mark; block comments do not nest. -/
def blockComment : Pattern :=
  let stars := oneOrMore (one (· == '*'))
  inOrder [word "/*", many (noneOf ['*']), stars,
    many (inOrder [noneOf ['/', '*'], many (noneOf ['*']), stars]), one (· == '/')]

/-- The words that make a block comment boilerplate. -/
def boilerplateWord : Pattern := either (anyCase "copyright") (anyCase "file:")

/-- A file marker: two slashes, the word `file:`, and the rest of the line. -/
def fileMarker : Pattern :=
  inOrder [word "//", many blank, anyCase "file:", many inLine]

/-- A version directive, up to its semicolon. -/
def versionDirective : Pattern :=
  inOrder [word "pragma solidity ", oneOrMore (noneOf [';']), one (· == ';')]

/-- A line feed, blanks, and another line feed. -/
def blankRun : Pattern := inOrder [one (· == '\n'), many blank, one (· == '\n')]

/-- An import statement; it captures the path between the quotes. -/
def importStatement : Pattern :=
  inOrder [word "import", oneOrMore blank, optional (inOrder namesFrom), quote,
    capture (oneOrMore (noneOf ['"', '\''])), quote, one (· == ';')]

end Shape

/-! ### Tests built from the shapes -/

namespace Text

open SolidityKit

/-- Whether a block comment is boilerplate. -/
def isBoilerplate (block : Text) : Bool := Shape.boilerplateWord.occursIn block

/-- Whether the text holds a version directive. -/
def hasVersionDirective (t : Text) : Bool := Shape.versionDirective.occursIn t

/-- Whether the line, once trimmed, starts with the word `import` and a space. -/
def isImportLine (line : Text) : Bool := "import ".toList.isPrefixOf (trim line)

/-- The quoted path of an import line, or `none` if the line is no well-formed import. -/
def importTarget? (line : Text) : Option Text :=
  if isImportLine line then (Shape.importStatement.first? line).bind (·.captured) else none

/-- Whether an import path starts with a dot. -/
def isRelativeTarget (target : Text) : Bool := target.head? == some '.'

/-- Whether the line imports a path that does not start with a dot. -/
def isExternalImport (line : Text) : Bool :=
  match importTarget? line with
  | none => false
  | some target => !isRelativeTarget target

end Text

end SolidityKit
