/-
The tokens of a configuration document.

A document is cut into tokens from left to right.  Deeper indentation opens a block, and lesser
indentation closes one, so that brackets and blocks look alike from here on.  Whether a text is a key
shows only at the colon after it: until then it is pending, and when the colon comes the token for
a key is put in front of it.

`Tokens.ofText` gives all tokens up to the first fault.  A fault comes after the tokens that were
settled before it, so that a reader who finds something wrong in those never sees it.
-/
import SolidityKit.Yaml.ScalarText
import SolidityKit.Text.Utf8

namespace SolidityKit.Yaml

/-- What a line that starts with a percent sign says. -/
inductive Directive where
  /-- The version of the format. -/
  | version (major : Text)
  /-- An abbreviation for tags. -/
  | abbreviation (handle replacement : Text)
  /-- Something else, which is ignored. -/
  | other
deriving DecidableEq

/-- A token. -/
inductive Token where
  /-- A directive. -/
  | directive (d : Directive)
  /-- The line that starts a document. -/
  | documentStart
  /-- The line that ends a document. -/
  | documentEnd
  /-- A block of items opens. -/
  | openItems
  /-- A block of keys opens. -/
  | openKeys
  /-- A block closes. -/
  | closeBlock
  /-- A list in brackets opens. -/
  | openList
  /-- A list in brackets closes. -/
  | closeList
  /-- A map in braces opens. -/
  | openMap
  /-- A map in braces closes. -/
  | closeMap
  /-- A comma between parts in brackets. -/
  | comma
  /-- A dash before an item of a block. -/
  | item
  /-- What follows is a key. -/
  | key
  /-- What follows is a value. -/
  | value
  /-- A name given before, in place of what it names. -/
  | alias (name : Text)
  /-- A name for what follows. -/
  | anchor (name : Text)
  /-- A tag for what follows; without a handle it is spelled out. -/
  | tag (handle : Option Text) (suffix : Text)
  /-- A scalar, and whether it is plain. -/
  | scalar (points : List CodePoint) (isPlain : Bool)
deriving DecidableEq

/-! ### Names, tags and directives -/

/-- Reads a name that something other than a character of a name must follow. -/
def readName (mayFollow : Char → Bool) (c : Cursor) : Except Fault (Text × Cursor) := do
  let (name, c) := c.takeWhile isNameChar
  if name.isEmpty || !mayFollow c.peek then throw .malformed
  return (name, c)

/-- What may follow the name of an anchor. -/
def mayFollowAnchor (c : Char) : Bool := isGapOrTab c || "?:,]\x7d%@`".toList.contains c

/-- Whether a character may stand in a tag. -/
def isTagChar (c : Char) : Bool := c.isAlphanum || "-;/?:@&=+$,_.!~*'()[]".toList.contains c

/-- Reads bytes written as a percent sign and two hexadecimal digits each. -/
def readBytes : (fuel : Nat) → Cursor → List UInt8 → Except Fault (List UInt8 × Cursor)
  | 0, c, acc => .ok (acc.reverse, c)
  | fuel + 1, c, acc =>
    if c.peek ≠ '%' then .ok (acc.reverse, c)
    else
      match hexNumber? [c.peekAt 1, c.peekAt 2] with
      | some n => readBytes fuel (c.skip 3) (n.toUInt8 :: acc)
      | none => .error .malformed

/-- Reads the characters of a tag, after those in `acc`, which are in reverse. -/
def tagChars : (fuel : Nat) → Cursor → Text → Except Fault (Text × Cursor)
  | 0, _, _ => .error .malformed
  | fuel + 1, c, acc => do
    if c.peek == '%' then
      let (bytes, after) ← readBytes (c.rest.length + 1) c []
      match Utf8.decode ⟨bytes.toArray⟩ with
      | .ok t => tagChars fuel after (t.reverse ++ acc)
      | .error _ => throw .malformed
    else if isTagChar c.peek then tagChars fuel c.advance (c.peek :: acc)
    else if acc.isEmpty then throw .malformed
    else return (acc.reverse, c)

/-- Reads the characters of a tag, at least one. -/
def readTagChars (c : Cursor) : Except Fault (Text × Cursor) := tagChars (c.rest.length + 1) c []

/-- Reads the handle of a tag: an exclamation mark, perhaps with a name and a second one. -/
def readHandle (c : Cursor) : Except Fault (Text × Cursor) := do
  if c.peek ≠ '!' then throw .malformed
  if c.peekAt 1 == ' ' then return (['!'], c.advance)
  let (name, c) := c.advance.takeWhile isNameChar
  if c.peek ≠ '!' then throw .malformed
  return ('!' :: name ++ ['!'], c.advance)

/-- Whether the handle of the tag that starts here has a second exclamation mark. -/
def hasNamedHandle (c : Cursor) : Bool := (c.rest.tail.takeWhile fun ch => !isGap ch).contains '!'

/-- Reads a tag. -/
def readTag (c : Cursor) : Except Fault (Token × Cursor) := do
  let (token, after) ←
    if c.peekAt 1 == '<' then do
      let (suffix, c) ← readTagChars (c.skip 2)
      if c.peek ≠ '>' then throw .malformed
      pure (Token.tag none suffix, c.advance)
    else if isGapOrTab (c.peekAt 1) then pure (Token.tag none ['!'], c.advance)
    else do
      let (handle, c) ← if hasNamedHandle c then readHandle c else pure (['!'], c.advance)
      let (suffix, c) ← readTagChars c
      pure (Token.tag (some handle) suffix, c)
  if !isGap after.peek then throw .malformed
  return (token, after)

/-- Reads the digits of a number of a version. -/
def readVersionNumber (c : Cursor) : Except Fault (Text × Cursor) := do
  let (digits, c) := c.takeWhile Char.isDigit
  if digits.isEmpty then throw .malformed
  if numeralLimit < digits.length then throw (.longNumeral digits.length)
  return (digits, c)

/-- Reads a version: two numbers with a point between them. -/
def readVersion (c : Cursor) : Except Fault (Directive × Cursor) := do
  let (major, c) ← readVersionNumber (c.skipWhile (· == ' '))
  if c.peek ≠ '.' then throw .malformed
  let (_, c) ← readVersionNumber c.advance
  if !isGap c.peek then throw .malformed
  return (.version (major.dropWhile (· == '0')), c)

/-- Reads an abbreviation for tags and what it stands for. -/
def readAbbreviation (c : Cursor) : Except Fault (Directive × Cursor) := do
  let (handle, c) ← readHandle (c.skipWhile (· == ' '))
  if c.peek ≠ ' ' then throw .malformed
  let (replacement, c) ← readTagChars (c.skipWhile (· == ' '))
  if !isGap c.peek then throw .malformed
  return (.abbreviation handle replacement, c)

/-- Reads a directive, from its percent sign to the end of its line. -/
def readDirective (c : Cursor) : Except Fault (Directive × Cursor) := do
  let (name, c) ← readName isGap c.advance
  let (d, c) ←
    if name = "YAML".toList then readVersion c
    else if name = "TAG".toList then readAbbreviation c
    else pure (.other, c.takeLine.2)
  return (d, ← readLineEnd c)

/-! ### Cutting a text into tokens -/

/-- A text that will turn out to be a key if a colon follows on its line. -/
structure PendingKey where
  /-- How many tokens come before it. -/
  place : Nat
  /-- Whether it cannot be anything but a key. -/
  required : Bool
  /-- Where it starts. -/
  start : Cursor

/-- How far a text has been cut into tokens. -/
structure Scan where
  /-- The place reached. -/
  cursor : Cursor
  /-- The tokens so far, the last one first. -/
  tokens : List Token := []
  /-- The columns of the open blocks, the innermost first. -/
  blocks : List Nat := []
  /-- Whether a key may start here. -/
  keyAllowed : Bool := true
  /-- What may turn out to be a key, at the innermost level of brackets. -/
  pending : Option PendingKey := none
  /-- The same for the levels around it. -/
  outer : List (Option PendingKey) := []

/-- How far the colon may be from the start of its key. -/
def maxKeyLength : Nat := 1024

namespace Scan

/-- Whether the place is inside brackets. -/
def inFlow (s : Scan) : Bool := !s.outer.isEmpty

/-- Appends a token. -/
def push (t : Token) (s : Scan) : Scan := { s with tokens := t :: s.tokens }

/-- Appends a token that takes some characters. -/
def pushMark (t : Token) (length : Nat) (s : Scan) : Scan :=
  { s with tokens := t :: s.tokens, cursor := s.cursor.skip length }

/-- Puts a token in front of all but the first `place` tokens. -/
def insertAt (place : Nat) (t : Token) (s : Scan) : Scan :=
  let later := s.tokens.length - place
  { s with tokens := s.tokens.take later ++ t :: s.tokens.drop later }

/-- What is pending can no longer be a key; that is a fault if it can be nothing else. -/
def giveUpKey (s : Scan) : Except Fault Scan :=
  if s.pending.any (·.required) then .error .malformed else .ok { s with pending := none }

/-- What starts here may turn out to be a key. -/
def markKey (s : Scan) : Except Fault Scan := do
  if !s.keyAllowed then return s
  let s ← s.giveUpKey
  let required := !s.inFlow && s.blocks.head? == some s.cursor.column
  return { s with pending := some ⟨s.tokens.length, required, s.cursor⟩ }

/-- Whether a pending key is too far away to be one. -/
def isStale (s : Scan) (k : PendingKey) : Bool :=
  k.start.line != s.cursor.line || maxKeyLength < s.cursor.offset - k.start.offset

/-- Gives up all pending keys that are too far away. -/
def giveUpStaleKeys (s : Scan) : Except Fault Scan :=
  let keys := (s.pending :: s.outer).filterMap id
  if keys.any fun k => s.isStale k && k.required then .error .malformed
  else
    let keep (k : Option PendingKey) : Option PendingKey := k.filter fun k => !s.isStale k
    .ok { s with pending := keep s.pending, outer := s.outer.map keep }

/-- Closes open blocks, from the innermost, while their column asks for it. -/
def closeBlocks (closes : Nat → Bool) (s : Scan) : Scan :=
  if s.inFlow then s
  else
    let closed := s.blocks.takeWhile closes
    { s with
      tokens := List.replicate closed.length .closeBlock ++ s.tokens
      blocks := s.blocks.drop closed.length }

/-- Whether a column is deeper than the innermost block. -/
def isDeeper (column : Nat) (s : Scan) : Bool := s.blocks.head?.all (· < column)

/-- Opens a block at a column, if the column is deeper than the innermost block. -/
def openBlock (t : Token) (s : Scan) : Scan :=
  if s.isDeeper s.cursor.column then { s.push t with blocks := s.cursor.column :: s.blocks } else s

/-- The least column of a further line of what starts here. -/
def margin (s : Scan) : Nat := (s.blocks.head?.map (· + 1)).getD 0

/-- The place after spaces, comments and line ends, and whether there was a line end. -/
def skipGaps : (fuel : Nat) → Cursor → (ended : Bool) → Cursor × Bool
  | 0, c, ended => (c, ended)
  | fuel + 1, c, ended =>
    let c := (c.skipWhile (· == ' ')).skipComment
    if isBreak c.peek then skipGaps fuel c.advance true else (c, ended)

/-- Goes on to the next token.  A byte order mark at the start of the text is passed over. -/
def toNextToken (s : Scan) : Scan :=
  let c := if s.cursor.offset == 0 && s.cursor.peek == '\ufeff' then s.cursor.advance else s.cursor
  let (c, ended) := skipGaps (c.rest.length + 1) c false
  { s with cursor := c, keyAllowed := s.keyAllowed || (ended && !s.inFlow) }

/-! The tokens one by one. -/

/-- All blocks are closed, and nothing is pending. -/
def settle (s : Scan) : Except Fault Scan := do
  let s ← (s.closeBlocks fun _ => true).giveUpKey
  return { s with keyAllowed := false }

/-- A directive. -/
def directive (s : Scan) : Except Fault Scan := do
  let s ← s.settle
  let (d, after) ← readDirective s.cursor
  return { s.push (.directive d) with cursor := after }

/-- A line that starts or ends a document. -/
def documentMark (t : Token) (s : Scan) : Except Fault Scan := do
  return (← s.settle).pushMark t 3

/-- An opening bracket. -/
def openFlow (t : Token) (s : Scan) : Except Fault Scan := do
  let s ← s.markKey
  return { s.pushMark t 1 with pending := none, outer := s.pending :: s.outer, keyAllowed := true }

/-- A closing bracket. -/
def closeFlow (t : Token) (s : Scan) : Except Fault Scan := do
  let s ← s.giveUpKey
  match s.outer with
  | [] => throw .malformed
  | k :: outer => return { s.pushMark t 1 with pending := k, outer, keyAllowed := false }

/-- A comma. -/
def comma (s : Scan) : Except Fault Scan := do
  return { (← s.giveUpKey).pushMark .comma 1 with keyAllowed := true }

/-- A dash before an item. -/
def item (s : Scan) : Except Fault Scan := do
  if !s.inFlow && !s.keyAllowed then throw .malformed
  let s := if s.inFlow then s else s.openBlock .openItems
  return { (← s.giveUpKey).pushMark .item 1 with keyAllowed := true }

/-- A question mark before a key. -/
def key (s : Scan) : Except Fault Scan := do
  if !s.inFlow && !s.keyAllowed then throw .malformed
  let s := if s.inFlow then s else s.openBlock .openKeys
  return { (← s.giveUpKey).pushMark .key 1 with keyAllowed := !s.inFlow }

/-- A colon before a value; what is pending is its key. -/
def value (s : Scan) : Except Fault Scan := do
  match s.pending with
  | some k =>
    let opens := !s.inFlow && s.isDeeper k.start.column
    let s := { s.insertAt k.place .key with pending := none, keyAllowed := false }
    let s := if opens then { s.insertAt k.place .openKeys with blocks := k.start.column :: s.blocks } else s
    return s.pushMark .value 1
  | none =>
    if !s.inFlow && !s.keyAllowed then throw .malformed
    let s := if s.inFlow then s else s.openBlock .openKeys
    return { s.pushMark .value 1 with keyAllowed := !s.inFlow }

/-- A name, of what follows or in place of what it names. -/
def name (token : Text → Token) (s : Scan) : Except Fault Scan := do
  let s ← s.markKey
  let (name, after) ← readName mayFollowAnchor s.cursor.advance
  return { s.push (token name) with cursor := after, keyAllowed := false }

/-- A tag. -/
def tag (s : Scan) : Except Fault Scan := do
  let s ← s.markKey
  let (token, after) ← readTag s.cursor
  return { s.push token with cursor := after, keyAllowed := false }

/-- A block text. -/
def blockText (folded : Bool) (s : Scan) : Except Fault Scan := do
  let s ← s.giveUpKey
  let t ← readBlock folded s.margin s.cursor
  return { s.push (.scalar t.points false) with cursor := t.after, keyAllowed := true }

/-- A quoted text. -/
def quotedText (double : Bool) (s : Scan) : Except Fault Scan := do
  let s ← s.markKey
  let t ← readQuoted double s.cursor
  return { s.push (.scalar t.points false) with cursor := t.after, keyAllowed := false }

/-- A plain text. -/
def plainText (s : Scan) : Except Fault Scan := do
  let s ← s.markKey
  let t := readPlain s.inFlow s.margin s.cursor
  return { s.push (.scalar t.points true) with cursor := t.after, keyAllowed := t.lineEnded }

/-- The characters that cannot start a plain text. -/
def plainStartMarks : Text := "-?:,[]\x7b\x7d#&*!|>'\"%@`".toList

/-- Whether a plain text can start here. -/
def startsPlain (s : Scan) : Bool :=
  let c := s.cursor.peek
  !(isGapOrTab c || plainStartMarks.contains c)
    || (!isGapOrTab (s.cursor.peekAt 1) && (c == '-' || (!s.inFlow && (c == '?' || c == ':'))))

/-- Cuts off the token that starts here; the text must not end here. -/
def token (s : Scan) : Except Fault Scan :=
  let c := s.cursor
  let beforeGap := isGapOrTab (c.peekAt 1)
  if c.column == 0 && c.peek == '%' then s.directive
  else if c.column == 0 && c.startsWithMark '-' then s.documentMark .documentStart
  else if c.column == 0 && c.startsWithMark '.' then s.documentMark .documentEnd
  else
    match c.peek with
    | '[' => s.openFlow .openList
    | '{' => s.openFlow .openMap
    | ']' => s.closeFlow .closeList
    | '}' => s.closeFlow .closeMap
    | ',' => s.comma
    | '*' => s.name .alias
    | '&' => s.name .anchor
    | '!' => s.tag
    | '\'' => s.quotedText false
    | '"' => s.quotedText true
    | ch =>
      if ch == '-' && beforeGap then s.item
      else if ch == '?' && (s.inFlow || beforeGap) then s.key
      else if ch == ':' && (s.inFlow || beforeGap) then s.value
      else if ch == '|' && !s.inFlow then s.blockText false
      else if ch == '>' && !s.inFlow then s.blockText true
      else if s.startsPlain then s.plainText
      else .error .malformed

/-- Goes on to the next token and cuts it off; at the end of the text, closes all blocks. -/
def step (s : Scan) : Except Fault Scan := do
  let s ← s.toNextToken.giveUpStaleKeys
  let s := s.closeBlocks (s.cursor.column < ·)
  if s.cursor.rest.isEmpty then s.settle else s.token

end Scan

/-- The tokens of a text. -/
structure Tokens where
  /-- The tokens that were settled. -/
  list : List Token
  /-- What is wrong after them, if anything. -/
  fault : Option Fault

namespace Tokens

/-- The tokens that are settled while others may still turn out to be keys. -/
def settled (s : Scan) : List Token :=
  let places := ((s.pending :: s.outer).filterMap id).map (·.place)
  s.tokens.reverse.take (places.foldl min s.tokens.length)

/-- Cuts the whole text into tokens. -/
def scanAll : (fuel : Nat) → Scan → Tokens
  | 0, s => ⟨s.tokens.reverse, some .malformed⟩
  | fuel + 1, s =>
    match s.step with
    | .error f => ⟨settled s, some f⟩
    | .ok next => if next.cursor.rest.isEmpty then finish next else scanAll fuel next
where
  /-- Closes what is open at the end of the text. -/
  finish (s : Scan) : Tokens :=
    match s.step with
    | .error f => ⟨settled s, some f⟩
    | .ok last => ⟨last.tokens.reverse, none⟩

/-- The tokens of a text. -/
def ofText (t : Text) : Tokens :=
  if t.all isAllowed then scanAll (t.length + 1) { cursor := { rest := t } } else ⟨[], some .malformed⟩

end Tokens

end SolidityKit.Yaml
