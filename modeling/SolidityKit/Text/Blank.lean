/-
Blank characters and trimming.

A text is a list of characters, so that every function on it is a recursion that a
proof can follow; what asks no more of characters than to be told apart, or to be blank
or not, is there for lists of anything.  A blank character is Unicode white space or one of
the four ASCII separators U+001C to U+001F; that is the one notion of blank in the library,
used by trimming and by the white-space class of the search patterns alike.
-/

namespace SolidityKit

/-- A text, character by character. -/
abbrev Text := List Char

/-- The ranges of blank characters, ends included, in increasing order. -/
def blankRanges : List (Nat × Nat) :=
  [(0x09, 0x0D), (0x1C, 0x20), (0x85, 0x85), (0xA0, 0xA0), (0x1680, 0x1680),
   (0x2000, 0x200A), (0x2028, 0x2029), (0x202F, 0x202F), (0x205F, 0x205F), (0x3000, 0x3000)]

/-- Things that texts are made of, some of which are blank. -/
class Blanks (α : Type) where
  /-- Whether one of them is blank. -/
  blank : α → Bool

instance : Blanks Char := ⟨fun c => blankRanges.any fun r => r.1 ≤ c.toNat && c.toNat ≤ r.2⟩

/-- Whether the character is blank. -/
def isBlank {α : Type} [Blanks α] (c : α) : Bool := Blanks.blank c

namespace Text

variable {α : Type}

/-- The text without its leading blanks. -/
def trimLeft [Blanks α] (t : List α) : List α := t.dropWhile SolidityKit.isBlank

/-- The text without the characters in `drop` at its end. -/
def dropRightWhile (drop : α → Bool) : List α → List α
  | [] => []
  | c :: rest =>
    match dropRightWhile drop rest with
    | [] => if drop c then [] else [c]
    | kept => c :: kept

/-- The text without its trailing blanks. -/
def trimRight [Blanks α] (t : List α) : List α := dropRightWhile SolidityKit.isBlank t

/-- The text without blanks at either end. -/
def trim [Blanks α] (t : List α) : List α := trimRight (trimLeft t)

/-- The text without the characters in `drop` at either end. -/
def stripWhile (drop : α → Bool) (t : List α) : List α :=
  dropRightWhile drop (t.dropWhile drop)

/-- Whether every character is blank; the empty text counts. -/
def isBlank [Blanks α] (t : List α) : Bool := t.all SolidityKit.isBlank

/-- Whether `part` occurs in the text. -/
def containsText [BEq α] (part : List α) : List α → Bool
  | [] => part.isEmpty
  | c :: rest => part.isPrefixOf (c :: rest) || containsText part rest

/-- Cuts at the first `sep`: what stands before it and what stands after it. -/
def cut? [DecidableEq α] (sep : α) : List α → Option (List α × List α)
  | [] => none
  | c :: rest =>
    if c = sep then some ([], rest) else (cut? sep rest).map fun p => (c :: p.1, p.2)

end Text

example : (blankRanges.map fun r => r.2 + 1 - r.1).sum = 29 := by decide

end SolidityKit
