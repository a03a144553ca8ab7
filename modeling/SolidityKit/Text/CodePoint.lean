/-
Code points: characters, and surrogates that stand alone.

An escape in a document may name one half of a surrogate pair.  Such a half is a code point but no
character.  A text that holds one can be passed around, compared and printed, but it has no UTF-8 bytes;
`Points` are texts of this kind, and whatever a user can name is given by them: settings, paths,
variables and arguments.

The system does not limit the names of files to UTF-8.  In a name that it gives out, each byte that belongs to
no character is shown as one of the surrogates from U+DC80 to U+DCFF (`isByte`), and in a name that it takes
these surrogates are bytes again.
-/
import SolidityKit.Text.LowerCase

namespace SolidityKit

/-- A character, or a surrogate that stands alone. -/
inductive CodePoint where
  /-- A character. -/
  | char (c : Char)
  /-- A surrogate, by its distance from U+D800. -/
  | surrogate (half : Fin 0x800)
deriving DecidableEq, Repr

namespace CodePoint

/-- The number of a code point. -/
def number : CodePoint → Nat
  | char c => c.toNat
  | surrogate half => 0xD800 + half

/-- Code points are compared by their numbers. -/
instance : LT CodePoint := ⟨fun a b => a.number < b.number⟩

instance : DecidableLT CodePoint := fun a b => inferInstanceAs (Decidable (a.number < b.number))

/-- The code point with a number; a number in the surrogate range gives a surrogate. -/
def ofNat (n : Nat) : CodePoint :=
  if h : 0xD800 ≤ n ∧ n < 0xE000 then surrogate ⟨n - 0xD800, by omega⟩ else char (Char.ofNat n)

/-- Whether the code point is a surrogate. -/
def isSurrogate : CodePoint → Bool
  | char _ => false
  | surrogate _ => true

/-- Whether the code point is a character that satisfies a test. -/
def isChar (test : Char → Bool) : CodePoint → Bool
  | char c => test c
  | surrogate _ => false

/-- The small letter of a capital of ASCII; anything else as it is. -/
def toLower : CodePoint → CodePoint
  | char c => char c.toLower
  | c => c

/-- Whether the code point stands for a byte in the names of the system. -/
def isByte : CodePoint → Bool
  | char _ => false
  | surrogate half => 0x480 ≤ half.val && half.val < 0x500

/-- Whether the code point can stand in a name of the system. -/
def isUsable : CodePoint → Bool
  | char c => c != '\x00'
  | surrogate half => isByte (surrogate half)

/-- How many bytes the code point takes in a name of the system. -/
def byteLength : CodePoint → Nat
  | char c => c.utf8Size
  | surrogate _ => 1

instance : Blanks CodePoint := ⟨isChar isBlank⟩

/-- Replaces each pair of surrogates by the character it stands for. -/
def joinPairs : List CodePoint → List CodePoint
  | [] => []
  | surrogate hi :: surrogate lo :: rest =>
    if hi.val < 0x400 && 0x400 ≤ lo.val then
      char (Char.ofNat (0x10000 + hi.val * 0x400 + (lo.val - 0x400))) :: joinPairs rest
    else surrogate hi :: joinPairs (surrogate lo :: rest)
  | c :: rest => c :: joinPairs rest

/-- The characters, if no surrogate stands alone. -/
def toText? : List CodePoint → Option Text
  | [] => some []
  | char c :: rest => (toText? rest).map (c :: ·)
  | surrogate _ :: _ => none

/-- The characters, with U+FFFD in place of each surrogate. -/
def toTextLossy (cs : List CodePoint) : Text :=
  cs.map fun
    | char c => c
    | surrogate _ => Char.ofNat 0xFFFD

end CodePoint

/-- A text in which surrogates may stand alone. -/
abbrev Points := List CodePoint

namespace Points

/-- The code points of a text. -/
def ofText (t : Text) : Points := t.map .char

/-- The code points of a string. -/
def ofString (s : String) : Points := ofText s.toList

instance : Coe String Points := ⟨ofString⟩

instance : LawfulBEq Points := inferInstance

/-- The small letters of a text that `run` precedes, last character first; a surrogate has no
bearing on case. -/
def lowerAfter (run : Text) : Points → Points
  | [] => ofText (Text.lower run.reverse)
  | .char c :: rest => lowerAfter (c :: run) rest
  | .surrogate half :: rest => ofText (Text.lower run.reverse) ++ .surrogate half :: lowerAfter [] rest

/-- The text in small letters. -/
def lower (cs : Points) : Points := lowerAfter [] cs

/-- How many bytes the text has as a name of the system. -/
def byteLength (cs : Points) : Nat := cs.foldl (fun n c => n + c.byteLength) 0

end Points

end SolidityKit
