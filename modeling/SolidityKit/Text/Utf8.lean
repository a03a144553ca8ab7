/-
Texts as bytes.

A file holds bytes; a text is read from them by UTF-8, strictly.  Core decides whether bytes are well
formed; this module says where they first are not, and which bytes are to blame: a byte that starts
no character, a character that is cut short by a wrong byte, or one that is cut short by the end.
-/
import SolidityKit.Text.CodePoint

namespace SolidityKit.Utf8

/-- Why bytes are no text. -/
inductive Fault where
  /-- A byte starts no character. -/
  | badStart (place : Nat) (byte : UInt8)
  /-- The first `length` bytes of a character are followed by a byte that does not go on with it. -/
  | badContinuation (place : Nat) (byte : UInt8) (length : Nat)
  /-- The first `length` bytes of a character are followed by nothing. -/
  | cutShort (place : Nat) (byte : UInt8) (length : Nat)
deriving DecidableEq, Repr

/-- Two hexadecimal digits. -/
def hexByte (b : UInt8) : String := String.ofList (Nat.toDigits 16 (0x100 + b.toNat)).tail

/-- Names one byte by its value and several by their places. -/
def blame (place : Nat) (byte : UInt8) (length : Nat) : String :=
  if length = 1 then s!"byte 0x{hexByte byte} in position {place}"
  else s!"bytes in position {place}-{place + length - 1}"

/-- The words for a fault. -/
def Fault.message : Fault → String
  | badStart place byte => s!"'utf-8' codec can't decode {blame place byte 1}: invalid start byte"
  | badContinuation place byte length =>
    s!"'utf-8' codec can't decode {blame place byte length}: invalid continuation byte"
  | cutShort place byte length =>
      s!"'utf-8' codec can't decode {blame place byte length}: unexpected end of data"

/-- A range of byte values, ends included. -/
abbrev ByteRange := UInt8 × UInt8

/-- The bytes that go on with a character, each given by its range, for each byte that starts one. -/
def continuations? (b : UInt8) : Option (List ByteRange) :=
  let tail : ByteRange := (0x80, 0xBF)
  if b < 0x80 then some []
  else if b < 0xC2 then none
  else if b < 0xE0 then some [tail]
  else if b = 0xE0 then some [(0xA0, 0xBF), tail]
  else if b = 0xED then some [(0x80, 0x9F), tail]
  else if b < 0xF0 then some [tail, tail]
  else if b = 0xF0 then some [(0x90, 0xBF), tail, tail]
  else if b < 0xF4 then some [tail, tail, tail]
  else if b = 0xF4 then some [(0x80, 0x8F), tail, tail]
  else none

/-- How many bytes fit the ranges, and whether a wrong byte or the end stopped the count early. -/
inductive Fit where
  /-- All ranges were met. -/
  | complete
  /-- A byte outside its range, after so many that fit. -/
  | wrong (fitting : Nat)
  /-- The end, after so many bytes that fit. -/
  | ended (fitting : Nat)

/-- Compares bytes with ranges. -/
def fit (n : Nat) : List ByteRange → List UInt8 → Fit
  | [], _ => .complete
  | _ :: _, [] => .ended n
  | r :: rs, b :: bs => if r.1 ≤ b && b ≤ r.2 then fit (n + 1) rs bs else .wrong n

/-- The first fault of bytes that start at a place; the first `skip` bytes go on with a sound character. -/
def firstFault (place : Nat) : (skip : Nat) → List UInt8 → Option Fault
  | _, [] => none
  | skip + 1, _ :: rest => firstFault (place + 1) skip rest
  | 0, b :: rest =>
    match continuations? b with
    | none => some (.badStart place b)
    | some ranges =>
      match fit 0 ranges rest with
      | .complete => firstFault (place + 1) ranges.length rest
      | .wrong n => some (.badContinuation place b (n + 1))
      | .ended n => some (.cutShort place b (n + 1))

/-- The text that bytes stand for. -/
def decode (bytes : ByteArray) : Except Fault Text :=
  match String.fromUTF8? bytes with
  | some s => .ok s.toList
  | none => .error ((firstFault 0 0 bytes.toList).getD (.badStart 0 0))

/-- The bytes of a text. -/
def encode (t : Text) : ByteArray := (String.ofList t).toUTF8

/-- Surrogates that stand alone where bytes are wanted. -/
structure LoneSurrogates where
  /-- The place of the first. -/
  place : Nat
  /-- Its number. -/
  code : Nat
  /-- How many follow one another. -/
  length : Nat
deriving DecidableEq, Repr

/-- The words for surrogates that stand alone. -/
def LoneSurrogates.message (l : LoneSurrogates) : String :=
  if l.length = 1 then
    let shown := String.ofList ('\\' :: 'u' :: Nat.toDigits 16 l.code)
    s!"'utf-8' codec can't encode character '{shown}' in position {l.place}: surrogates not allowed"
  else
    let last := l.place + l.length - 1
    s!"'utf-8' codec can't encode characters in position {l.place}-{last}: surrogates not allowed"

/-- The first surrogates that stand alone and do not satisfy `allowed`, in code points that start at a place. -/
def firstSurrogates (allowed : CodePoint → Bool) (place : Nat) : Points → Option LoneSurrogates
  | [] => none
  | .char _ :: rest => firstSurrogates allowed (place + 1) rest
  | .surrogate half :: rest =>
    if allowed (.surrogate half) then firstSurrogates allowed (place + 1) rest
    else
      some
        { place, code := (CodePoint.surrogate half).number
          length := 1 + (rest.takeWhile CodePoint.isSurrogate).length }

/-- The bytes of code points, if they are characters. -/
def encodePoints (cs : Points) : Except LoneSurrogates ByteArray :=
  match firstSurrogates (fun _ => false) 0 cs with
  | some l => .error l
  | none => .ok (encode (CodePoint.toTextLossy cs))

/-- Reading back what was written gives the text. -/
theorem decode_encode (t : Text) : decode (encode t) = .ok t := by
  have h : String.fromUTF8? (String.ofList t).toUTF8 = some (String.ofList t) := by
    have hv : (String.ofList t).toUTF8.IsValidUTF8 := (String.ofList t).isValidUTF8
    simp only [String.fromUTF8?, hv, dif_pos]
    rfl
  unfold decode encode
  rw [h]
  simp

end SolidityKit.Utf8
