/-
Lines.

Three notions of a line stand side by side.  `splitAt '\n'` cuts at line feeds only and
loses nothing (`joinWith` undoes it).  `unifyLineEnds` turns the pair CR LF and a lone CR
into LF, which is how every text file is read.  `breakLines` cuts at every line break that
Unicode knows and gives no empty line after a final break.
-/
import SolidityKit.Text.Blank

namespace SolidityKit.Text

/-- The pieces between the occurrences of `sep`; there is always at least one. -/
def splitAt {α : Type} [DecidableEq α] (sep : α) : List α → List (List α)
  | [] => [[]]
  | c :: rest =>
    if c = sep then [] :: splitAt sep rest
    else
      match splitAt sep rest with
      | [] => [[c]]
      | piece :: pieces => (c :: piece) :: pieces

/-- The pieces with `sep` between each two. -/
def joinWith {α : Type} (sep : α) : List (List α) → List α
  | [] => []
  | [piece] => piece
  | piece :: pieces => piece ++ sep :: joinWith sep pieces

/-- The lines of a text that knows only the line feed. -/
def lines (t : Text) : List Text := splitAt '\n' t

/-- The text with CR LF, and then every remaining CR, replaced by LF. -/
def unifyLineEnds : Text → Text
  | [] => []
  | '\r' :: '\n' :: rest => '\n' :: unifyLineEnds rest
  | c :: rest => (if c = '\r' then '\n' else c) :: unifyLineEnds rest

/-- Whether the character ends a line in the widest sense. -/
def isLineBreak (c : Char) : Bool :=
  (0x0A ≤ c.toNat && c.toNat ≤ 0x0D) || (0x1C ≤ c.toNat && c.toNat ≤ 0x1E)
    || c.toNat == 0x85 || c.toNat == 0x2028 || c.toNat == 0x2029

/-- The lines between line breaks; CR LF is one break, and a break at the end opens no line. -/
def breakLines : Text → List Text
  | [] => []
  | '\r' :: '\n' :: rest => [] :: breakLines rest
  | c :: rest =>
    if isLineBreak c then [] :: breakLines rest
    else
      -- the first line of `rest` goes on with `c`, unless `rest` itself is empty
      match rest, breakLines rest with
      | [], _ => [[c]]
      | _, [] => [[c]]
      | _, line :: more => (c :: line) :: more

section

variable {α : Type} [DecidableEq α]

@[simp] theorem splitAt_nil (sep : α) : splitAt sep [] = [[]] := rfl

theorem splitAt_ne_nil (sep : α) (t : List α) : splitAt sep t ≠ [] := by
  cases t with
  | nil => simp [splitAt]
  | cons c rest => simp only [splitAt]; split <;> try (split <;> simp)
                   simp

/-- Cutting at a separator and joining with it gives the text back. -/
theorem joinWith_splitAt (sep : α) (t : List α) : joinWith sep (splitAt sep t) = t := by
  induction t with
  | nil => rfl
  | cons c rest ih =>
    simp only [splitAt]
    split
    · next h =>
      subst h
      cases hs : splitAt c rest with
      | nil => exact absurd hs (splitAt_ne_nil _ _)
      | cons piece pieces => rw [hs] at ih; simp [joinWith, ih]
    · split
      · next hs => exact absurd hs (splitAt_ne_nil _ _)
      · next piece pieces hs =>
        rw [hs] at ih
        cases pieces <;> simp_all [joinWith]

end

end SolidityKit.Text
