/-
Search patterns over texts.

A `Pattern` is an expression with ordered choice, greedy and lazy repetition, line anchors
and one capture.  Its meaning is `ends`: the list of all ways in which it can match from a
cursor, best first, so that choosing the first is the leftmost-preferred match.  Computing that
whole list takes too long on long runs of one character, so a match is found by `run`, which
tries the same ways in the same order and stops at the first that its continuation accepts;
`run_eq` is the statement that nothing is lost.

`pieces` cuts a text into matches and the characters between them.  Listing matches, searching
and replacing are all read off the pieces.
-/
import SolidityKit.Text.Blank

namespace SolidityKit

/-- An expression that describes pieces of text. -/
inductive Pattern where
  /-- Nothing at all. -/
  | empty
  /-- One character of a class. -/
  | one (accepts : Char → Bool)
  /-- The start of a line: the text begins here, or a line feed stands before. -/
  | lineStart
  /-- The end of a line: the text ends here, or a line feed stands next. -/
  | lineEnd
  /-- One pattern and then another. -/
  | seq (first second : Pattern)
  /-- The first pattern if it leads to a match, else the second. -/
  | either (first second : Pattern)
  /-- Any number of repetitions, as many as possible. -/
  | many (body : Pattern)
  /-- Any number of repetitions, as few as possible. -/
  | manyLazy (body : Pattern)
  /-- Remembers what the pattern matched. -/
  | capture (body : Pattern)
  /-- The remembered text once more. -/
  | again

/-- A place in a text. -/
structure Cursor where
  /-- The character before the place, if there is one. -/
  before : Option Char
  /-- The text from the place on. -/
  rest : Text
  /-- What was captured on the way here. -/
  captured : Option Text
deriving DecidableEq, Repr

namespace Cursor

/-- The cursor after the next character, if that character is in the class. -/
def step? (accepts : Char → Bool) (c : Cursor) : Option Cursor :=
  match c.rest with
  | [] => none
  | x :: rest => if accepts x then some { c with before := some x, rest } else none

/-- Whether a line starts here. -/
def atLineStart (c : Cursor) : Bool := c.before == none || c.before == some '\n'

/-- Whether a line ends here. -/
def atLineEnd (c : Cursor) : Bool := c.rest.head? == none || c.rest.head? == some '\n'

/-- The text between this place and a later one. -/
def upTo (c later : Cursor) : Text := c.rest.take (c.rest.length - later.rest.length)

/-- The cursor after a given text, if the text stands here. -/
def skip? : Text → Cursor → Option Cursor
  | [], c => some c
  | x :: more, c => (c.step? (· == x)).bind (skip? more)

end Cursor

namespace Pattern

/-- A given text. -/
def literal (t : Text) : Pattern := t.foldr (fun c p => seq (one (· == c)) p) empty

/-- A sequence of patterns. -/
def inOrder (ps : List Pattern) : Pattern := ps.foldr seq empty

/-- At least one repetition, as many as possible. -/
def oneOrMore (p : Pattern) : Pattern := seq p (many p)

/-- The pattern or nothing. -/
def optional (p : Pattern) : Pattern := either p empty

/-! ### Meaning -/

/-- All ways of repeating a step at most `n` times, longest first. -/
def manyEnds (step : Cursor → List Cursor) : Nat → Cursor → List Cursor
  | 0, c => [c]
  | n + 1, c => (step c).flatMap (manyEnds step n) ++ [c]

/-- All ways of repeating a step at most `n` times, shortest first. -/
def manyLazyEnds (step : Cursor → List Cursor) : Nat → Cursor → List Cursor
  | 0, c => [c]
  | n + 1, c => c :: (step c).flatMap (manyLazyEnds step n)

/--
All places where a match that starts at the cursor can end, best first.  A repetition is bounded by
the length of the remaining text, which no repetition of a body that takes a character exceeds.
-/
def ends : Pattern → Cursor → List Cursor
  | empty, c => [c]
  | one accepts, c => (c.step? accepts).toList
  | lineStart, c => if c.atLineStart then [c] else []
  | lineEnd, c => if c.atLineEnd then [c] else []
  | seq p q, c => (p.ends c).flatMap q.ends
  | either p q, c => p.ends c ++ q.ends c
  | many p, c => manyEnds p.ends c.rest.length c
  | manyLazy p, c => manyLazyEnds p.ends c.rest.length c
  | capture p, c => (p.ends c).map fun d => { d with captured := some (c.upTo d) }
  | again, c => ((c.captured.bind fun t => c.skip? t)).toList

/-! ### Running -/

variable {α : Type}

/-- Repeats a step at most `n` times, longest first, until the continuation accepts. -/
def manyRun (step : Cursor → (Cursor → Option α) → Option α) : Nat → Cursor → (Cursor → Option α) → Option α
  | 0, c, k => k c
  | n + 1, c, k => (step c fun d => manyRun step n d k).or (k c)

/-- Repeats a step at most `n` times, shortest first, until the continuation accepts. -/
def manyLazyRun (step : Cursor → (Cursor → Option α) → Option α) : Nat → Cursor → (Cursor → Option α) → Option α
  | 0, c, k => k c
  | n + 1, c, k => (k c).or (step c fun d => manyLazyRun step n d k)

/-- The first way to match from the cursor that the continuation accepts. -/
def run : Pattern → Cursor → (Cursor → Option α) → Option α
  | empty, c, k => k c
  | one accepts, c, k => (c.step? accepts).bind k
  | lineStart, c, k => if c.atLineStart then k c else none
  | lineEnd, c, k => if c.atLineEnd then k c else none
  | seq p q, c, k => p.run c fun d => q.run d k
  | either p q, c, k => (p.run c k).or (q.run c k)
  | many p, c, k => manyRun p.run c.rest.length c k
  | manyLazy p, c, k => manyLazyRun p.run c.rest.length c k
  | capture p, c, k => p.run c fun d => k { d with captured := some (c.upTo d) }
  | again, c, k => (c.captured.bind fun t => c.skip? t).bind k

/-! ### Matches and pieces -/

/-- A match in a text. -/
structure Match where
  /-- The matched text. -/
  text : Text
  /-- What was captured, if the pattern captures. -/
  captured : Option Text
deriving DecidableEq, Repr

/-- A match, or a character that belongs to none. -/
inductive Piece where
  /-- A character outside all matches. -/
  | plain (c : Char)
  /-- A match. -/
  | hit (m : Match)
deriving DecidableEq, Repr

/-- The preferred match at a place. -/
def matchAt? (p : Pattern) (before : Option Char) (rest : Text) : Option Match :=
  let c : Cursor := { before, rest, captured := none }
  (p.run c some).map fun d => { text := c.upTo d, captured := d.captured }

/--
Cuts a text into pieces from left to right.  The first `skip` characters belong to a match that
has been recorded already; a match of no characters is not recorded.
-/
def piecesFrom (p : Pattern) : (skip : Nat) → (before : Option Char) → Text → List Piece
  | _, _, [] => []
  | skip + 1, _, c :: rest => p.piecesFrom skip (some c) rest
  | 0, before, c :: rest =>
    match p.matchAt? before (c :: rest) with
    | some m =>
      if m.text.isEmpty then .plain c :: p.piecesFrom 0 (some c) rest
      else .hit m :: p.piecesFrom (m.text.length - 1) (some c) rest
    | none => .plain c :: p.piecesFrom 0 (some c) rest

/-- The matches of a text and the characters between them, in order. -/
def pieces (p : Pattern) (t : Text) : List Piece := p.piecesFrom 0 none t

/-- The text of a piece. -/
def Piece.text : Piece → Text
  | .plain c => [c]
  | .hit m => m.text

/-- The match of a piece, if it is one. -/
def Piece.match? : Piece → Option Match
  | .plain _ => none
  | .hit m => some m

/-- The matches of a text, in order. -/
def allMatches (p : Pattern) (t : Text) : List Match := (p.pieces t).filterMap Piece.match?

/-- The first match of a text. -/
def first? (p : Pattern) (t : Text) : Option Match := (p.allMatches t).head?

/-- Whether the pattern matches anywhere in the text. -/
def occursIn (p : Pattern) (t : Text) : Bool := (p.first? t).isSome

/-- The text with each match replaced. -/
def replaceAll (p : Pattern) (replacement : Match → Text) (t : Text) : Text :=
  (p.pieces t).flatMap fun
    | .plain c => [c]
    | .hit m => replacement m

/-- The offset of the first character and the offset past the last character of each match. -/
def spansFrom (start : Nat) : List Piece → List (Nat × Nat × Match)
  | [] => []
  | .plain _ :: more => spansFrom (start + 1) more
  | .hit m :: more => (start, start + m.text.length, m) :: spansFrom (start + m.text.length) more

/-- The matches of a text with their offsets. -/
def spans (p : Pattern) (t : Text) : List (Nat × Nat × Match) := spansFrom 0 (p.pieces t)

/-- Whether the pattern captures. -/
def captures : Pattern → Bool
  | empty | one _ | lineStart | lineEnd | again => false
  | seq p q | either p q => p.captures || q.captures
  | many p | manyLazy p => p.captures
  | capture _ => true

/-! ### Running agrees with the meaning -/

theorem findSome?_flatMap {β γ : Type} (l : List β) (f : β → List γ) (k : γ → Option α) :
    (l.flatMap f).findSome? k = l.findSome? fun b => (f b).findSome? k := by
  induction l with
  | nil => rfl
  | cons b l ih =>
    simp only [List.flatMap_cons, List.findSome?_append, ih, List.findSome?_cons]
    cases (f b).findSome? k <;> rfl

theorem manyRun_eq {step : Cursor → (Cursor → Option α) → Option α} {ways : Cursor → List Cursor}
    (h : ∀ c k, step c k = (ways c).findSome? k) (n : Nat) (c : Cursor) (k : Cursor → Option α) :
    manyRun step n c k = (manyEnds ways n c).findSome? k := by
  induction n generalizing c with
  | zero => simp [manyRun, manyEnds]
  | succ n ih => simp [manyRun, manyEnds, h, ih, List.findSome?_append, findSome?_flatMap]

theorem manyLazyRun_eq {step : Cursor → (Cursor → Option α) → Option α} {ways : Cursor → List Cursor}
    (h : ∀ c k, step c k = (ways c).findSome? k) (n : Nat) (c : Cursor) (k : Cursor → Option α) :
    manyLazyRun step n c k = (manyLazyEnds ways n c).findSome? k := by
  induction n generalizing c with
  | zero => simp [manyLazyRun, manyLazyEnds]
  | succ n ih =>
    simp only [manyLazyRun, manyLazyEnds, h, ih, List.findSome?_cons, findSome?_flatMap, Option.or]
    cases k c <;> rfl

/-- A run finds the best of all ways to match that the continuation accepts. -/
theorem run_eq (p : Pattern) (c : Cursor) (k : Cursor → Option α) :
    p.run c k = (p.ends c).findSome? k := by
  induction p generalizing c k with
  | empty => simp [run, ends]
  | one accepts => cases h : c.step? accepts <;> simp [run, ends, h]
  | lineStart => by_cases h : c.atLineStart <;> simp [run, ends, h]
  | lineEnd => by_cases h : c.atLineEnd <;> simp [run, ends, h]
  | seq p q ihp ihq => simp [run, ends, ihp, ihq, findSome?_flatMap]
  | either p q ihp ihq => simp [run, ends, ihp, ihq, List.findSome?_append]
  | many p ih => exact manyRun_eq ih _ _ _
  | manyLazy p ih => exact manyLazyRun_eq ih _ _ _
  | capture p ih => simp [run, ends, ih, List.findSome?_map, Function.comp_def]
  | again => cases h : (c.captured.bind fun t => c.skip? t) <;> simp [run, ends, h]

/-- The preferred match ends at the first of all places where one can end. -/
theorem matchAt?_eq (p : Pattern) (before : Option Char) (rest : Text) :
    p.matchAt? before rest =
      (p.ends { before, rest, captured := none }).head?.map fun d =>
        { text := Cursor.upTo { before, rest, captured := none } d, captured := d.captured } := by
  simp only [matchAt?, run_eq]
  cases p.ends { before, rest, captured := none } <;> simp

end Pattern

end SolidityKit
