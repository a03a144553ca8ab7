/-
Where the matches of a text stand.

The spans of a search are the matches with the places where they start and end.  When a text is cut where no
match reaches across, its spans are those of the one half and those of the other, moved behind the first
(`spans_append`).
-/
import SolidityKit.Proofs.Pattern.Pieces

namespace SolidityKit.Pattern

variable {p : Pattern} {u v t : Text}

/-- A match as it stands behind a text of a given length. -/
def shift (n : Nat) (s : Nat × Nat × Match) : Nat × Nat × Match := (n + s.1, n + s.2.1, s.2.2)

theorem spansFrom_shift (n k : Nat) (ps : List Piece) :
    spansFrom (n + k) ps = (spansFrom k ps).map (shift n) := by
  induction ps generalizing k with
  | nil => rfl
  | cons piece ps ih =>
      cases piece with
      | plain c => exact ih (k + 1)
      | hit m =>
          rw [spansFrom, spansFrom, List.map_cons, Nat.add_assoc, ih]
          rfl

theorem spansFrom_append (n : Nat) (ps qs : List Piece) :
    spansFrom n (ps ++ qs) = spansFrom n ps ++ spansFrom (n + (ps.flatMap Piece.text).length) qs := by
  induction ps generalizing n with
  | nil => rfl
  | cons piece ps ih =>
      cases piece with
      | plain c =>
          have hlength : n + ((Piece.plain c :: ps).flatMap Piece.text).length =
              n + 1 + (ps.flatMap Piece.text).length := by
            simp [Piece.text]
            omega
          rw [hlength]
          exact ih (n + 1)
      | hit m =>
          have hlength : n + ((Piece.hit m :: ps).flatMap Piece.text).length =
              n + m.text.length + (ps.flatMap Piece.text).length := by
            simp [Piece.text]
            omega
          rw [hlength, List.cons_append, spansFrom, spansFrom, ih, List.cons_append]

theorem spansFrom_plain (n : Nat) (w : Text) : spansFrom n (w.map Piece.plain) = [] := by
  induction w generalizing n with
  | nil => rfl
  | cons c w ih => exact ih (n + 1)

theorem spansFrom_bounds {n : Nat} {ps : List Piece} {s : Nat × Nat × Match} (h : s ∈ spansFrom n ps) :
    n ≤ s.1 ∧ s.1 ≤ s.2.1 ∧ s.2.1 ≤ n + (ps.flatMap Piece.text).length := by
  induction ps generalizing n with
  | nil => simp [spansFrom] at h
  | cons piece ps ih =>
      rw [List.flatMap_cons, List.length_append]
      cases piece with
      | plain c =>
          have := ih h
          simp only [Piece.text, List.length_singleton]
          omega
      | hit m =>
          rw [spansFrom, List.mem_cons] at h
          simp only [Piece.text]
          rcases h with rfl | h
          · simp only
            omega
          · have := ih h
            omega

/-- A match stands within the text. -/
theorem spans_bounds {s : Nat × Nat × Match} (h : s ∈ p.spans t) : s.1 ≤ s.2.1 ∧ s.2.1 ≤ t.length := by
  have hbounds := spansFrom_bounds h
  rw [flatMap_text_pieces] at hbounds
  omega

/-- **The matches of a text that is cut where none crosses are those of its halves.** -/
theorem spans_append (hp : ∀ b b' t, p.matchAt? b t = p.matchAt? b' t) (h : NoneCrosses p u v) :
    p.spans (u ++ v) = p.spans u ++ (p.spans v).map (shift u.length) := by
  have hpieces : p.pieces (u ++ v) = p.pieces u ++ p.pieces v := by
    rw [pieces, piecesFrom_append h, piecesFrom_before hp (lastOf none u) none]
    rfl
  calc p.spans (u ++ v) = spansFrom 0 (p.pieces u ++ p.pieces v) := by rw [spans, hpieces]
    _ = spansFrom 0 (p.pieces u) ++ spansFrom (u.length + 0) (p.pieces v) := by
      rw [spansFrom_append, flatMap_text_pieces, Nat.zero_add, Nat.add_zero]
    _ = p.spans u ++ (p.spans v).map (shift u.length) := by rw [spansFrom_shift, spans, spans]

theorem spans_of_noneStarts (h : NoneStarts p t []) : p.spans t = [] := by
  rw [spans, pieces_plain h, spansFrom_plain]

end SolidityKit.Pattern
