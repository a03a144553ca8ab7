/-
Line ends.

A line may end in a line feed, in a carriage return and a line feed, or in a carriage return alone.  Unifying
makes line feeds of all of them.  No carriage return is left (`notMem_unifyLineEnds`), and a text that knows
only the line feed is got back from either of its other spellings (`unifyLineEnds_crlf`, `unifyLineEnds_cr`).
-/
import SolidityKit.Proofs.Text.Lines

namespace SolidityKit.Text

variable {lineEnd t : Text}

/-- The text with another line end in the place of each line feed. -/
def withLineEnds (lineEnd t : Text) : Text := t.flatMap fun c => if c = '\n' then lineEnd else [c]

theorem withLineEnds_cons (c : Char) (t : Text) :
    withLineEnds lineEnd (c :: t) = (if c = '\n' then lineEnd else [c]) ++ withLineEnds lineEnd t :=
  List.flatMap_cons

theorem notMem_withLineEnds (h : '\n' ∉ lineEnd) (t : Text) : '\n' ∉ withLineEnds lineEnd t := by
  induction t with
  | nil => simp [withLineEnds]
  | cons c t ih =>
      rw [withLineEnds_cons, List.mem_append, not_or]
      refine ⟨?_, ih⟩
      by_cases hc : c = '\n'
      · rwa [if_pos hc]
      · rw [if_neg hc]
        simpa using Ne.symm hc

/-- No carriage return is left. -/
theorem notMem_unifyLineEnds (t : Text) : '\r' ∉ unifyLineEnds t := by
  induction t using unifyLineEnds.induct with
  | case1 => simp [unifyLineEnds]
  | case2 rest ih =>
      rw [unifyLineEnds]
      simpa using ih
  | case3 c rest hpair ih =>
      rw [unifyLineEnds.eq_3 c rest hpair, List.mem_cons, not_or]
      refine ⟨?_, ih⟩
      by_cases hc : c = '\r'
      · rw [if_pos hc]
        decide
      · rw [if_neg hc]
        exact Ne.symm hc

/-- A text without carriage returns stays as it is. -/
theorem unifyLineEnds_eq_self (h : '\r' ∉ t) : unifyLineEnds t = t := by
  have happend := unifyLineEnds_append h []
  simpa [unifyLineEnds] using happend

/-- The text is got back, if the other line end is made a line feed in front of what follows it. -/
theorem unifyLineEnds_withLineEnds
    (hend : ∀ t, unifyLineEnds (lineEnd ++ withLineEnds lineEnd t) = '\n' ::
      unifyLineEnds (withLineEnds lineEnd t))
    (h : '\r' ∉ t) : unifyLineEnds (withLineEnds lineEnd t) = t := by
  induction t with
  | nil => rfl
  | cons c t ih =>
      simp only [List.mem_cons, not_or] at h
      rw [withLineEnds_cons]
      by_cases hc : c = '\n'
      · rw [if_pos hc, hend, ih h.2, hc]
      · have hsingle : '\r' ∉ [c] := by simpa using h.1
        rw [if_neg hc, unifyLineEnds_append hsingle, ih h.2, List.singleton_append]

theorem unifyLineEnds_crlf (h : '\r' ∉ t) : unifyLineEnds (withLineEnds ['\r', '\n'] t) = t := by
  refine unifyLineEnds_withLineEnds (fun t => ?_) h
  exact unifyLineEnds.eq_2 (withLineEnds ['\r', '\n'] t)

theorem unifyLineEnds_cr (h : '\r' ∉ t) : unifyLineEnds (withLineEnds ['\r'] t) = t := by
  refine unifyLineEnds_withLineEnds (fun t => ?_) h
  -- no line feed is left that the carriage return could join
  have hnone : '\n' ∉ withLineEnds ['\r'] t := notMem_withLineEnds (by decide) t
  rw [List.singleton_append, unifyLineEnds, if_pos rfl]
  rintro r - hr
  rw [hr] at hnone
  simp at hnone

end SolidityKit.Text
