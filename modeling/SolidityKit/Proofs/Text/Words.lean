/-
Words that stand within a line.

A word without a line feed survives whatever is done to a text line by line: cutting it into lines, unifying
the line ends, trimming.  The facts below move such a word from the result of a step back into the text it came
from, and say on which line it stands when two texts are put one behind the other.
-/
import SolidityKit.Proofs.Text.Lines

namespace SolidityKit.Text

/-! ### Trimming -/

section Trimming

variable {α : Type} [Blanks α]

theorem isBlank_trim (t : List α) : isBlank (trim t) = isBlank t := by
  have htrim : trim (trim t) = trim t := (trimmed_trim t).trim_eq
  rw [Bool.eq_iff_iff, ← trim_eq_nil_iff, ← trim_eq_nil_iff, htrim]

/-- A word without blanks at its ends stands in a trimmed text just if it stands in the text. -/
theorem infix_trim {w t : List α} (hw : Trimmed w) (hne : w ≠ []) : w <:+: trim t ↔ w <:+: t := by
  constructor
  · intro h
    obtain ⟨u, v, ht, -, -⟩ := trim_split t
    rw [ht]
    exact h.trans ⟨u, v, rfl⟩
  · rintro ⟨a, b, rfl⟩
    obtain ⟨-, a', b', -, -, -, -, -, htrim⟩ := trim_around hw hne a b
    rw [List.append_assoc, htrim]
    exact ⟨a', b', by simp⟩

end Trimming

variable {w line r t : Text}

/-! ### Unifying line ends -/

theorem prefix_of_unifyLineEnds (hw : '\n' ∉ w) (h : w <+: unifyLineEnds t) : w <+: t := by
  induction t using unifyLineEnds.induct generalizing w with
  | case1 => exact h
  | case2 rest ih =>
      rw [unifyLineEnds] at h
      cases w with
      | nil => exact List.nil_prefix
      | cons x w =>
          obtain ⟨rfl, -⟩ := List.cons_prefix_cons.mp h
          simp at hw
  | case3 c rest hpair ih =>
      rw [unifyLineEnds.eq_3 c rest hpair] at h
      cases w with
      | nil => exact List.nil_prefix
      | cons x w =>
          obtain ⟨hx, hrest⟩ := List.cons_prefix_cons.mp h
          simp only [List.mem_cons, not_or] at hw
          by_cases hc : c = '\r'
          · rw [if_pos hc] at hx
            exact absurd hx.symm hw.1
          · rw [if_neg hc] at hx
            exact List.cons_prefix_cons.mpr ⟨hx, ih hw.2 hrest⟩

/-- Unifying the line ends brings no word about. -/
theorem infix_of_unifyLineEnds (hw : '\n' ∉ w) (h : w <:+: unifyLineEnds t) : w <:+: t := by
  induction t using unifyLineEnds.induct with
  | case1 => exact h
  | case2 rest ih =>
      rw [unifyLineEnds] at h
      rcases List.infix_cons_iff.mp h with hpre | h
      · have hpre' : w <+: unifyLineEnds ('\r' :: '\n' :: rest) := by rwa [unifyLineEnds]
        exact (prefix_of_unifyLineEnds hw hpre').isInfix
      · exact (ih h).trans ⟨['\r', '\n'], [], by simp⟩
  | case3 c rest hpair ih =>
      rw [unifyLineEnds.eq_3 c rest hpair] at h
      rcases List.infix_cons_iff.mp h with hpre | h
      · have hpre' : w <+: unifyLineEnds (c :: rest) := by rwa [unifyLineEnds.eq_3 c rest hpair]
        exact (prefix_of_unifyLineEnds hw hpre').isInfix
      · exact (ih h).trans (List.suffix_cons c rest).isInfix

/-! ### One text behind another -/

/-- A word that stands in a text whose second half begins at a line end stands in one of the halves. -/
theorem infix_append_atLineEnd (hw : '\n' ∉ w) (hr : AtLineEnd r) (h : w <:+: t ++ r) :
    w <:+: t ∨ w <:+: r := by
  induction t with
  | nil => exact Or.inr h
  | cons c t ih =>
      rcases List.infix_cons_iff.mp h with hpre | h
      · exact Or.inl (prefix_line hw hr hpre).isInfix
      · rcases ih h with h | h
        · exact Or.inl (h.trans (List.suffix_cons c t).isInfix)
        · exact Or.inr h

theorem infix_of_mem_lines (h : line ∈ lines t) : line <:+: t := by
  obtain ⟨front, back, hsplit⟩ := List.append_of_mem h
  obtain ⟨r, hjoin, -⟩ := joinWith_cons_atLineEnd line back
  rw [← joinWith_lines t, hsplit]
  by_cases hfront : front = []
  · exact ⟨[], r, by rw [hfront, List.nil_append, List.nil_append, hjoin]⟩
  · exact ⟨joinWith '\n' front ++ ['\n'], r, by rw [joinWith_append hfront (List.cons_ne_nil _ _), hjoin]; simp⟩

/-- A text behind another lengthens the last line of the one by its own first line. -/
theorem lines_append_eq (a b : Text) :
    ∃ front last first more, lines a = front ++ [last] ∧ lines b = first :: more ∧
      lines (a ++ b) = front ++ (last ++ first) :: more := by
  induction a with
  | nil =>
      obtain ⟨first, more, hb⟩ := List.exists_cons_of_ne_nil (lines_ne_nil b)
      exact ⟨[], [], first, more, rfl, hb, hb⟩
  | cons c a ih =>
      obtain ⟨front, last, first, more, ha, hb, hab⟩ := ih
      obtain ⟨f, ls, hf, hc⟩ := lines_cons c a
      obtain ⟨f', ls', hf', hc'⟩ := lines_cons c (a ++ b)
      rw [ha] at hf
      rw [hab] at hf'
      by_cases hn : c = '\n'
      · rw [if_pos hn, ← hf] at hc
        rw [if_pos hn, ← hf'] at hc'
        exact ⟨[] :: front, last, first, more, hc, hb, hc'⟩
      · rw [if_neg hn] at hc hc'
        cases front with
        | nil =>
            obtain ⟨rfl, rfl⟩ := List.cons.inj hf
            obtain ⟨rfl, rfl⟩ := List.cons.inj hf'
            exact ⟨[], c :: last, first, more, hc, hb, hc'⟩
        | cons g front =>
            obtain ⟨rfl, rfl⟩ := List.cons.inj hf
            obtain ⟨rfl, rfl⟩ := List.cons.inj hf'
            exact ⟨(c :: g) :: front, last, first, more, hc, hb, hc'⟩

/-! ### The first and the last line -/

/-- The first line of a text. -/
def firstLine (t : Text) : Text := t.takeWhile (· != '\n')

/-- The last line of a text. -/
def lastLine (t : Text) : Text := (lines t).getLastD []

theorem notMem_firstLine (t : Text) : '\n' ∉ firstLine t := by
  intro h
  simpa using List.mem_takeWhile_imp h

theorem exists_lastLine (t : Text) : ∃ front, lines t = front ++ [lastLine t] := by
  obtain ⟨front, last, h⟩ := (List.eq_nil_or_concat' (lines t)).resolve_left (lines_ne_nil t)
  exact ⟨front, by rw [lastLine, h, List.getLastD_concat]⟩

theorem notMem_lastLine (t : Text) : '\n' ∉ lastLine t := by
  obtain ⟨front, h⟩ := exists_lastLine t
  exact notMem_of_mem_lines (t := t) (by rw [h]; simp)

/-- Only the last line of a text depends on what is put behind it. -/
theorem lines_append_lastLine (a b : Text) :
    lines (a ++ b) = (lines a).dropLast ++ lines (lastLine a ++ b) := by
  obtain ⟨front, last, first, more, ha, hb, hab⟩ := lines_append_eq a b
  obtain ⟨front', last', first', more', ha', hb', hab'⟩ := lines_append_eq (lastLine a) b
  obtain ⟨rfl, rfl⟩ := List.cons.inj (hb.symm.trans hb')
  rw [lines_of_notMem (notMem_lastLine a), ← List.nil_append [lastLine a]] at ha'
  obtain ⟨rfl, hlast'⟩ := List.append_inj' ha' rfl
  have hlast : lastLine a = last := by rw [lastLine, ha, List.getLastD_concat]
  rw [hab, hab', ha, List.dropLast_concat, ← (List.cons.inj hlast').1, hlast, List.nil_append]

theorem lastLine_break (a b : Text) : lastLine (a ++ '\n' :: b) = lastLine b := by
  obtain ⟨front, h⟩ := exists_lastLine b
  rw [lastLine, lines_append, h, ← List.append_assoc, List.getLastD_concat]

theorem lastLine_of_notMem {t : Text} (h : '\n' ∉ t) : lastLine t = t := by
  rw [lastLine, lines_of_notMem h]
  rfl

end SolidityKit.Text
