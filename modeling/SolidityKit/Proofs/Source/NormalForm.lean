/-
The normal form of a source.

Normalising only takes text out: every rule drops some of its matches, and where blank lines give way to a line
feed, that line feed stood there before.  So a normalised source is a part, with gaps, of the source once its
line ends are unified (`normalize_sublist`), and has no carriage return.  The blanks that the gaps bring
together are put in order at the end: one pass of collapsing leaves no two line feeds in any stretch of blanks,
and trimming takes the blanks at both ends.

How a source spells its line ends makes no difference, neither to the text nor to what is counted, because
unifying comes before everything else (`normalize_normal_form`).
-/
import SolidityKit.Proofs.Text.LineEnds
import SolidityKit.Proofs.Source.BlankLines
import Mathlib.Data.List.Flatten

namespace SolidityKit.Source

open Pattern Shape

variable {p : Pattern} {t : Text}

/-! ### Nothing is put in -/

theorem replaceAll_sublist {f : Match → Text} (h : ∀ m ∈ p.allMatches t, (f m).Sublist m.text) :
    (p.replaceAll f t).Sublist t := by
  unfold replaceAll
  conv_rhs => rw [← flatMap_text_pieces p t]
  refine List.Sublist.flatMap_right _ fun piece hpiece => ?_
  cases piece with
  | plain c => exact .refl [c]
  | hit m => exact h m (List.mem_filterMap.mpr ⟨.hit m, hpiece, rfl⟩)

theorem keepFirst_sublist (kept : Bool) (ps : List Piece) :
    (keepFirst kept ps).Sublist (ps.flatMap Piece.text) := by
  induction ps generalizing kept with
  | nil => exact .slnil
  | cons piece ps ih =>
      cases piece with
      | plain c => exact (ih kept).cons_cons c
      | hit m =>
          cases kept with
          | false => exact (ih true).append_left m.text
          | true => exact (ih true).trans (List.sublist_append_right m.text _)

theorem removeAll_sublist (p : Pattern) (t : Text) : (removeAll p t).1.Sublist t :=
  replaceAll_sublist fun m _ => List.nil_sublist m.text

theorem removeBoilerplate_sublist (t : Text) : (removeBoilerplate t).1.Sublist t := by
  refine replaceAll_sublist fun m _ => ?_
  split
  · exact List.nil_sublist m.text
  · exact .refl m.text

theorem collapse_sublist (t : Text) : (collapseBlankRuns t).Sublist t := by
  refine replaceAll_sublist fun m hm => ?_
  -- the line feed that is left is the first of the run
  obtain ⟨b, r, hmatch⟩ := matchAt?_of_mem_allMatches hm
  obtain ⟨w, -, htext, -⟩ := matchAt?_blankRun hmatch
  rw [htext]
  exact (List.nil_sublist _).cons_cons '\n'

theorem trim_sublist (t : Text) : (Text.trim t).Sublist t := by
  obtain ⟨u, v, ht, -, -⟩ := Text.trim_split t
  have hpart : Text.trim t <:+: t := ⟨u, v, ht.symm⟩
  exact hpart.sublist

theorem stripped_sublist (t : Text) : (stripped t).Sublist (Text.unifyLineEnds t) := by
  refine ((removeAll_sublist fileMarker _).trans (removeBoilerplate_sublist _)).trans ?_
  refine (removeAll_sublist relativeImport _).trans ?_
  exact (removeAll_sublist relativeImportOfNames _).trans (removeAll_sublist licenseLine _)

/-- **Normalising only takes text out.** -/
theorem normalize_sublist (t : Text) : (normalize t).text.Sublist (Text.unifyLineEnds t) := by
  rw [normalize_text]
  have hdirectives := keepFirst_sublist false (versionDirective.pieces (stripped t))
  rw [flatMap_text_pieces] at hdirectives
  exact (((trim_sublist _).trans (collapse_sublist _)).trans hdirectives).trans (stripped_sublist t)

/-! ### Blanks in order -/

/-- Without blank runs, a stretch of blanks holds one line feed at most. -/
theorem NoBlankRun.count_le_one (h : NoBlankRun t) {w : Text} (hw : Text.isBlank w = true) (hin : w <:+: t) :
    w.count '\n' ≤ 1 := by
  by_contra hcount
  have hfirst : '\n' ∈ w := List.count_pos_iff.mp (by omega)
  obtain ⟨a, rest, rfl, ha⟩ := List.eq_append_cons_of_mem hfirst
  have hsecond : '\n' ∈ rest := by
    rw [List.count_append, List.count_eq_zero.mpr ha, List.count_cons_self] at hcount
    exact List.count_pos_iff.mp (by omega)
  obtain ⟨between, b, rfl⟩ := List.append_of_mem hsecond
  simp only [Text.isBlank_append, Text.isBlank_cons, Bool.and_eq_true] at hw
  have hrun : '\n' :: (between ++ ['\n']) <:+: a ++ '\n' :: (between ++ '\n' :: b) := ⟨a, b, by simp⟩
  exact h between hw.2.2.1 (hrun.trans hin)

theorem noBlankRun_normalize (t : Text) : NoBlankRun (normalize t).text := by
  rw [normalize_text]
  exact (noBlankRun_collapse _).trim

/-- Putting the blanks in order takes no content away. -/
theorem contentLines_normalize (t : Text) :
    Text.contentLines (normalize t).text = Text.contentLines (keepFirstDirective (stripped t)).1 := by
  simp only [normalize_text, Text.contentLines_trim, keepFirstDirective]
  rw [Text.contentLines, Text.contentLines, nonBlank_lines_collapse]

theorem trimmed_normalize (t : Text) : Text.Trimmed (normalize t).text := by
  rw [normalize_text]
  exact Text.trimmed_trim _

/-! ### Line ends do not matter -/

/-- Of the line ends of a source only the unified ones count. -/
theorem normalize_congr {t' : Text} (h : Text.unifyLineEnds t = Text.unifyLineEnds t') :
    normalize t = normalize t' := by
  simp only [normalize, h]

/--
**The normal form of a source.**  It holds no carriage return, neither begins nor ends with a blank, and has at
most one line feed in any stretch of blanks; nothing but blanks was taken to that end from what the rules had
left.  A source that knows only the line feed has the same normal form, and loses as many pieces to each rule,
when its lines end in any other way.
-/
theorem normalize_normal_form (t : Text) :
    '\r' ∉ (normalize t).text ∧ Text.Trimmed (normalize t).text ∧
      (∀ w, Text.isBlank w = true → w <:+: (normalize t).text → w.count '\n' ≤ 1) ∧
      Text.contentLines (normalize t).text = Text.contentLines (keepFirstDirective (stripped t)).1 ∧
      ('\r' ∉ t → normalize (Text.withLineEnds ['\r', '\n'] t) = normalize t ∧
        normalize (Text.withLineEnds ['\r'] t) = normalize t) := by
  refine ⟨fun hmem => ?_, trimmed_normalize t, fun w hw hin => ?_, contentLines_normalize t, fun h => ⟨?_, ?_⟩⟩
  · exact Text.notMem_unifyLineEnds t ((normalize_sublist t).subset hmem)
  · exact (noBlankRun_normalize t).count_le_one hw hin
  · have hunified := (Text.unifyLineEnds_crlf h).trans (Text.unifyLineEnds_eq_self h).symm
    exact normalize_congr hunified
  · have hunified := (Text.unifyLineEnds_cr h).trans (Text.unifyLineEnds_eq_self h).symm
    exact normalize_congr hunified

/-- A source in which blanks come together only once a licence line is gone. -/
def spacedSource : Text := "contract A {}\n// SPDX-License-Identifier: MIT\n \ncontract B {}\n".toList

/-- It comes out the same however its lines end. -/
theorem normalize_normal_form_spaced :
    '\r' ∉ spacedSource ∧ (normalize spacedSource).text = "contract A {}\ncontract B {}".toList ∧
      (normalize spacedSource).removed.licenses = 1 ∧
      (['\n'] <:+: (normalize spacedSource).text ∧ ['\n'].count '\n' ≤ 1) ∧
      normalize (Text.withLineEnds ['\r', '\n'] spacedSource) = normalize spacedSource ∧
      normalize (Text.withLineEnds ['\r'] spacedSource) = normalize spacedSource := by
  have hplain : '\r' ∉ spacedSource := by decide
  have htext : (normalize spacedSource).text = "contract A {}\ncontract B {}".toList := by decide
  obtain ⟨-, -, hblanks, -, hends⟩ := normalize_normal_form spacedSource
  have hbreak : ['\n'] <:+: (normalize spacedSource).text := by
    rw [htext]
    exact ⟨"contract A {}".toList, "contract B {}".toList, rfl⟩
  exact ⟨hplain, htext, by decide, ⟨hbreak, hblanks ['\n'] (by decide) hbreak⟩, hends hplain⟩

end SolidityKit.Source
