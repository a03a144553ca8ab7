/-
Lines that the rules spare.

Every rule of normalising does the same to a text: it cuts it into pieces and takes the hits out, or all but
the first.  A hit may begin and end anywhere, so it touches lines of which it is only a part, and it may run
over several; but a line that no hit touches comes out as it was, and such lines come out in order
(`sublist_keepFirst`).  Rule after rule, and with blanks put in order at the end, that carries lines of a
source into its part (`linesWith_part`).

Which lines are looked at is a parameter `q`, a property that blank lines lack and that blanks around a
line do not change.
-/
import SolidityKit.Proofs.Text.Words
import SolidityKit.Proofs.Source.LineStages
import SolidityKit.Proofs.Source.Parts
import Mathlib.Tactic.MkIffOfInductiveProp

namespace SolidityKit.Source

open Pattern Shape

variable {q : Text → Bool} {t : Text}

/-! ### One rule -/

/--
Whether every line that a hit touches lacks a property.  Before the pieces stands `line`, the beginning of the
line on which they begin.
-/
def sparesLines (q : Text → Bool) : (line : Text) → List Piece → Bool
  | _, [] => true
  | line, .plain c :: more => sparesLines q (Text.lastLine (line ++ [c])) more
  | line, .hit m :: more =>
    (Text.lines (line ++ m.text ++ Text.firstLine (more.flatMap Piece.text))).all (!q ·) &&
      sparesLines q (Text.lastLine (line ++ m.text)) more

/-- Of the lines that a hit touches, only the last goes on behind it. -/
theorem filter_lines_touched {u : Text} (h : ∀ line ∈ Text.lines (u ++ Text.firstLine t), q line = false) :
    (Text.lines (u ++ t)).filter q = (Text.lines (Text.lastLine u ++ t)).filter q ∧
      q (Text.lastLine u ++ Text.firstLine t) = false := by
  have hone : '\n' ∉ Text.lastLine u ++ Text.firstLine t := by
    simp [Text.notMem_lastLine, Text.notMem_firstLine]
  rw [Text.lines_append_lastLine, Text.lines_of_notMem hone] at h
  have hfront : (Text.lines u).dropLast.filter q = [] :=
    List.filter_eq_nil_iff.mpr fun line hl => by simp [h line (by simp [hl])]
  refine ⟨?_, h _ (by simp)⟩
  rw [Text.lines_append_lastLine, List.filter_append, hfront, List.nil_append]

/--
The walk over the pieces.  On the line at hand either nothing was touched, so that it begins alike in both
texts, or a hit has touched it, and then the whole line lacks the property.
-/
theorem sublist_keepFirst_from {ps : List Piece} (kept : Bool) (line line' : Text)
    (hs : sparesLines q line ps = true)
    (hline : '\n' ∉ line) (hstate : line = line' ∨ q (line ++ Text.firstLine (ps.flatMap Piece.text)) = false) :
    ((Text.lines (line ++ ps.flatMap Piece.text)).filter q).Sublist
      ((Text.lines (line' ++ keepFirst kept ps)).filter q) := by
  induction ps generalizing kept line line' with
  | nil =>
      rcases hstate with rfl | hq
      · exact .refl _
      · have hline' : q line = false := by simpa [Text.firstLine] using hq
        simp [Text.lines_of_notMem hline, hline']
  | cons piece ps ih =>
      cases piece with
      | plain c =>
          rw [sparesLines] at hs
          rw [List.flatMap_cons] at hstate ⊢
          by_cases hc : c = '\n'
          · subst hc
            -- the line ends here, and both texts begin a new one
            rw [Text.lastLine_break line []] at hs
            have hrest := ih kept [] [] hs (by simp) (Or.inl rfl)
            rw [Piece.text, List.singleton_append, keepFirst, Text.lines_append, Text.lines_append,
              List.filter_append, List.filter_append]
            refine List.Sublist.append ?_ hrest
            rcases hstate with rfl | hq
            · exact .refl _
            · have hline' : q line = false := by simpa [Text.firstLine, Piece.text] using hq
              simp [Text.lines_of_notMem hline, hline']
          · have hnext : '\n' ∉ line ++ [c] := by simp [hline, Ne.symm hc]
            rw [Text.lastLine_of_notMem hnext] at hs
            have hstate' : line ++ [c] = line' ++ [c] ∨
                q (line ++ [c] ++ Text.firstLine (ps.flatMap Piece.text)) = false :=
              hstate.imp (fun h => by rw [h]) fun hq => by simpa [Text.firstLine, Piece.text, hc] using hq
            have hrest := ih kept _ _ hs hnext hstate'
            rwa [List.append_assoc, List.append_assoc] at hrest
      | hit m =>
          rw [sparesLines, Bool.and_eq_true, List.all_eq_true] at hs
          obtain ⟨hlines, htouched⟩ := filter_lines_touched fun line hl => by simpa using hs.1 line hl
          have hrest := fun kept line' => ih kept _ line' hs.2 (Text.notMem_lastLine _) (Or.inr htouched)
          rw [List.flatMap_cons, ← List.append_assoc, Piece.text, hlines]
          cases kept with
          | false =>
              rw [keepFirst, ← List.append_assoc, Text.lines_append_lastLine (line' ++ m.text),
                List.filter_append]
              exact (hrest true _).trans (List.sublist_append_right _ _)
          | true => exact hrest true line'

/-- **Lines that no hit touches come out in order.** -/
theorem sublist_keepFirst {ps : List Piece} (h : sparesLines q [] ps = true) (kept : Bool) :
    ((Text.lines (ps.flatMap Piece.text)).filter q).Sublist ((Text.lines (keepFirst kept ps)).filter q) :=
  sublist_keepFirst_from kept [] [] h (by simp) (Or.inl rfl)

/-- Without hits nothing is touched. -/
theorem sparesLines_plain (line w : Text) : sparesLines q line (w.map Piece.plain) = true := by
  induction w generalizing line with
  | nil => rfl
  | cons c w ih => exact ih _

/-! ### All rules -/

/-- The pieces of a text whose hits are the boilerplate comments alone. -/
def boilerplatePieces (t : Text) : List Piece :=
  (blockComment.pieces t).flatMap fun
    | .plain c => [.plain c]
    | .hit m => if Text.isBoilerplate m.text then [.hit m] else m.text.map .plain

theorem flatMap_text_boilerplatePieces (t : Text) : (boilerplatePieces t).flatMap Piece.text = t := by
  conv_rhs => rw [← flatMap_text_pieces blockComment t]
  rw [boilerplatePieces, List.flatMap_assoc]
  refine List.flatMap_congr fun piece _ => ?_
  cases piece with
  | plain c => rfl
  | hit m =>
      simp only
      split
      · simp
      · simp [List.flatMap_map, Piece.text]

theorem boilerplatePieces_plain (h : blockComment.pieces t = t.map Piece.plain) :
    boilerplatePieces t = t.map Piece.plain := by
  rw [boilerplatePieces, h, List.flatMap_map]
  exact List.map_eq_flatMap.symm

theorem removeBoilerplate_eq (t : Text) : (removeBoilerplate t).1 = keepFirst true (boilerplatePieces t) := by
  rw [keepFirst_true, boilerplatePieces, List.flatMap_assoc, removeBoilerplate, replaceAll]
  refine List.flatMap_congr fun piece _ => ?_
  cases piece with
  | plain c => rfl
  | hit m =>
      simp only
      split
      · simp
      · simp [List.flatMap_map]

/-- No rule touches a line with the property, in the text as the rules before it have left it. -/
@[mk_iff]
structure SparesThroughout (q : Text → Bool) (t : Text) : Prop where
  /-- Licence lines. -/
  licences : sparesLines q [] (licenseLine.pieces (Text.unifyLineEnds t)) = true
  /-- Relative imports of names. -/
  importsOfNames :
    sparesLines q [] (relativeImportOfNames.pieces (removeAll licenseLine (Text.unifyLineEnds t)).1) = true
  /-- Relative imports of whole files. -/
  imports : sparesLines q [] (relativeImport.pieces
    (removeAll relativeImportOfNames (removeAll licenseLine (Text.unifyLineEnds t)).1).1) = true
  /-- Boilerplate comments. -/
  comments : sparesLines q [] (boilerplatePieces
    (removeAll relativeImport
      (removeAll relativeImportOfNames (removeAll licenseLine (Text.unifyLineEnds t)).1).1).1) = true
  /-- File markers. -/
  markers : sparesLines q [] (fileMarker.pieces (removeBoilerplate
    (removeAll relativeImport (removeAll relativeImportOfNames
      (removeAll licenseLine (Text.unifyLineEnds t)).1).1).1).1) = true
  /-- Version directives. -/
  directives : sparesLines q [] (versionDirective.pieces (stripped t)) = true
  /-- Version directives of the normalised source, where they are looked for once more. -/
  laterDirectives : sparesLines q [] (versionDirective.pieces (normalize t).text) = true

instance (q : Text → Bool) (t : Text) : Decidable (SparesThroughout q t) :=
  decidable_of_iff' _ (sparesThroughout_iff q t)

/-- A property that blank lines lack and that blanks around a line do not change. -/
structure LineTest (q : Text → Bool) : Prop where
  /-- Blank lines lack it. -/
  blank : ∀ line, Text.isBlank line = true → q line = false
  /-- Blanks around a line do not matter. -/
  trim : ∀ line, q (Text.trim line) = q line

/-- The lines with the property, trimmed. -/
def linesWith (q : Text → Bool) (t : Text) : List Text := ((Text.lines t).filter q).map Text.trim

theorem linesWith_sublist (t : Text) : (linesWith q t).Sublist ((Text.lines t).map Text.trim) :=
  List.filter_sublist.map _

/-- A rule keeps the lines that its hits spare. -/
theorem linesWith_keepFirst {ps : List Piece} (hps : ps.flatMap Piece.text = t) (h : sparesLines q [] ps = true)
    (kept : Bool) : (linesWith q t).Sublist (linesWith q (keepFirst kept ps)) := by
  rw [← hps]
  exact (sublist_keepFirst h kept).map _

theorem linesWith_removeAll {p : Pattern} (h : sparesLines q [] (p.pieces t) = true) :
    (linesWith q t).Sublist (linesWith q (removeAll p t).1) := by
  rw [removeAll_eq]
  exact linesWith_keepFirst (flatMap_text_pieces p t) h true

namespace LineTest

variable (hq : LineTest q)
include hq

theorem filter_nonBlank (ls : List Text) : (Text.nonBlank ls).filter q = ls.filter q := by
  rw [Text.nonBlank, List.filter_filter]
  refine List.filter_congr fun line _ => ?_
  cases hblank : Text.isBlank line with
  | false => simp
  | true => simp [hq.blank line hblank]

theorem linesWith_eq (t : Text) : linesWith q t = (Text.contentLines t).filter q := by
  rw [Text.contentLines, List.filter_map, linesWith, ← hq.filter_nonBlank]
  congr 1
  exact List.filter_congr fun line _ => (hq.trim line).symm

theorem linesWith_trim (t : Text) : linesWith q (Text.trim t) = linesWith q t := by
  rw [hq.linesWith_eq, hq.linesWith_eq, Text.contentLines_trim]

theorem linesWith_collapse (t : Text) : linesWith q (collapseBlankRuns t) = linesWith q t := by
  rw [linesWith, ← hq.filter_nonBlank, nonBlank_lines_collapse, hq.filter_nonBlank, linesWith]

/-- **Lines that no rule touches come out in the part of a source.** -/
theorem linesWith_part (h : SparesThroughout q t) (kept : Bool) :
    (linesWith q (Text.unifyLineEnds t)).Sublist (linesWith q (part kept t)) := by
  have hcomments := linesWith_keepFirst (flatMap_text_boilerplatePieces _) h.comments true
  rw [← removeBoilerplate_eq] at hcomments
  have hstripped : (linesWith q (Text.unifyLineEnds t)).Sublist (linesWith q (stripped t)) :=
    ((((linesWith_removeAll h.licences).trans (linesWith_removeAll h.importsOfNames)).trans
      (linesWith_removeAll h.imports)).trans hcomments).trans (linesWith_removeAll h.markers)
  have hdirectives := linesWith_keepFirst (flatMap_text_pieces versionDirective _) h.directives false
  have hlater := linesWith_keepFirst (flatMap_text_pieces versionDirective _) h.laterDirectives kept
  have hnormal : linesWith q (normalize t).text =
      linesWith q (keepFirst false (versionDirective.pieces (stripped t))) := by
    rw [normalize_text, hq.linesWith_trim, hq.linesWith_collapse]
  have hpart : linesWith q (part kept t) =
      linesWith q (keepFirst kept (versionDirective.pieces (normalize t).text)) := by
    rw [part, hq.linesWith_trim, hq.linesWith_collapse]
  rw [← hnormal] at hdirectives
  rw [← hpart] at hlater
  exact (hstripped.trans hdirectives).trans hlater

end LineTest

end SolidityKit.Source
