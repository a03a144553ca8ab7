/-
Rules that take whole lines.

The first three rules of normalising, for licence lines, imports of names from relative paths and imports of
whole relative paths, do not look at lines at all.  A match may run over several of them: the blanks behind two
slashes may be line feeds, the names in braces may stand on lines of their own, and behind its semicolon
an import goes on over blank lines.  All the same each match is a run of whole lines, because it begins at the
start of a line and ends at the end of one (`TakesLines`), so that one empty line is left where it stood
(`removeAll_empties`).

A later rule may take a run in which an earlier one has already left empty lines.  Traced back to the source
that is one run again, which has grown by what the earlier rule took (`RunsEmptied.trans`); so the three rules
together do what one of them does (`normalize_takes_whole_lines`).
-/
import SolidityKit.Proofs.Text.LineEnds
import SolidityKit.Proofs.Source.CodeLines

namespace SolidityKit

open Pattern

namespace Text

theorem lines_newline (t : Text) : lines ('\n' :: t) = [] :: lines t := lines_append [] t

theorem lines_cons_of_ne {c : Char} (hc : c ≠ '\n') {t line : Text} {more : List Text}
    (h : lines t = line :: more) :
    lines (c :: t) = (c :: line) :: more := by
  obtain ⟨first, rest, ht, hcons⟩ := lines_cons c t
  obtain ⟨rfl, rfl⟩ := List.cons.inj (h.symm.trans ht)
  rw [hcons, if_neg hc]

/-! ### Runs of lines that give way to an empty line -/

/--
The lines of a text before and after some runs of them have each given way to one empty line.  All other lines
stay as they are and in order.
-/
inductive RunsEmptied : (runs : List (List Text)) → (before after : List Text) → Prop
  /-- No line is left to look at. -/
  | nil : RunsEmptied [] [] []
  /-- A line stays. -/
  | stays (line : Text) {runs : List (List Text)} {before after : List Text} :
      RunsEmptied runs before after → RunsEmptied runs (line :: before) (line :: after)
  /-- A run of at least one line gives way to an empty line. -/
  | emptied (line : Text) (more : List Text) {runs : List (List Text)} {before after : List Text} :
      RunsEmptied runs before after →
      RunsEmptied ((line :: more) :: runs) (line :: (more ++ before)) ([] :: after)

namespace RunsEmptied

variable {runs runs' : List (List Text)} {ls ms ns : List Text}

theorem refl (ls : List Text) : RunsEmptied [] ls ls := by
  induction ls with
  | nil => exact .nil
  | cons line ls ih => exact .stays line ih

/-- What is left may be cut anywhere: a run that was emptied is on one side of the cut. -/
theorem of_append (h : RunsEmptied runs ls (ms ++ ns)) :
    ∃ front back above below, runs = front ++ back ∧ ls = above ++ below ∧
      RunsEmptied front above ms ∧ RunsEmptied back below ns := by
  induction ms generalizing runs ls with
  | nil => exact ⟨[], runs, [], ls, rfl, rfl, .nil, h⟩
  | cons m ms ih =>
      rw [List.cons_append] at h
      cases h with
      | stays _ h =>
          obtain ⟨front, back, above, below, rfl, rfl, habove, hbelow⟩ := ih h
          exact ⟨front, back, m :: above, below, rfl, rfl, .stays m habove, hbelow⟩
      | emptied line more h =>
          obtain ⟨front, back, above, below, rfl, rfl, habove, hbelow⟩ := ih h
          exact ⟨(line :: more) :: front, back, line :: (more ++ above), below, rfl, by simp,
            .emptied line more habove, hbelow⟩

/-- Where a line is left, there was a first line: that one, or the first of a run. -/
theorem exists_first {m : Text} (h : RunsEmptied runs ls (m :: ms)) :
    ∃ first more, ls = first :: more ∧ (first = m ∨ some first ∈ runs.map List.head?) := by
  cases h with
  | stays _ _ => exact ⟨m, _, rfl, Or.inl rfl⟩
  | emptied first more _ => exact ⟨first, _, rfl, Or.inr (by simp)⟩

/--
Emptying runs twice is emptying runs once.  A run of the second time may hold lines that the first has
left, and then grows by the runs that stood there; it begins with a line that it began with before, or with
the first of such a run.
-/
theorem trans (h : RunsEmptied runs ls ms) (h' : RunsEmptied runs' ms ns) :
    ∃ merged, RunsEmptied merged ls ns ∧ merged.length ≤ runs.length + runs'.length ∧
      merged.map List.head? ⊆ (runs ++ runs').map List.head? := by
  induction h' generalizing runs ls with
  | nil =>
      cases h
      exact ⟨[], .nil, Nat.le_refl 0, List.Subset.refl _⟩
  | stays line _ ih =>
      cases h with
      | stays _ h =>
          obtain ⟨merged, hmerged, hcount, hheads⟩ := ih h
          exact ⟨merged, .stays line hmerged, hcount, hheads⟩
      | emptied first more h =>
          obtain ⟨merged, hmerged, hcount, hheads⟩ := ih h
          refine ⟨(first :: more) :: merged, .emptied first more hmerged, ?_, ?_⟩
          · simp only [List.length_cons]
            omega
          · exact List.cons_subset_cons _ hheads
  | @emptied line more runs' behind _ _ ih =>
      -- the lines of this run are what is left of `above`, and those behind it of `below`
      have hcut : RunsEmptied runs ls ((line :: more) ++ behind) := h
      obtain ⟨front, back, above, below, rfl, rfl, habove, hbelow⟩ := hcut.of_append
      obtain ⟨first, rest, rfl, hfirst⟩ := habove.exists_first
      obtain ⟨merged, hmerged, hcount, hheads⟩ := ih hbelow
      refine ⟨(first :: rest) :: merged, .emptied first rest hmerged, ?_, ?_⟩
      · simp only [List.length_cons, List.length_append]
        omega
      · simp only [List.map_append, List.map_cons, List.head?_cons] at hheads ⊢
        refine List.cons_subset.mpr ⟨?_, fun x hx => ?_⟩
        · rcases hfirst with rfl | hfirst
          · simp
          · simp [hfirst]
        · rcases List.mem_append.mp (hheads hx) with hx | hx
          · simp [hx]
          · simp [hx]

end RunsEmptied

end Text

namespace Source

open Shape

variable {p : Pattern} {w t : Text}

/-! ### One rule -/

/-- Each match of the pattern begins with a word at the start of a line and ends at the end of a line. -/
structure TakesLines (p : Pattern) (w : Text) : Prop where
  /-- The word stands on one line. -/
  word : w ≠ [] ∧ '\n' ∉ w
  /-- Each match begins with it. -/
  opens : OpensWith p w
  /-- A match begins at the start of a line. -/
  starts : ∀ {b t m}, p.matchAt? b t = some m → b = none ∨ b = some '\n'
  /-- A match ends at the end of a line. -/
  ends : ∀ {b m r}, p.matchAt? b (m.text ++ r) = some m → Text.AtLineEnd r

/-- At the end of a line no match begins: it begins with its word, not with a line feed. -/
theorem TakesLines.not_atLineEnd (hp : TakesLines p w) {b : Option Char} {m : Match}
    (hm : p.matchAt? b (m.text ++ t) = some m) : ¬ Text.AtLineEnd (m.text ++ t) := by
  intro hend
  obtain ⟨v, hv⟩ := hp.opens _ _ _ hm
  obtain ⟨c, w', hw⟩ := List.exists_cons_of_ne_nil hp.word.1
  rw [← hv, hw] at hend
  rcases hend with hend | ⟨r, hend⟩
  · simp at hend
  · refine hp.word.2 ?_
    rw [hw, (List.cons.inj hend).1]
    exact List.mem_cons_self

/-- The lines of each match among pieces. -/
def linesOfHits (ps : List Piece) : List (List Text) :=
  (ps.filterMap Piece.match?).map fun m => Text.lines m.text

/-- The lines of each match of a pattern in a text. -/
def matchedLines (p : Pattern) (t : Text) : List (List Text) := linesOfHits (p.pieces t)

theorem length_matchedLines (p : Pattern) (t : Text) : (matchedLines p t).length = (p.allMatches t).length :=
  List.length_map ..

/-- The walk of a search whose matches take lines, from any place in a text. -/
structure EmptiesFrom (b : Option Char) (t : Text) (ps : List Piece) : Prop where
  /-- From the start of a line on, the matches are runs of lines that are emptied. -/
  start : b = none ∨ b = some '\n' →
    Text.RunsEmptied (linesOfHits ps) (Text.lines t) (Text.lines (keepFirst true ps))
  /-- Within a line, or at its end, what is left of the line stays, and the matches are runs of
  lines below it. -/
  within : Text.AtLineEnd t ∨ (b ≠ none ∧ b ≠ some '\n') → ∃ line before after,
    Text.lines t = line :: before ∧ Text.lines (keepFirst true ps) = line :: after ∧
      Text.RunsEmptied (linesOfHits ps) before after

theorem EmptiesFrom.nil (b : Option Char) : EmptiesFrom b [] [] :=
  ⟨fun _ => .stays [] .nil, fun _ => ⟨[], [], [], rfl, rfl, .nil⟩⟩

theorem EmptiesFrom.plain {b : Option Char} {c : Char} {ps : List Piece} (h : EmptiesFrom (some c) t ps) :
    EmptiesFrom b (c :: t) (.plain c :: ps) := by
  by_cases hc : c = '\n'
  · subst hc
    have hrest := h.start (Or.inr rfl)
    have hkept : Text.lines (keepFirst true (.plain '\n' :: ps)) = [] :: Text.lines (keepFirst true ps) :=
      Text.lines_newline _
    refine ⟨fun _ => ?_, fun _ => ⟨[], _, _, Text.lines_newline t, hkept, hrest⟩⟩
    rw [Text.lines_newline, hkept]
    exact .stays [] hrest
  · obtain ⟨line, before, after, ht, hps, hrest⟩ := h.within (Or.inr ⟨by simp, by simpa using hc⟩)
    have hwhole : Text.lines (c :: t) = (c :: line) :: before := Text.lines_cons_of_ne hc ht
    have hkept : Text.lines (keepFirst true (.plain c :: ps)) = (c :: line) :: after :=
      Text.lines_cons_of_ne hc hps
    refine ⟨fun _ => ?_, fun _ => ⟨_, before, after, hwhole, hkept, hrest⟩⟩
    rw [hwhole, hkept]
    exact .stays (c :: line) hrest

theorem EmptiesFrom.hit {b : Option Char} {m : Match} {ps : List Piece} (hp : TakesLines p w)
    (hm : p.matchAt? b (m.text ++ t) = some m) (h : EmptiesFrom (lastOf b m.text) t ps) :
    EmptiesFrom b (m.text ++ t) (.hit m :: ps) := by
  have hend : Text.AtLineEnd t := hp.ends hm
  refine ⟨fun _ => ?_, fun hplace => ?_⟩
  · -- the line feed behind the match, if there is one, closes the empty line that is left
    obtain ⟨line, before, after, ht, hps, hrest⟩ := h.within (Or.inl hend)
    obtain ⟨first, more, hfirst⟩ := List.exists_cons_of_ne_nil (Text.lines_ne_nil m.text)
    have hlines : line = [] ∧ Text.lines (m.text ++ t) = Text.lines m.text ++ before := by
      rcases hend with rfl | ⟨r, rfl⟩
      · obtain ⟨rfl, rfl⟩ := List.cons.inj ht
        simp
      · rw [Text.lines_newline] at ht
        obtain ⟨rfl, rfl⟩ := List.cons.inj ht
        exact ⟨rfl, Text.lines_append m.text r⟩
    obtain ⟨rfl, hwhole⟩ := hlines
    have hhits : linesOfHits (.hit m :: ps) = (first :: more) :: linesOfHits ps := by
      rw [← hfirst]
      rfl
    rw [hhits, hwhole, hfirst, keepFirst, hps]
    exact .emptied first more hrest
  · exfalso
    rcases hplace with hend | ⟨hnone, hbreak⟩
    · exact hp.not_atLineEnd hm hend
    · rcases hp.starts hm with hb | hb
      · exact hnone hb
      · exact hbreak hb

/-- **A rule whose matches take lines empties exactly the lines of its matches.** -/
theorem removeAll_empties (hp : TakesLines p w) (t : Text) :
    Text.RunsEmptied (matchedLines p t) (Text.lines t) (Text.lines (removeAll p t).1) := by
  rw [removeAll_eq]
  refine (piecesFrom_induction p (motive := EmptiesFrom) ?_ ?_ ?_ none t).start (Or.inl rfl)
  · exact EmptiesFrom.nil
  · intro _ c t _ ih
    exact ih.plain
  · intro _ m t _ hm ih
    exact ih.hit hp hm

/-- The first line of a match begins with the word of its pattern. -/
theorem opens_matchedLines (hp : TakesLines p w) {run : List Text} (hrun : run ∈ matchedLines p t) :
    ∃ line more, run = line :: more ∧ w <+: line := by
  obtain ⟨m, hmem, rfl⟩ := List.mem_map.mp hrun
  obtain ⟨b, r, hm⟩ := matchAt?_of_mem_allMatches hmem
  have hopens : w <+: m.text := hp.opens _ _ _ hm
  obtain ⟨line, rest, htext, hline, hrest⟩ := Text.exists_line m.text
  rw [htext] at hopens
  refine ⟨line, (Text.lines rest).tail, ?_, Text.prefix_line hp.word.2 hrest hopens⟩
  rw [htext, Text.lines_append_of_atLineEnd hline hrest]

/-! ### One rule after the other -/

/-- A text without the matches of several patterns, taken out pattern by pattern, and how many there were. -/
def removeEach : List Pattern → Text → Text × Nat
  | [], t => (t, 0)
  | p :: ps, t => ((removeEach ps (removeAll p t).1).1, (removeAll p t).2 + (removeEach ps (removeAll p t).1).2)

/-- **Rules that take lines, one after the other, empty runs of lines.** -/
theorem removeEach_empties {ps : List Pattern} {words : List Text} (hps : ∀ p ∈ ps, ∃ w ∈ words, TakesLines p w)
    (t : Text) :
    ∃ runs, Text.RunsEmptied runs (Text.lines t) (Text.lines (removeEach ps t).1) ∧
      runs.length ≤ (removeEach ps t).2 ∧
      ∀ run ∈ runs, ∃ w ∈ words, ∃ line more, run = line :: more ∧ w <+: line := by
  induction ps generalizing t with
  | nil => exact ⟨[], .refl _, Nat.le_refl 0, by simp⟩
  | cons p ps ih =>
      obtain ⟨w, hw, hp⟩ := hps p List.mem_cons_self
      have hfirst := removeAll_empties hp t
      obtain ⟨later, hlater, hcount, hopens⟩ :=
        ih (fun q hq => hps q (List.mem_cons_of_mem _ hq)) (removeAll p t).1
      obtain ⟨runs, hruns, hlength, hheads⟩ := hfirst.trans hlater
      refine ⟨runs, hruns, ?_, fun run hrun => ?_⟩
      · rw [length_matchedLines] at hlength
        simp only [removeEach, removeAll] at hcount ⊢
        omega
      · obtain ⟨run', hrun', hhead⟩ := List.mem_map.mp (hheads (List.mem_map_of_mem hrun))
        obtain ⟨v, hv, line, more, rfl, hline⟩ :
            ∃ v ∈ words, ∃ line more, run' = line :: more ∧ v <+: line := by
          rcases List.mem_append.mp hrun' with hrun' | hrun'
          · exact ⟨w, hw, opens_matchedLines hp hrun'⟩
          · exact hopens run' hrun'
        obtain ⟨more', rfl⟩ := List.head?_eq_some_iff.mp hhead.symm
        exact ⟨v, hv, line, more', rfl, hline⟩

/-! ### Licence lines and relative imports -/

/-- The shapes that are taken out in whole lines, in the order of their rules. -/
def wholeLineShapes : List Pattern := [licenseLine, relativeImportOfNames, relativeImport]

/-- The words that they begin with. -/
def wholeLineWords : List Text := ["//".toList, "import".toList]

/-- A licence line takes a line, or several if the blanks behind its slashes do. -/
theorem takesLines_licenseLine : TakesLines licenseLine "//".toList where
  word := by decide
  opens := opensWith_licenseLine
  starts h := by
    obtain ⟨d, hd, -⟩ := matchAt?_eq_some h
    exact (mem_licenseLine hd).1
  ends := licenseLine_to_end

/-- So does a shape whose matches are relative imports from the start of a line to the end of one. -/
theorem takesLines_of_relative {IsNames : Text → Prop}
    (h : ∀ {b t m}, p.matchAt? b t = some m → (b = none ∨ b = some '\n') ∧ IsRelativeImport IsNames m.text ∧
      ∃ r, t = m.text ++ r ∧ Text.AtLineEnd r) : TakesLines p "import".toList where
  word := by decide
  opens b t m hm := by
    obtain ⟨-, ⟨u, n, s, w, hx, -⟩, -⟩ := h hm
    exact ⟨_, hx.symm⟩
  starts hm := (h hm).1
  ends hm := by
    obtain ⟨-, -, r, ht, hr⟩ := h hm
    rwa [List.append_cancel_left ht]

theorem takesLines_wholeLineShapes : ∀ p ∈ wholeLineShapes, ∃ w ∈ wholeLineWords, TakesLines p w := by
  simp only [wholeLineShapes, wholeLineWords, List.forall_mem_cons]
  exact ⟨⟨_, by simp, takesLines_licenseLine⟩,
    ⟨_, by simp, takesLines_of_relative matchAt?_relativeImportOfNames⟩,
    ⟨_, by simp, takesLines_of_relative matchAt?_relativeImport⟩, by simp⟩

/-- A source without its licence lines and relative imports, and how many there were. -/
def withoutWholeLines (t : Text) : Text × Nat := removeEach wholeLineShapes t

/-- What the later rules make of such a source: no boilerplate, one version directive, and blanks in order. -/
def finished (t : Text) : Text :=
  Text.trim (collapseBlankRuns (keepFirstDirective (removeAll fileMarker (removeBoilerplate t).1).1).1)

/-- Normalising begins with the rules that take whole lines. -/
theorem normalize_eq_finished (h : '\r' ∉ t) :
    (normalize t).text = finished (withoutWholeLines t).1 ∧
      (normalize t).removed.licenses + (normalize t).removed.relativeImports = (withoutWholeLines t).2 := by
  have hunified : Text.unifyLineEnds t = t := Text.unifyLineEnds_eq_self h
  simp only [normalize, hunified]
  exact ⟨rfl, rfl⟩

/--
**Licence lines and relative imports go in whole lines.**  Each of the three rules empties exactly the lines of
its matches.  One after the other they empty runs of lines of the source, no more of them than there were
matches, and each begins as a licence line or an import does; every other line of the source stays as it is.
-/
theorem normalize_takes_whole_lines (h : '\r' ∉ t) :
    (∀ p ∈ wholeLineShapes, ∀ u,
      Text.RunsEmptied (matchedLines p u) (Text.lines u) (Text.lines (removeAll p u).1)) ∧
    (normalize t).text = finished (withoutWholeLines t).1 ∧
    ∃ runs, Text.RunsEmptied runs (Text.lines t) (Text.lines (withoutWholeLines t).1) ∧
      runs.length ≤ (normalize t).removed.licenses + (normalize t).removed.relativeImports ∧
      ∀ run ∈ runs, ∃ word ∈ wholeLineWords, ∃ line more, run = line :: more ∧ word <+: line := by
  obtain ⟨htext, hremoved⟩ := normalize_eq_finished h
  refine ⟨fun p hp u => ?_, htext, ?_⟩
  · obtain ⟨w, -, htakes⟩ := takesLines_wholeLineShapes p hp
    exact removeAll_empties htakes u
  · rw [hremoved]
    exact removeEach_empties takesLines_wholeLineShapes t

/-- An import that is one only once the licence line within it is gone, and the code behind it. -/
def interruptedImport : Text :=
  "import {A} from\n// SPDX-License-Identifier: MIT\n\"./A.sol\";\n\ncontract A {}".toList

/-- The two rules take one run of four lines between them. -/
theorem normalize_takes_interrupted_import :
    '\r' ∉ interruptedImport ∧ (Text.lines interruptedImport).length = 5 ∧
      Text.lines (withoutWholeLines interruptedImport).1 = [[], "contract A {}".toList] ∧
      (normalize interruptedImport).text = "contract A {}".toList ∧
      ∃ runs, Text.RunsEmptied runs (Text.lines interruptedImport) [[], "contract A {}".toList] ∧
        runs.length ≤ 2 := by
  have hlines : Text.lines (withoutWholeLines interruptedImport).1 = [[], "contract A {}".toList] := by decide
  obtain ⟨-, -, runs, hruns, hcount, -⟩ := normalize_takes_whole_lines (t := interruptedImport) (by decide)
  rw [hlines] at hruns
  exact ⟨by decide, by decide, hlines, by decide, runs, hruns, hcount⟩

end Source

end SolidityKit
