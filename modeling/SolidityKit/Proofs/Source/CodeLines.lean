/-
Lines of code in a merged text.

Flattening takes boilerplate out of a source and should leave its code alone: the lines that hold neither a
comment mark nor the word `pragma` should all come out again, trimmed and in order.  Where such a line is lost,
a rule of normalising has read past the end of the line it was meant for: the blanks behind two slashes may be
line feeds, and so may anything between the opening words of a version directive and the next semicolon.

Nothing else does damage.  A source without imports and block comments keeps its code if no hit of a rule
touches a line of code (`keepsOwnCode_of_sparesCode`), and sources that keep their own code keep it together:
neither comparing imports nor trimming nor the source next to it takes a line of code away
(`keepsCode_of_keepsOwnCode`).
-/
import SolidityKit.Proofs.Source.CanonicalImports
import SolidityKit.Proofs.Source.SharedImports
import SolidityKit.Proofs.Source.SingleDirective

namespace SolidityKit.Source

open Pattern Shape

/-! ### The law and the condition -/

/-- The words that make a line something else than code: a comment mark, and the first word of a directive. -/
def noCodeWords : List Text := ["//".toList, "pragma".toList]

/-- Whether the line is code: it is not blank and holds none of those words. -/
def isCode (line : Text) : Bool := !Text.isBlank line && noCodeWords.all fun w => !Text.containsText w line

/-- The lines of code in a text, trimmed. -/
def codeLines (t : Text) : List Text := linesWith isCode t

/-- The code of all sources stands in the merged text, line by line and in order. -/
def KeepsCode (sources : List Text) (s : MergeState) : Prop :=
  (sources.flatMap fun t => codeLines (Text.unifyLineEnds t)).Sublist
    ((Text.lines (merge sources s).1).map Text.trim)

/-- The code of a source stands in its part, whether a directive was kept before or not. -/
def KeepsOwnCode (t : Text) : Prop :=
  ∀ kept, (codeLines (Text.unifyLineEnds t)).Sublist ((Text.lines (part kept t)).map Text.trim)

/-- In a source without imports and block comments, no rule has a hit that touches a line of code. -/
@[mk_iff]
structure SparesCode (t : Text) : Prop where
  /-- Licence lines. -/
  licences : sparesLines isCode [] (licenseLine.pieces (Text.unifyLineEnds t)) = true
  /-- File markers, once the licence lines are gone. -/
  markers : sparesLines isCode [] (fileMarker.pieces (removeAll licenseLine (Text.unifyLineEnds t)).1) = true
  /-- Version directives, once the file markers are gone as well. -/
  directives : sparesLines isCode [] (versionDirective.pieces (stripped t)) = true
  /-- Version directives of the normalised source, where they are looked for once more. -/
  laterDirectives : sparesLines isCode [] (versionDirective.pieces (normalize t).text) = true

instance (t : Text) : Decidable (SparesCode t) := decidable_of_iff' _ (sparesCode_iff t)

/-! ### Lines of code -/

section Lines

variable {w line t : Text}

theorem isCode_iff : isCode line = true ↔ Text.isBlank line = false ∧ ∀ w ∈ noCodeWords, ¬ w <:+: line := by
  simp [isCode, ← Text.containsText_iff]

/-- Blanks stand at neither end of the words. -/
theorem trimmed_noCodeWord (hw : w ∈ noCodeWords) : Text.Trimmed w ∧ w ≠ [] := by
  simp only [noCodeWords, List.mem_cons, List.not_mem_nil, or_false] at hw
  rcases hw with rfl | rfl
  · exact ⟨Text.Trimmed.of_ends (c := '/') (d := '/') (by decide) (by decide) [], by decide⟩
  · exact ⟨Text.Trimmed.of_ends (c := 'p') (d := 'a') (by decide) (by decide) "ragm".toList, by decide⟩

theorem lineTest_isCode : LineTest isCode where
  blank line h := by simp [isCode, h]
  trim line := by
    rw [Bool.eq_iff_iff, isCode_iff, isCode_iff, Text.isBlank_trim]
    refine and_congr_right fun _ => forall₂_congr fun w hw => ?_
    rw [Text.infix_trim (trimmed_noCodeWord hw).1 (trimmed_noCodeWord hw).2]

theorem isCode_of_mem_codeLines (h : line ∈ codeLines t) : isCode line = true := by
  obtain ⟨whole, hwhole, rfl⟩ := List.mem_map.mp h
  rw [lineTest_isCode.trim]
  exact (List.mem_filter.mp hwhole).2

end Lines

/-! ### A source on its own -/

section Own

variable {w v t : Text} {p : Pattern} {c : Char}

/-- A licence line is taken out up to the end of its line. -/
theorem licenseLine_to_end {b : Option Char} {m : Match} {r : Text}
    (h : licenseLine.matchAt? b (m.text ++ r) = some m) : Text.AtLineEnd r := by
  obtain ⟨d, hd, ht, -⟩ := matchAt?_eq_some h
  obtain ⟨-, u, x, r', -, -, -, hr', hrest⟩ := mem_licenseLine hd
  rw [List.append_cancel_left ht, hrest]
  exact hr'

/-- Taking out hits that go to the ends of lines brings no word about. -/
theorem infix_of_removeAll (hp : OpensWith p (c :: v)) (hc : c ≠ '\n')
    (hend : ∀ b m r, p.matchAt? b (m.text ++ r) = some m → Text.AtLineEnd r) (hw : '\n' ∉ w)
    (h : w <:+: (removeAll p t).1) : w <:+: t := by
  rw [removeAll_eq] at h
  -- what is kept behind a hit begins at a line end, so no word stands across the gap
  refine (piecesFrom_induction p
    (motive := fun _ t ps => (∀ a, w <:+: a ++ keepFirst true ps → w <:+: a ++ t) ∧
      (Text.AtLineEnd t → Text.AtLineEnd (keepFirst true ps))) ?_ ?_ ?_ none t).1 [] h
  · intro _
    exact ⟨fun _ h => h, fun h => h⟩
  · intro _ x t _ ih
    refine ⟨fun a h => ?_, fun h => ?_⟩
    · have hx := ih.1 (a ++ [x])
      rw [List.append_assoc, List.append_assoc] at hx
      exact hx h
    · rcases h with h | ⟨r, h⟩
      · simp at h
      · exact Or.inr ⟨_, by rw [keepFirst, (List.cons.inj h).1]⟩
  · intro b m t _ hm ih
    have hrest : Text.AtLineEnd t := hend b m t hm
    refine ⟨fun a h => ?_, fun h => ?_⟩
    · rw [keepFirst] at h
      rcases Text.infix_append_atLineEnd hw (ih.2 hrest) h with h | h
      · exact h.trans (List.prefix_append a _).isInfix
      · have ht : w <:+: t := ih.1 [] h
        exact ht.trans ⟨a ++ m.text, [], by simp⟩
    · obtain ⟨r, hr⟩ := hp _ _ _ hm
      rcases h with h | ⟨_, h⟩
      · simp [← hr] at h
      · rw [← hr] at h
        exact absurd (List.cons.inj h).1 hc

theorem allMatches_of_absent (hp : OpensWith p w) (hn : '\n' ∉ w) (h : ¬ w <:+: t) : p.allMatches t = [] := by
  rw [allMatches, pieces_plain (noneStarts_of_absent hp hn h (Or.inl rfl)), filterMap_match?_plain]

theorem removeAll_of_absent (hp : OpensWith p w) (hn : '\n' ∉ w) (h : ¬ w <:+: t) : (removeAll p t).1 = t :=
  replaceAll_of_no_match (allMatches_of_absent hp hn h) _

/-- A word of one line that a source lacks is not brought about by taking its licence lines out. -/
theorem absent_licensed (hw : '\n' ∉ w) (h : ¬ w <:+: t) :
    ¬ w <:+: (removeAll licenseLine (Text.unifyLineEnds t)).1 := fun hword =>
  h (Text.infix_of_unifyLineEnds hw
    (infix_of_removeAll (v := ['/']) opensWith_licenseLine (by decide)
      (fun _ _ _ => licenseLine_to_end) hw hword))

/-- Where no import and no block comment stands, the rules for them have nothing to touch. -/
theorem SparesCode.throughout (h : SparesCode t) (himport : ¬ "import".toList <:+: t)
    (hblock : ¬ "/*".toList <:+: t) :
    SparesThroughout isCode t := by
  have hnoImport := absent_licensed (by decide) himport
  have hnoBlock := absent_licensed (by decide) hblock
  have hplain : ∀ {p : Pattern} {w : Text}, OpensWith p w → '\n' ∉ w →
      ¬ w <:+: (removeAll licenseLine (Text.unifyLineEnds t)).1 →
      p.pieces (removeAll licenseLine (Text.unifyLineEnds t)).1 =
        (removeAll licenseLine (Text.unifyLineEnds t)).1.map Piece.plain :=
    fun hp hn hw => pieces_plain (noneStarts_of_absent hp hn hw (Or.inl rfl))
  have hnames := removeAll_of_absent opensWith_relativeImportOfNames (by decide) hnoImport
  have himports := removeAll_of_absent opensWith_relativeImport (by decide) hnoImport
  have hcomments := removeBoilerplate_of_no_match
    (allMatches_of_absent opensWith_blockComment (by decide) hnoBlock)
  refine ⟨h.licences, ?_, ?_, ?_, ?_, h.directives, h.laterDirectives⟩
  · rw [hplain opensWith_relativeImportOfNames (by decide) hnoImport]
    exact sparesLines_plain _ _
  · rw [hnames, hplain opensWith_relativeImport (by decide) hnoImport]
    exact sparesLines_plain _ _
  · rw [hnames, himports, boilerplatePieces_plain (hplain opensWith_blockComment (by decide) hnoBlock)]
    exact sparesLines_plain _ _
  · rw [hnames, himports, hcomments]
    exact h.markers

/-- **A source keeps its code if no hit of a rule touches it.** -/
theorem keepsOwnCode_of_sparesCode (himport : ¬ "import".toList <:+: t) (hblock : ¬ "/*".toList <:+: t)
    (h : SparesCode t) : KeepsOwnCode t := fun kept =>
  (lineTest_isCode.linesWith_part (h.throughout himport hblock) kept).trans (linesWith_sublist _)

end Own

/-! ### Sources together -/

section Together

variable {sources : List Text} {t line : Text}

/-- Comparing imports only takes imports away. -/
theorem filter_sublist_keepNewImports (ls : List Text) (i : ImportState) :
    (ls.filter fun line => !Text.isExternalImport line).Sublist (keepNewImports ls i).1 := by
  refine keepNewImports_induction
    (motive := fun ls _ out => (ls.filter fun line => !Text.isExternalImport line).Sublist out.1) ?_
      ?_ ?_ ?_ ls i
  · exact fun _ => .slnil
  · intro line more s he ih
    rw [List.filter_cons_of_pos (by simp [he])]
    exact ih.cons_cons line
  · intro line more s he _ ih
    rwa [List.filter_cons_of_neg (by simp [he])]
  · intro line more s he _ ih
    rw [List.filter_cons_of_neg (by simp [he])]
    exact ih.cons line

/-- The code of a source that holds no import is no import. -/
theorem isExternalImport_codeLines (himport : ¬ "import".toList <:+: t)
    (h : line ∈ codeLines (Text.unifyLineEnds t)) : Text.isExternalImport line = false := by
  obtain ⟨whole, hwhole, rfl⟩ := List.mem_map.mp h
  rw [isExternalImport_trim]
  refine SourceLine.isExternalImport_of_absent fun hword => himport ?_
  have hpart : whole <:+: Text.unifyLineEnds t := Text.infix_of_mem_lines (List.mem_filter.mp hwhole).1
  exact Text.infix_of_unifyLineEnds (by decide) (hword.trans hpart)

/-- A source that keeps its own code adds it to a merge, whatever imports were seen before. -/
theorem KeepsOwnCode.added (h : KeepsOwnCode t) (himport : ¬ "import".toList <:+: t) (kept : Bool)
    (i : ImportState) :
    (codeLines (Text.unifyLineEnds t)).Sublist ((added kept t i).map Text.trim) := by
  have hfilter := (h kept).filter fun line => !Text.isExternalImport line
  rw [List.filter_eq_self.mpr fun line hl => by simp [isExternalImport_codeLines himport hl],
    List.filter_map] at hfilter
  refine hfilter.trans (List.Sublist.map _ ?_)
  have hsame : ((fun line => !Text.isExternalImport line) ∘ Text.trim) = fun line =>
    !Text.isExternalImport line := by
    funext line
    rw [Function.comp_apply, isExternalImport_trim]
  rw [hsame]
  exact filter_sublist_keepNewImports _ i

theorem codeLines_sublist_mergedLines (h : ∀ t ∈ sources, ¬ "import".toList <:+: t ∧ KeepsOwnCode t)
    (d : DirectiveState) (i : ImportState) :
    (sources.flatMap fun t => codeLines (Text.unifyLineEnds t)).Sublist
      ((mergedLines sources d i).map Text.trim) := by
  induction sources generalizing d i with
  | nil => exact List.nil_sublist _
  | cons t more ih =>
      rw [List.flatMap_cons, mergedLines, List.map_append]
      obtain ⟨himport, hown⟩ := h t (by simp)
      exact (hown.added himport d.kept i).append (ih (fun s hs => h s (by simp [hs])) _ _)

/-- Lines of code that are among the merged lines are among the lines of the merged text, and no others are. -/
theorem sublist_merge_iff {ls : List Text} (hls : ∀ line ∈ ls, isCode line = true) (s : MergeState) :
    ls.Sublist ((Text.lines (merge sources s).1).map Text.trim) ↔
      ls.Sublist ((mergedLines sources s.directive s.imports).map Text.trim) := by
  have hcode : ∀ ms : List Text, ls.Sublist (ms.map Text.trim) ↔
    ls.Sublist ((ms.filter isCode).map Text.trim) := by
    intro ms
    refine ⟨fun h => ?_, fun h => h.trans (List.filter_sublist.map _)⟩
    have hfilter := h.filter isCode
    rw [List.filter_eq_self.mpr hls, List.filter_map] at hfilter
    rwa [show isCode ∘ Text.trim = isCode from funext lineTest_isCode.trim] at hfilter
  have hlines : linesWith isCode (merge sources s).1 =
      ((mergedLines sources s.directive s.imports).filter isCode).map Text.trim := by
    rw [merge_text_eq, lineTest_isCode.linesWith_trim, linesWith, lines_joinWith_mergedLines]
  rw [hcode (Text.lines _), hcode (mergedLines _ _ _), ← hlines, linesWith]

/-- **Sources that keep their own code keep it together.** -/
theorem keepsCode_of_keepsOwnCode (h : ∀ t ∈ sources, ¬ "import".toList <:+: t ∧ KeepsOwnCode t)
    (s : MergeState) :
    KeepsCode sources s := by
  refine (sublist_merge_iff (fun line hl => ?_) s).mpr (codeLines_sublist_mergedLines h _ _)
  obtain ⟨t, -, hline⟩ := List.mem_flatMap.mp hl
  exact isCode_of_mem_codeLines hline

/-! ### Sources that lose code

A source that loses code when no directive was kept before loses it in a job of its own; one that loses code
when a directive was kept before loses it below a source of one directive.
-/

theorem isCode_directiveProbe : isCode directiveProbe = false := by decide

theorem codeLines_directiveProbe : codeLines (Text.unifyLineEnds directiveProbe) = [] := by decide

theorem keepsOwnCode_directiveProbe : KeepsOwnCode directiveProbe := fun kept => by
  rw [codeLines_directiveProbe]
  exact List.nil_sublist _

/-- Code that a job adds behind lines that are no code is code that its last source adds. -/
theorem sublist_part (front : List Text) (hfront : ∀ line ∈ front, isCode line = false) {kept : Bool}
    {i : ImportState}
    (h : (codeLines (Text.unifyLineEnds t)).Sublist ((front ++ (added kept t i ++ [[]])).map Text.trim)) :
    (codeLines (Text.unifyLineEnds t)).Sublist ((Text.lines (part kept t)).map Text.trim) := by
  have hfilter := h.filter isCode
  have hcode : isCode ∘ Text.trim = isCode := funext lineTest_isCode.trim
  rw [List.filter_eq_self.mpr fun line hl => isCode_of_mem_codeLines hl, List.filter_map, hcode,
    List.filter_append, List.filter_eq_nil_iff.mpr fun line hl => by simp [hfront line hl], List.nil_append,
    List.filter_append, List.filter_cons_of_neg (by simp [(by decide : isCode [] = false)]), List.filter_nil,
    List.append_nil] at hfilter
  exact hfilter.trans ((List.filter_sublist.trans (keepNewImports_sublist _ i)).map _)

/-- A source that breaks no job loses no code on its own. -/
theorem keepsOwnCode_of_keepsCode
    (h : ∀ before, (∀ s ∈ before, ¬ "import".toList <:+: s ∧ KeepsOwnCode s) → KeepsCode (before ++ [t]) {}) :
    KeepsOwnCode t := by
  intro kept
  cases kept with
  | false =>
      have hkeeps := h [] (by simp)
      unfold KeepsCode at hkeeps
      rw [List.nil_append, List.flatMap_singleton, sublist_merge_iff fun line hl =>
        isCode_of_mem_codeLines hl] at hkeeps
      have hlines : mergedLines [t] {} {} = [] ++ (added false t {} ++ [[]]) := by
        rw [mergedLines, mergedLines, List.nil_append]
      rw [hlines] at hkeeps
      exact sublist_part [] (by simp) hkeeps
  | true =>
      have hprobe : ∀ s ∈ [directiveProbe], ¬ "import".toList <:+: s ∧ KeepsOwnCode s := by
        intro s hs
        rw [List.mem_singleton.mp hs]
        exact ⟨Text.absent_of_containsText (by decide), keepsOwnCode_directiveProbe⟩
      have hkeeps := h [directiveProbe] hprobe
      unfold KeepsCode at hkeeps
      rw [List.singleton_append, List.flatMap_cons, codeLines_directiveProbe, List.nil_append,
        List.flatMap_singleton, sublist_merge_iff fun line hl => isCode_of_mem_codeLines hl] at hkeeps
      have hlines : mergedLines [directiveProbe, t] {} {} = [directiveProbe] ++ (added true t {} ++ [[]]) := by
        rw [mergedLines_directiveProbe, mergedLines, mergedLines, List.singleton_append]
      rw [hlines] at hkeeps
      exact sublist_part [directiveProbe] (by simp [isCode_directiveProbe]) hkeeps

end Together

/-! ### The law -/

/--
**Sources without imports keep their code together if each keeps its own, and no other condition on
single sources would do; a source without block comments keeps its own if no hit of a rule runs on into
a line of code.**
-/
theorem merge_keepsCode (sources : List Text) (s : MergeState) (t : Text) :
    ((∀ u ∈ sources, ¬ "import".toList <:+: u ∧ KeepsOwnCode u) → KeepsCode sources s) ∧
      (¬ KeepsOwnCode t → ∃ before, (∀ u ∈ before, ¬ "import".toList <:+: u ∧ KeepsOwnCode u) ∧
        ¬ KeepsCode (before ++ [t]) {}) ∧
      (¬ "import".toList <:+: t → ¬ "/*".toList <:+: t → SparesCode t → KeepsOwnCode t) := by
  refine ⟨fun h => keepsCode_of_keepsOwnCode h s, fun ht => ?_, keepsOwnCode_of_sparesCode⟩
  by_contra hno
  push Not at hno
  exact ht (keepsOwnCode_of_keepsCode hno)

/-- A licence line above code. -/
def licensedSource : Text := "// SPDX-License-Identifier: MIT\ncontract A {}".toList

/-- A directive with a file marker behind it, above code. -/
def markedSource : Text := "pragma solidity 1; // File: b\ncontract B {}".toList

/-- The law holds for a source with a licence line and one with a directive and a marker. -/
theorem merge_two_keepCode : KeepsCode [licensedSource, markedSource] {} := by
  refine (merge_keepsCode _ _ []).1 fun t ht => ?_
  have himport : ∀ t ∈ [licensedSource, markedSource], Text.containsText "import".toList t = false := by decide
  have hblock : ∀ t ∈ [licensedSource, markedSource], Text.containsText "/*".toList t = false := by decide
  have hspares : ∀ t ∈ [licensedSource, markedSource], SparesCode t := by decide
  have hnoImport := Text.absent_of_containsText (himport t ht)
  exact ⟨hnoImport, (merge_keepsCode [] {} t).2.2 hnoImport (Text.absent_of_containsText (hblock t ht))
    (hspares t ht)⟩

/-- A comment that speaks of version directives, above code; the directive itself is in order. -/
def rangeInComment : Text :=
  "pragma solidity ^0.8.0;\n// the pragma solidity range is checked in CI\ncontract A { uint x; }".toList

/-- A comment that speaks of version directives takes the code below it away, up to the next semicolon. -/
theorem merge_range_in_comment :
    ¬ "import".toList <:+: rangeInComment ∧ ¬ "/*".toList <:+: rangeInComment ∧
      (∀ line ∈ Text.lines (Text.unifyLineEnds rangeInComment),
        "pragma solidity".toList <+: line → ';' ∈ line) ∧
      ¬ KeepsCode [rangeInComment] {} := by
  have hmerged : (merge [rangeInComment] {}).1 = "pragma solidity ^0.8.0;\n// the  \x7d".toList := by
    decide +kernel
  refine ⟨Text.absent_of_containsText (by decide),
    Text.absent_of_containsText (by decide), by decide, fun h => ?_⟩
  have hcode : "contract A { uint x; }".toList ∈
      [rangeInComment].flatMap fun t => codeLines (Text.unifyLineEnds t) := by decide
  have hlost := h.subset hcode
  rw [hmerged] at hlost
  revert hlost
  decide

end SolidityKit.Source
