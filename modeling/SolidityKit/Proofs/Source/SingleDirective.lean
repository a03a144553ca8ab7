/-
One version directive in a merged text.

A job should end with one version directive, the first one found.  The merge removes directives source by
source, and that is not enough for all sources: taking one out may bring the words on either side of it
together into another, and opening words that no semicolon follows in their own source are closed by the next
source below them.

`Settled` is the condition on a single source that excludes both.  It is exact: a job of settled sources holds
one directive at most and keeps the one it reports, and a source that is not settled breaks some job of
otherwise settled sources (`merge_oneDirective`).
-/
import SolidityKit.Proofs.Source.Directives
import SolidityKit.Proofs.Source.Parts

namespace SolidityKit.Source

open Pattern Shape

/-! ### The law and the condition -/

/-- The merged text holds one directive at most, and holds the directive of the state if one was kept. -/
structure OneDirective (merged : Text) (s : DirectiveState) : Prop where
  /-- There is one match at most. -/
  atMostOne : (versionDirective.allMatches merged).length ≤ 1
  /-- The match is the directive that was kept. -/
  kept : s.kept = true → ∃ d, s.directive = some d ∧ (versionDirective.allMatches merged).map Match.text = [d]

/-- The law for a job that starts with given imports seen. -/
def KeepsOneDirective (sources : List Text) (i : ImportState) : Prop :=
  OneDirective (merge sources { imports := i }).1 (merge sources { imports := i }).2.directive

/-- A source that leaves no opening words behind beside its directive, whatever imports were seen before. -/
structure Settled (t : Text) : Prop where
  /-- Once a directive was kept, the source adds no line that opens another. -/
  later : ∀ i, ∀ line ∈ added true t i, ¬ Opens line
  /-- If it is the first to have a directive, that directive stands alone in what it adds. -/
  first : ∀ i d, directive? t = some d → Alone d (Text.joinWith '\n' (added false t i))

theorem isDirective_of_directive? {t d : Text} (h : directive? t = some d) : IsDirective d := by
  rw [directive?, first?, Option.map_eq_some_iff] at h
  obtain ⟨m, hm, rfl⟩ := h
  exact (isDirective_of_mem_allMatches (List.mem_of_mem_head? hm)).1

theorem Settled.added_quiet {t : Text} (h : Settled t) (hnone : directive? t = none) (i : ImportState) :
    ∀ line ∈ added false t i, ¬ Opens line := by
  unfold added
  rw [part_of_directive?_none hnone]
  exact h.later i

/-! ### Jobs of settled sources -/

/-- Once a directive was kept, settled sources add no line that opens another. -/
theorem mergedLines_quiet {sources : List Text} (h : ∀ t ∈ sources, Settled t) {d : DirectiveState}
    (hd : d.kept = true) (i : ImportState) : ∀ line ∈ mergedLines sources d i, ¬ Opens line := by
  induction sources generalizing i with
  | nil =>
      intro line hl hopens
      rw [mergedLines, List.mem_singleton] at hl
      rw [hl] at hopens
      exact absurd hopens.isInfix (by decide)
  | cons t more ih =>
      intro line hl
      rw [mergedLines, hd, nextDirective_kept hd] at hl
      rcases List.mem_append.mp hl with hl | hl
      · exact (h t (by simp)).later i line hl
      · exact ih (fun s hs => h s (by simp [hs])) _ line hl

theorem foldl_nextDirective_kept {d : DirectiveState} (hd : d.kept = true) (sources : List Text) :
    sources.foldl nextDirective d = d := by
  induction sources with
  | nil => rfl
  | cons t more ih => rw [List.foldl_cons, nextDirective_kept hd, ih]

/-- What the lines of a job say about its directives, before any was kept. -/
def DirectiveStands (ls : List Text) (d : DirectiveState) : Prop :=
  (d.kept = false ∧ ∀ line ∈ ls, ¬ Opens line) ∨
    ∃ x, d = { kept := true, directive := some x } ∧ IsDirective x ∧ Alone x (Text.joinWith '\n' ls)

/-- Settled sources together add at most the first directive, and it stands alone. -/
theorem directiveStands {sources : List Text} (h : ∀ t ∈ sources, Settled t) {d : DirectiveState}
    (hd : d.kept = false) (i : ImportState) :
    DirectiveStands (mergedLines sources d i) (sources.foldl nextDirective d) := by
  induction sources generalizing i with
  | nil =>
      refine Or.inl ⟨hd, fun line hl hopens => ?_⟩
      rw [mergedLines, List.mem_singleton] at hl
      rw [hl] at hopens
      exact absurd hopens.isInfix (by decide)
  | cons t more ih =>
      have ht := h t (by simp)
      have hmore : ∀ s ∈ more, Settled s := fun s hs => h s (by simp [hs])
      rw [mergedLines, hd, List.foldl_cons]
      cases hx : directive? t with
      | none =>
          rw [nextDirective_none hx]
          have hquiet := ht.added_quiet hx i
          rcases ih hmore _ with ⟨hkept, hrest⟩ | ⟨x, hfold, hx', halone⟩
          · refine Or.inl ⟨hkept, fun line hl => ?_⟩
            rcases List.mem_append.mp hl with hl | hl
            · exact hquiet line hl
            · exact hrest line hl
          · exact Or.inr ⟨x, hfold, hx', halone.lines_append hx' hquiet⟩
      | some x =>
          have hdirective := isDirective_of_directive? hx
          rw [nextDirective_some hd hx, foldl_nextDirective_kept rfl]
          exact Or.inr ⟨x, rfl, hdirective,
            (ht.first i x hx).append_lines hdirective (mergedLines_quiet hmore rfl _)⟩

/-- A job of settled sources keeps one directive. -/
theorem keepsOneDirective_of_settled {sources : List Text} (h : ∀ t ∈ sources, Settled t) (i : ImportState) :
    KeepsOneDirective sources i := by
  unfold KeepsOneDirective
  rw [merge_text_eq, merge_directive_eq]
  rcases directiveStands h (d := {}) rfl i with ⟨hkept, hquiet⟩ | ⟨x, hfold, hx, halone⟩
  · have hnot : ¬ Opens (Text.trim (Text.joinWith '\n' (mergedLines sources {} i))) := by
      intro hopens
      obtain ⟨line, hl, hline⟩ := opens_joinWith.mp hopens.of_trim
      exact hquiet line hl hline
    refine ⟨?_, ?_⟩
    · rw [allMatches_of_not_opens hnot]
      exact Nat.zero_le 1
    · intro hk
      rw [hkept] at hk
      simp at hk
  · have hmatches := allMatches_of_alone hx (halone.trim hx)
    refine ⟨?_, fun _ => ⟨x, ?_, ?_⟩⟩
    · rw [hmatches]
      exact Nat.le_refl 1
    · rw [hfold]
    · rw [hmatches]
      rfl

/-! ### Sources that are settled -/

/--
A source is settled if its part opens nothing but its directive, and no line on which the directive stands
is an external import, which might be dropped.
-/
theorem settled_of_lines {t : Text} (hlater : ∀ line ∈ Text.lines (part true t), ¬ Opens line)
    (hfirst : ∀ d, directive? t = some d → ∃ front ls back, Text.lines (part false t) = front ++ (ls ++ back) ∧
      Alone d (Text.joinWith '\n' ls) ∧ (∀ line ∈ ls, Text.isExternalImport line = false) ∧
      (∀ line ∈ front, ¬ Opens line) ∧ ∀ line ∈ back, ¬ Opens line) :
    Settled t where
  later i line hl := hlater line ((keepNewImports_sublist _ i).mem hl)
  first i d hd := by
    obtain ⟨front, ls, back, hlines, halone, himports, hfront, hback⟩ := hfirst d hd
    have hdirective := isDirective_of_directive? hd
    rw [added, hlines, keepNewImports_append, keepNewImports_append, keepNewImports_of_no_import himports]
    refine (halone.append_lines hdirective ?_).lines_append hdirective ?_
    · exact fun line hl => hback line ((keepNewImports_sublist _ _).mem hl)
    · exact fun line hl => hfront line ((keepNewImports_sublist _ _).mem hl)

/-- A source with its directive on the first line and no other opening words is settled. -/
theorem settled_of_first_line {t : Text} (d : Text) (ls : List Text) (hd : directive? t = some d)
    (hlines : Text.lines (part false t) = d :: ls) (himport : Text.isExternalImport d = false)
    (hfirst : ∀ line ∈ ls, Text.containsText opening line = false)
    (hlater : ∀ line ∈ Text.lines (part true t), Text.containsText opening line = false) : Settled t := by
  refine settled_of_lines (fun line hl => not_opens_of_containsText (hlater line hl)) fun d' hd' => ?_
  obtain rfl : d = d' := Option.some.inj (hd.symm.trans hd')
  refine ⟨[], [d], ls, hlines, ⟨[], [], by simp [Text.joinWith], not_opens_nil, not_opens_nil⟩, ?_, ?_, ?_⟩
  · simpa using himport
  · simp
  · exact fun line hl => not_opens_of_containsText (hfirst line hl)

/-- A source without a directive and without opening words is settled. -/
theorem settled_of_no_directive {t : Text} (hd : directive? t = none)
    (hlater : ∀ line ∈ Text.lines (part true t), Text.containsText opening line = false) : Settled t := by
  refine settled_of_lines (fun line hl => not_opens_of_containsText (hlater line hl)) fun d' hd' => ?_
  rw [hd] at hd'
  simp at hd'

/-! ### Closing what a source left open

A line that ends with a semicolon, put below the lines of a source, closes whatever they left open.
-/

/-- The text ends with its only semicolon. -/
def Closes (s : Text) : Prop := ∃ w, s = w ++ [';'] ∧ ';' ∉ w

/-- Below other lines a closing line stays at the end, and only blanks in front are trimmed away. -/
theorem Closes.trim_joinWith {s : Text} (h : Closes s) (ls : List Text) :
    ∃ u, Text.isBlank u = true ∧
      Text.joinWith '\n' (ls ++ [s]) = u ++ Text.trim (Text.joinWith '\n' (ls ++ [s, []])) := by
  obtain ⟨w, rfl, -⟩ := h
  exact Text.trim_joinWith_break List.getLast?_concat (by decide) ls

/-- Text that opens above a closing line holds a directive. -/
theorem Closes.allMatches_ne_nil {s t : Text} (h : Closes s) (ht : Opens t) :
    versionDirective.allMatches (t ++ '\n' :: s) ≠ [] := by
  obtain ⟨w, rfl, -⟩ := h
  exact allMatches_ne_nil_of_opens ht (by simp) (by simp)

/-- If a directive stays the only match with lines and a closing line below it, the lines open nothing. -/
theorem Closes.quiet_of_atMostOne {s d : Text} (h : Closes s) (hd : IsDirective d) {ls : List Text}
    (hone : (versionDirective.allMatches
      (Text.trim (Text.joinWith '\n' (d :: ls ++ [s, []])))).length ≤ 1) :
    ∀ line ∈ ls, ¬ Opens line := by
  intro line hl hopens
  obtain ⟨u, hu, htext⟩ := h.trim_joinWith (d :: ls)
  have hcut : Text.joinWith '\n' (d :: ls ++ [s]) = d ++ (('\n' :: Text.joinWith '\n' ls) ++ '\n' :: s) := by
    rw [List.cons_append, Text.joinWith_cons _ (by simp),
      Text.joinWith_append (List.ne_nil_of_mem hl) (List.cons_ne_nil _ _)]
    rfl
  -- the text begins with the directive, so no blanks are trimmed away in front
  obtain rfl : u = [] := by
    cases u with
    | nil => rfl
    | cons c u =>
        cases d with
        | nil => exact absurd rfl hd.ne_nil
        | cons x d =>
            rw [hcut] at htext
            obtain rfl : x = c := (List.cons.inj htext).1
            have hx := hd.trimmed.head x rfl
            rw [Text.isBlank_iff.mp hu x (by simp)] at hx
            simp at hx
  rw [List.nil_append] at htext
  rw [← htext, hcut, allMatches_append hd, List.length_cons] at hone
  have hnone := List.eq_nil_of_length_eq_zero (Nat.le_zero.mp (Nat.le_of_succ_le_succ hone))
  exact h.allMatches_ne_nil ((opens_joinWith.mpr ⟨line, hl, hopens⟩).append_left ['\n']) hnone

/-- What reaches a semicolon of a closing line reaches its end. -/
theorem Closes.rest_eq_nil {s a r : Text} (h : Closes s) (hcut : '\n' :: s = a ++ [';'] ++ r) : r = [] := by
  obtain ⟨w, rfl, hw⟩ := h
  rcases List.eq_nil_or_concat' r with hr | ⟨r', x, rfl⟩
  · exact hr
  · rw [← List.append_assoc, ← List.cons_append] at hcut
    have hmem : ';' ∈ '\n' :: w := by
      rw [(List.append_inj' hcut rfl).1]
      simp
    simp [hw] at hmem

/-- A directive at the end of a text is longer than a last line without opening words. -/
theorem suffix_of_quiet_line {s d x : Text} (hd : IsDirective d) (hs : ¬ opening <:+: s) (hend : d <:+ x)
    (hline : '\n' :: s <:+ x) : '\n' :: s <:+ d := by
  rcases List.suffix_or_suffix_of_suffix hend hline with hsuf | hsuf
  · obtain ⟨w, hw, -⟩ := hd
    have hpart : opening <:+: '\n' :: s := List.IsInfix.trans ⟨[], w ++ [';'], hw.symm⟩ hsuf.isInfix
    rcases List.infix_cons_iff.mp hpart with hpre | hpart
    · have hhead : 'p' = '\n' := (List.cons_prefix_cons.mp hpre).1
      exact absurd hhead (by decide)
    · exact absurd hpart hs
  · exact hsuf

/-- If a directive is the only match of lines above a closing line, it stands alone in them or
ends below them. -/
theorem Closes.alone_of_single {s d : Text} (h : Closes s) (hs : ¬ opening <:+: s) (hd : IsDirective d)
    {ls : List Text}
    (hone : (versionDirective.allMatches (Text.trim (Text.joinWith '\n' (ls ++ [s, []])))).map
      Match.text = [d]) :
    Alone d (Text.joinWith '\n' ls) ∨ '\n' :: s <:+ d := by
  obtain ⟨m, hm, rfl⟩ := List.map_eq_singleton_iff.mp hone
  obtain ⟨a, r, hcut, ha, hr⟩ := exists_of_allMatches_singleton hm
  obtain ⟨u, hu, htext⟩ := h.trim_joinWith ls
  rw [hcut] at htext
  have hua : ¬ Opens (u ++ a) := fun hopens => ha (hopens.of_blank_append hu)
  have hne : ls ≠ [] := by
    rintro rfl
    obtain ⟨w, hw, -⟩ := hd
    refine hs ⟨u ++ a, w ++ [';'] ++ r, ?_⟩
    rw [hw] at htext
    simpa [Text.joinWith] using htext.symm
  rw [Text.joinWith_append hne (List.cons_ne_nil _ _),
    show u ++ (a ++ (m.text ++ r)) = (u ++ a ++ m.text) ++ r by simp] at htext
  rcases List.append_eq_append_iff.mp htext with ⟨e, he, htail⟩ | ⟨e, he, rfl⟩
  · rcases List.eq_nil_or_concat' e with rfl | ⟨e', c, rfl⟩
    · refine Or.inl ⟨u ++ a, [], ?_, hua, not_opens_nil⟩
      rw [List.append_nil] at he ⊢
      rw [← he, List.append_assoc]
    -- the directive ends in the closing line, so at its end
    obtain rfl : ';' = c := by
      obtain ⟨w, hw, -⟩ := hd
      rw [hw, ← List.append_assoc, ← List.append_assoc, ← List.append_assoc] at he
      exact (List.cons.inj (List.append_inj' he rfl).2).1
    have hr : r = [] := h.rest_eq_nil htail
    rw [hr, List.append_nil] at htail
    rw [← htail] at he
    exact Or.inr (suffix_of_quiet_line hd hs (he ▸ List.suffix_append (u ++ a) m.text) (List.suffix_append _ _))
  · refine Or.inl ⟨u ++ a, e, by rw [he]; simp, hua, fun hopens => ?_⟩
    exact h.allMatches_ne_nil hopens hr

/-! ### Sources that are not settled

Two short jobs tell whether a source is settled: a directive above it, or nothing, and below it a
source that closes.  There are two sources that close, since a directive of the source could by chance
end like one of them.
-/

/-- A source of one line that closes, and leaves the state as it is. -/
structure IsCloser (s : Text) : Prop where
  /-- It ends with its only semicolon. -/
  closes : Closes s
  /-- It is one line. -/
  oneLine : '\n' ∉ s
  /-- It holds no opening words. -/
  quiet : Text.containsText opening s = false
  /-- It is its own part, whatever was kept before. -/
  part_eq : ∀ kept, part kept s = s
  /-- It has no directive. -/
  directive_eq : directive? s = none
  /-- It is no import. -/
  noImport : Text.isExternalImport s = false

theorem isCloser_semicolon : IsCloser [';'] where
  closes := ⟨[], rfl, by decide⟩
  oneLine := by decide
  quiet := rfl
  part_eq kept := by cases kept <;> rfl
  directive_eq := rfl
  noImport := rfl

theorem isCloser_letter : IsCloser ['x', ';'] where
  closes := ⟨['x'], rfl, by decide⟩
  oneLine := by decide
  quiet := rfl
  part_eq kept := by cases kept <;> rfl
  directive_eq := rfl
  noImport := rfl

section Probes

variable {s t d : Text}

theorem IsCloser.settled (h : IsCloser s) : Settled s := by
  refine settled_of_no_directive h.directive_eq ?_
  rw [h.part_eq, Text.lines_of_notMem h.oneLine]
  simpa using h.quiet

theorem IsCloser.mergedLines_eq (h : IsCloser s) (d : DirectiveState) (i : ImportState) :
    mergedLines [s] d i = [s, []] := by
  have hlines : ∀ line ∈ [s], Text.isExternalImport line = false := by simp [h.noImport]
  rw [mergedLines, added, h.part_eq, Text.lines_of_notMem h.oneLine, keepNewImports_of_no_import hlines]
  rfl

/-- A source of one directive. -/
def directiveProbe : Text := "pragma solidity 1;".toList

theorem isDirective_directiveProbe : IsDirective directiveProbe := ⟨['1'], rfl, by decide, by decide⟩

theorem part_directiveProbe : part false directiveProbe = directiveProbe := rfl

theorem directive?_directiveProbe : directive? directiveProbe = some directiveProbe := rfl

theorem noImport_directiveProbe : ∀ line ∈ [directiveProbe], Text.isExternalImport line = false := by decide

theorem lines_directiveProbe : Text.lines directiveProbe = [directiveProbe] := rfl

theorem settled_directiveProbe : Settled directiveProbe := by
  refine settled_of_first_line directiveProbe [] directive?_directiveProbe ?_ ?_ ?_ ?_
  · rw [part_directiveProbe, lines_directiveProbe]
  · exact noImport_directiveProbe _ (by simp)
  · simp
  · decide

theorem mergedLines_directiveProbe (more : List Text) (i : ImportState) :
    mergedLines (directiveProbe :: more) {} i =
      directiveProbe :: mergedLines more { kept := true, directive := some directiveProbe } i := by
  rw [mergedLines, nextDirective_some rfl directive?_directiveProbe, added, part_directiveProbe,
    lines_directiveProbe, keepNewImports_of_no_import noImport_directiveProbe]
  rfl

/-- A source that opens a directive after one was kept breaks the job with a directive above and a
closer below it. -/
theorem IsCloser.later_of_keeps (h : IsCloser s) {i : ImportState}
    (hkeeps : KeepsOneDirective [directiveProbe, t, s] i) : ∀ line ∈ added true t i, ¬ Opens line := by
  have hlines : mergedLines [directiveProbe, t, s] {} i = directiveProbe :: added true t i ++ [s, []] := by
    rw [mergedLines_directiveProbe, mergedLines, h.mergedLines_eq]
    rfl
  have hone := hkeeps.atMostOne
  rw [merge_text_eq, hlines] at hone
  exact h.closes.quiet_of_atMostOne isDirective_directiveProbe hone

/-- A source whose directive does not stand alone breaks the job with a closer below it. -/
theorem IsCloser.first_of_keeps (h : IsCloser s) {i : ImportState} (hkeeps : KeepsOneDirective [t, s] i)
    (hd : directive? t = some d) : Alone d (Text.joinWith '\n' (added false t i)) ∨ '\n' :: s <:+ d := by
  have hlines : mergedLines [t, s] {} i = added false t i ++ [s, []] := by
    rw [mergedLines, h.mergedLines_eq]
  have hstate : (merge [t, s] { imports := i }).2.directive = { kept := true, directive := some d } := by
    rw [merge_directive_eq, List.foldl_cons, nextDirective_some rfl hd, foldl_nextDirective_kept rfl]
  have hkept := hkeeps.kept
  rw [merge_text_eq, hlines, hstate] at hkept
  obtain ⟨d', hd', hone⟩ := hkept rfl
  obtain rfl : d = d' := Option.some.inj hd'
  exact h.closes.alone_of_single (Text.absent_of_containsText h.quiet) (isDirective_of_directive? hd) hone

end Probes

/-- A source that breaks no job of settled sources is settled. -/
theorem settled_of_keepsOneDirective {t : Text}
    (h : ∀ before after i, (∀ s ∈ before ++ after, Settled s) → KeepsOneDirective (before ++ t :: after) i) :
    Settled t where
  later i := by
    refine isCloser_semicolon.later_of_keeps (h [directiveProbe] [[';']] i ?_)
    simp [settled_directiveProbe, isCloser_semicolon.settled]
  first i d hd := by
    have hsemicolon := isCloser_semicolon.first_of_keeps
      (h [] [[';']] i (by simp [isCloser_semicolon.settled])) hd
    have hletter := isCloser_letter.first_of_keeps (h [] [['x', ';']] i (by simp [isCloser_letter.settled])) hd
    rcases hsemicolon with halone | hsuf
    · exact halone
    rcases hletter with halone | hsuf'
    · exact halone
    -- a directive cannot end in both ways
    rcases List.suffix_or_suffix_of_suffix hsuf hsuf' with hends | hends
    · exact absurd hends (by decide)
    · exact absurd hends (by decide)

/-! ### The law -/

/--
**A job of settled sources keeps one directive, and no other condition on single sources would do**: a source
that is not settled can be put among settled ones so that the merged text holds another directive.
-/
theorem merge_oneDirective (sources : List Text) (i : ImportState) (t : Text) :
    ((∀ s ∈ sources, Settled s) → KeepsOneDirective sources i) ∧
      (¬ Settled t →
        ∃ before after i, (∀ s ∈ before ++ after, Settled s) ∧
          ¬ KeepsOneDirective (before ++ t :: after) i) := by
  refine ⟨fun h => keepsOneDirective_of_settled h i, fun ht => ?_⟩
  by_contra hno
  push Not at hno
  exact ht (settled_of_keepsOneDirective hno)

/-- The law holds for two sources that both bring a directive. -/
theorem merge_two_settled :
    KeepsOneDirective ["pragma solidity ^0.8.0;\ncontract A {}".toList,
      "pragma solidity ^0.7.0;\nimport \"b\";".toList] {} := by
  refine (merge_oneDirective _ _ []).1 ?_
  have hfirst : Settled "pragma solidity ^0.8.0;\ncontract A {}".toList :=
    settled_of_first_line "pragma solidity ^0.8.0;".toList ["contract A {}".toList]
      rfl rfl rfl (by decide) (by decide)
  have hsecond : Settled "pragma solidity ^0.7.0;\nimport \"b\";".toList :=
    settled_of_first_line "pragma solidity ^0.7.0;".toList ["import \"b\";".toList]
      rfl rfl rfl (by decide) (by decide)
  intro t ht
  rcases List.mem_cons.mp ht with rfl | ht
  · exact hfirst
  · obtain rfl := List.mem_singleton.mp ht
    exact hsecond

/-- Taking out the inner directive brings the words around it together. -/
theorem merge_nested_directives :
    ¬ KeepsOneDirective ["pragma solidity ^0.8.0;\ncontract A {}".toList,
      "prapragma solidity ^0.7.0;gma solidity ^0.6.0;\ncontract B {}".toList] {} := by
  intro h
  have hone := h.atMostOne
  revert hone
  decide

end SolidityKit.Source
