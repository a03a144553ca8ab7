/-
Blank lines in a merged text.

Blank runs are collapsed in the part of each source, so that a part has no blank line — unless it is empty, for
then it is a blank line itself once the parts are joined (`part_eq_nil_of_blank_line`).  Dropping repeated
imports takes whole lines away and leaves none behind.  So the blank lines of a merge are those of its empty
parts, and the last trim takes them away only if nothing is said above them or nothing below.

That is exactly when a merged text has no blank run (`merge_noBlankRun_iff`).  A source that normalising
reduces to nothing, between two others that say something, leaves one (`merge_reduced_source`).
-/
import SolidityKit.Proofs.Source.Batches
import SolidityKit.Proofs.Source.BlankRuns

namespace SolidityKit

namespace Text

variable {ls : List Text}

/-! ### Blank lines between others -/

/-- A blank line stands between two lines that are not blank. -/
def BlankBetween (ls : List Text) : Prop :=
  ∃ front line back, ls = front ++ line :: back ∧ isBlank line = true ∧ nonBlank front ≠ [] ∧ nonBlank back ≠ []

/-- A blank line at the end stands between no others. -/
theorem blankBetween_concat : BlankBetween (ls ++ [[]]) ↔ BlankBetween ls := by
  constructor
  · rintro ⟨front, line, back, hls, hline, hfront, hback⟩
    cases back using List.reverseRecOn with
    | nil => exact absurd rfl hback
    | append_singleton back last =>
        rw [← List.cons_append, ← List.append_assoc] at hls
        obtain ⟨rfl, hlast⟩ := List.append_inj' hls rfl
        cases hlast
        rw [nonBlank_closed] at hback
        exact ⟨front, line, back, rfl, hline, hfront, hback⟩
  · rintro ⟨front, line, back, rfl, hline, hfront, hback⟩
    refine ⟨front, line, back ++ [[]], by rw [List.append_assoc, List.cons_append], hline, hfront, ?_⟩
    rwa [nonBlank_closed]

end Text

namespace Source

open Pattern Shape

variable {t : Text}

/-! ### Blank runs and blank lines -/

theorem occursIn_blankRun : blankRun.occursIn t = false ↔ NoBlankRun t := by
  rw [occursIn_eq_false_iff]
  constructor
  · rintro h w hw ⟨a, b, rfl⟩
    obtain ⟨e, he⟩ : ∃ e, e ∈ blankRun.ends ⟨lastOf none a, '\n' :: (w ++ '\n' :: b), none⟩ := blankRun_way hw
    obtain ⟨m, hm⟩ := matchAt?_isSome he
    obtain ⟨w', r, htext, -⟩ := matchAt?_blankRun hm
    have hempty : m.text = [] := by
      refine text_eq_nil_of_no_match (u := a) ?_ hm
      simpa using h
    rw [htext] at hempty
    cases hempty
  · intro h
    cases hmatches : blankRun.allMatches t with
    | nil => rfl
    | cons m more =>
        obtain ⟨a, r, ht, hm, -⟩ := exists_first_match hmatches
        obtain ⟨w, -, htext, -, hw, -⟩ := matchAt?_blankRun hm
        refine absurd ⟨a, r, ?_⟩ (h w hw)
        rw [ht, htext, List.append_assoc]

/-- Trimming makes no blank run. -/
theorem NoBlankRun.trim (h : NoBlankRun t) : NoBlankRun (Text.trim t) := by
  intro w hw hrun
  obtain ⟨u, v, hsplit, -, -⟩ := Text.trim_split t
  exact h w hw (hrun.trans ⟨u, v, hsplit.symm⟩)

/-- A blank run is trimmed away unless there is something else than blanks on either side of it. -/
theorem noBlankRun_trim_iff :
    NoBlankRun (Text.trim t) ↔
      ∀ a w b, t = a ++ '\n' :: (w ++ '\n' :: b) → Text.isBlank w = true →
        Text.isBlank a = true ∨ Text.isBlank b = true := by
  constructor
  · intro h a w b ht hw
    by_contra hends
    obtain ⟨ha, hb⟩ : Text.isBlank a = false ∧ Text.isBlank b = false := by simpa using hends
    have hb' : Text.isBlank ('\n' :: (w ++ '\n' :: b)) = false := by simp [hb]
    have hcut : '\n' :: (w ++ '\n' :: b) = '\n' :: (w ++ ['\n']) ++ b := by simp
    refine h w hw ⟨Text.trimLeft a, Text.trimRight b, ?_⟩
    rw [Text.trim, ht, Text.trimLeft_append ha, Text.trimRight_append hb', hcut, Text.trimRight_append hb,
      List.append_assoc]
  · rintro h w hw ⟨a, b, hrun⟩
    obtain ⟨u, v, ht, hu, hv⟩ := Text.trim_split t
    have htrimmed := Text.trimmed_trim t
    rw [← hrun] at htrimmed ht
    rcases h (u ++ a) w (b ++ v) (by rw [ht]; simp) hw with hblank | hblank
    · rw [Text.isBlank_append, Bool.and_eq_true] at hblank
      have hfront := Text.Trimmed.eq_nil_of_blank_append (u := a ++ ['\n']) (r := w ++ '\n' :: b)
        (by simpa using htrimmed) (by simp [hblank.2])
      simp at hfront
    · rw [Text.isBlank_append, Bool.and_eq_true] at hblank
      have hback := Text.Trimmed.eq_nil_of_append_blank (r := a ++ '\n' :: w) (v := '\n' :: b)
        (by simpa using htrimmed) (by simp [hblank.1])
      simp at hback

/-- **Trimming leaves a blank run exactly if a blank line stands between two others.** -/
theorem noBlankRun_trim_lines : NoBlankRun (Text.trim t) ↔ ¬ Text.BlankBetween (Text.lines t) := by
  rw [noBlankRun_trim_iff]
  constructor
  · rintro h ⟨front, line, back, hls, hline, hfront, hback⟩
    have hfront' : front ≠ [] := by rintro rfl; exact hfront rfl
    have hback' : back ≠ [] := by rintro rfl; exact hback rfl
    have ht : t = Text.joinWith '\n' front ++ '\n' :: (line ++ '\n' :: Text.joinWith '\n' back) := by
      rw [← Text.joinWith_lines t, hls, Text.joinWith_append hfront' (List.cons_ne_nil _ _),
        Text.joinWith_cons line hback']
    rcases h _ _ _ ht hline with hblank | hblank
    · exact hfront (Text.isBlank_joinWith.mp hblank)
    · exact hback (Text.isBlank_joinWith.mp hblank)
  · intro h a w b ht hw
    by_contra hends
    rw [not_or] at hends
    obtain ⟨ha, hb⟩ := hends
    obtain ⟨line, more, hlines⟩ := List.exists_cons_of_ne_nil (Text.lines_ne_nil w)
    have hmore := Text.nonBlank_lines_of_isBlank hw
    have hline : Text.isBlank line = true := by
      cases hl : Text.isBlank line with
      | true => rfl
      | false =>
          rw [hlines, Text.nonBlank_cons hl] at hmore
          cases hmore
    rw [hlines, Text.nonBlank_cons_blank hline] at hmore
    refine h ⟨Text.lines a, line, more ++ Text.lines b, ?_, hline, ?_, ?_⟩
    · rw [ht, Text.lines_append, Text.lines_append, hlines, List.cons_append]
    · rwa [Ne, Text.nonBlank_lines_eq_nil_iff]
    · rwa [Text.nonBlank_append, hmore, List.nil_append, Ne, Text.nonBlank_lines_eq_nil_iff]

/-! ### The part of one source -/

/-- A trimmed text without blank runs has no blank line, unless it is empty. -/
theorem eq_nil_of_blank_line {line : Text} (ht : Text.Trimmed t) (hruns : NoBlankRun t)
    (hmem : line ∈ Text.lines t) (hline : Text.isBlank line = true) : t = [] := by
  obtain ⟨front, back, hls⟩ := List.append_of_mem hmem
  rw [← ht.trim_eq, noBlankRun_trim_lines] at hruns
  have hends : Text.nonBlank front = [] ∨ Text.nonBlank back = [] := by
    by_contra hends
    rw [not_or] at hends
    exact hruns ⟨front, line, back, hls, hline, hends⟩
  rw [← ht.trim_eq, Text.trim_eq_nil_iff, ← Text.nonBlank_lines_eq_nil_iff, hls, Text.nonBlank_append,
    Text.nonBlank_cons_blank hline]
  rw [← Text.joinWith_lines t, hls] at ht
  rcases hends with hfront | hback
  · by_cases hback : back = []
    · rw [hfront, hback]
      rfl
    · -- the blank lines above would begin the text with a line feed at the latest
      rw [List.append_cons, Text.joinWith_append (by simp) hback, List.append_cons] at ht
      have hblank : Text.isBlank (Text.joinWith '\n' (front ++ [line])) = true := by
        rw [Text.isBlank_joinWith, Text.nonBlank_append, hfront, Text.nonBlank_cons_blank hline]
        rfl
      have hnil := ht.eq_nil_of_blank_append (by simp [hblank])
      simp at hnil
  · by_cases hfront : front = []
    · rw [hfront, hback]
      rfl
    · rw [Text.joinWith_append hfront (List.cons_ne_nil _ _)] at ht
      have hblank : Text.isBlank (Text.joinWith '\n' (line :: back)) = true := by
        rw [Text.isBlank_joinWith, Text.nonBlank_cons_blank hline, hback]
      have hnil := ht.eq_nil_of_append_blank (by simp [hblank])
      cases hnil

/-- **The part of a source has no blank line, unless it is empty.** -/
theorem part_eq_nil_of_blank_line {kept : Bool} {line : Text} (hmem : line ∈ Text.lines (part kept t))
    (hline : Text.isBlank line = true) : part kept t = [] := by
  have hruns : NoBlankRun (part kept t) := (noBlankRun_collapse _).trim
  exact eq_nil_of_blank_line (Text.trimmed_trim _) hruns hmem hline

/-! ### A merge of all sources -/

variable (sources : List Text) (s : MergeState)

/-- A merge says nothing exactly if the lines say nothing that its sources add. -/
theorem merge_eq_nil_iff : (merge sources s).1 = [] ↔ Text.nonBlank (addedLines sources s) = [] := by
  rw [merge_text_addedLines, Text.trim_eq_nil_iff, Text.isBlank_joinWith, Text.nonBlank_closed]

/-- A place in one list after another is a place in the first or in the second. -/
theorem cut_append {α : Type} {x : α} {above below ls ms : List α} (h : above ++ x :: below = ls ++ ms) :
    (∃ r, ls = above ++ x :: r ∧ below = r ++ ms) ∨ ∃ r, above = ls ++ r ∧ ms = r ++ x :: below := by
  rcases List.append_eq_append_iff.mp h with ⟨r, hls, hr⟩ | ⟨r, habove, hms⟩
  · cases r with
    | nil => exact Or.inr ⟨[], by simpa using hls.symm, hr.symm⟩
    | cons y r =>
        obtain ⟨rfl, hbelow⟩ := List.cons.inj hr
        exact Or.inl ⟨r, hls, hbelow⟩
  · exact Or.inr ⟨r, habove, hms⟩

/-- Each line that is added comes from one of the sources, in the state that those above it have left. -/
theorem exists_source_of_addedLines {s : MergeState} {sources above below : List Text} {line : Text}
    (h : addedLines sources s = above ++ line :: below) :
    ∃ front t back above' below', sources = front ++ t :: back ∧
      addedLines [t] (merge front s).2 = above' ++ line :: below' ∧
      above = addedLines front s ++ above' ∧
      below = below' ++ addedLines back (merge (front ++ [t]) s).2 := by
  induction sources generalizing s above with
  | nil => cases above <;> cases h
  | cons t more ih =>
      have hsplit := addedLines_append [t] more s
      rw [List.singleton_append, h] at hsplit
      rcases cut_append hsplit with ⟨r, hfirst, hbelow⟩ | ⟨r, habove, hmore⟩
      · refine ⟨[], t, more, above, r, rfl, ?_, rfl, hbelow⟩
        rw [merge_nil, hfirst]
      · obtain ⟨front, t', back, above', below', rfl, hline, rfl, hbelow⟩ := ih hmore
        rw [← merge_state_append, List.singleton_append] at hline hbelow
        have hfront : addedLines (t :: front) s = addedLines [t] s ++ addedLines front (merge [t] s).2 :=
          addedLines_append [t] front s
        exact ⟨t :: front, t', back, above', below', rfl,
          hline, by rw [habove, hfront, List.append_assoc], hbelow⟩

/-- A source that is reduced to nothing adds one blank line. -/
theorem addedLines_of_part_nil (h : part s.directive.kept t = []) : addedLines [t] s = [[]] := by
  rw [addedLines_singleton, added, h]
  exact congrArg Prod.fst (keepNewImports_closed [] s.imports)

/-- Where a source adds a blank line, it is reduced to nothing and adds nothing else. -/
theorem part_eq_nil_of_addedLines {s : MergeState} {above below : List Text} {line : Text}
    (h : addedLines [t] s = above ++ line :: below) (hline : Text.isBlank line = true) :
    part s.directive.kept t = [] ∧ above = [] ∧ below = [] := by
  have hmem : line ∈ Text.lines (part s.directive.kept t) := by
    refine (keepNewImports_sublist _ s.imports).mem ?_
    rw [← added, ← addedLines_singleton, h]
    exact List.mem_append_right _ List.mem_cons_self
  have hpart := part_eq_nil_of_blank_line hmem hline
  rw [addedLines_of_part_nil s hpart] at h
  cases above with
  | nil => exact ⟨hpart, rfl, (List.cons.inj h).2.symm⟩
  | cons first above => simp at h

/-- A merged text has a blank run exactly if the lines that are added have a blank line between two others. -/
theorem occursIn_blankRun_merge :
    blankRun.occursIn (merge sources s).1 = false ↔ ¬ Text.BlankBetween (addedLines sources s) := by
  rw [occursIn_blankRun, merge_text_addedLines, noBlankRun_trim_lines,
    Text.lines_joinWith (by simp) (notMem_closedLines sources s), Text.blankBetween_concat]

/-- A source that is reduced to nothing, between others that say something, is a blank line
between two others. -/
theorem blankBetween_of_reduced {s : MergeState} {front back : List Text}
    (hpart : part (merge front s).2.directive.kept t = []) (hfront : Text.nonBlank (addedLines front s) ≠ [])
    (hback : Text.nonBlank (addedLines back (merge (front ++ [t]) s).2) ≠ []) :
    Text.BlankBetween (addedLines (front ++ t :: back) s) := by
  refine ⟨addedLines front s, [], addedLines back (merge (front ++ [t]) s).2, ?_, rfl, hfront, hback⟩
  rw [addedLines_append, ← List.singleton_append, addedLines_append, addedLines_of_part_nil _ hpart,
    merge_state_append]
  rfl

/-- Each blank line between two others is a source that is reduced to nothing. -/
theorem exists_reduced_of_blankBetween {s : MergeState} {sources : List Text}
    (h : Text.BlankBetween (addedLines sources s)) :
    ∃ front t back, sources = front ++ t :: back ∧ part (merge front s).2.directive.kept t = [] ∧
      Text.nonBlank (addedLines front s) ≠ [] ∧
      Text.nonBlank (addedLines back (merge (front ++ [t]) s).2) ≠ [] := by
  obtain ⟨above, line, below, hlines, hline, habove, hbelow⟩ := h
  obtain ⟨front, t, back, above', below', hsources, hadded, rfl, rfl⟩ := exists_source_of_addedLines hlines
  obtain ⟨hpart, rfl, rfl⟩ := part_eq_nil_of_addedLines hadded hline
  rw [List.append_nil] at habove
  rw [List.nil_append] at hbelow
  exact ⟨front, t, back, hsources, hpart, habove, hbelow⟩

/-- Where each source says something, a merged text has no blank run. -/
theorem merge_noBlankRun (h : ∀ t ∈ sources, ∀ kept, part kept t ≠ []) :
    blankRun.occursIn (merge sources s).1 = false := by
  rw [occursIn_blankRun_merge]
  intro hblank
  obtain ⟨front, t, back, rfl, hpart, -⟩ := exists_reduced_of_blankBetween hblank
  exact h t (by simp) _ hpart

/--
**A merged text has no blank run exactly if each source that is reduced to nothing has nothing said above it or
nothing said below it.**
-/
theorem merge_noBlankRun_iff :
    blankRun.occursIn (merge sources s).1 = false ↔
      ∀ front t back, sources = front ++ t :: back → part (merge front s).2.directive.kept t = [] →
        (merge front s).1 = [] ∨ (merge back (merge (front ++ [t]) s).2).1 = [] := by
  rw [occursIn_blankRun_merge]
  constructor
  · rintro h front t back rfl hpart
    rw [merge_eq_nil_iff, merge_eq_nil_iff]
    by_contra hends
    rw [not_or] at hends
    exact h (blankBetween_of_reduced hpart hends.1 hends.2)
  · intro h hblank
    obtain ⟨front, t, back, hsources, hpart, hfront, hback⟩ := exists_reduced_of_blankBetween hblank
    rcases h front t back hsources hpart with hnil | hnil
    · exact hfront ((merge_eq_nil_iff front s).mp hnil)
    · exact hback ((merge_eq_nil_iff back _).mp hnil)

/-- Two sources with one between them that only imports the first. -/
def reducedSources : List Text := ["contract A {}".toList, "import \"./A.sol\";".toList, "contract B {}".toList]

/-- The source between them leaves an empty line. -/
theorem merge_reduced_source :
    (merge reducedSources {}).1 = "contract A {}\n\ncontract B {}".toList ∧
      blankRun.occursIn (merge reducedSources {}).1 = true := by
  decide

end Source

end SolidityKit
