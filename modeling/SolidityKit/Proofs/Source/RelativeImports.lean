/-
No relative import in a merged text.

Relative imports go because the files they name are merged in anyway.  They are taken out of a source before
its comments, its blank runs and the blanks at its ends, and each of those steps can leave an import at the
start of a line that was none before; an import that something follows on its line is not taken out at all; and
the beginning of one may be completed by the source below it.

`Sealed` is the condition on a single source that excludes all of this, and it is exact: a job of sealed
sources ends without a relative import, and a source that is not sealed breaks some job of otherwise sealed
sources (`merge_noRelativeImport`).  Both recognisers are covered, the shapes that are taken out and the one by
which lines are read.
-/
import SolidityKit.Proofs.Source.OpenImports
import SolidityKit.Proofs.Source.Parts

namespace SolidityKit.Source

open Pattern Shape

/-! ### The law and the condition -/

/-- A text without relative imports. -/
structure NoRelativeImport (t : Text) : Prop where
  /-- No import of names from a relative path. -/
  ofNames : relativeImportOfNames.allMatches t = []
  /-- No import of a whole relative path. -/
  whole : relativeImport.allMatches t = []
  /-- No line that imports a relative path. -/
  lines : ∀ line ∈ Text.lines t, ¬ IsRelativeLine line

/-- A source whose lines neither are nor begin a relative import, whatever was kept and seen before. -/
structure Sealed (t : Text) : Prop where
  /-- No line imports a relative path. -/
  lines : ∀ kept i, ∀ line ∈ added kept t i, ¬ IsRelativeLine line
  /-- From no line on does the source lead to a relative import. -/
  starts : ∀ kept i ls, ls <:+ added kept t i → ¬ Leads (Text.joinWith '\n' ls)
  /-- It does not do so either where the blanks in front are trimmed away. -/
  front : ∀ kept i, ¬ Leads (Text.trimLeft (Text.joinWith '\n' (added kept t i)))

/-! ### Matches at the starts of lines -/

/-- A place where a line starts, given by the text before it. -/
def AtLineStart (a : Text) : Prop := a = [] ∨ ∃ a', a = a' ++ ['\n']

theorem atLineStart_iff {a : Text} : AtLineStart a ↔ lastOf none a = none ∨ lastOf none a = some '\n' := by
  rcases List.eq_nil_or_concat' a with rfl | ⟨a', c, rfl⟩
  · simp [AtLineStart]
  · simp [AtLineStart]

/-- Neither shape matches anywhere if no line starts with a relative import, and conversely. -/
theorem no_match_iff {t : Text} :
    relativeImportOfNames.allMatches t = [] ∧ relativeImport.allMatches t = [] ↔
      ∀ a v, t = a ++ v → AtLineStart a → ¬ StartsRelative v := by
  have hne : ∀ {IsNames : Text → Prop} {x : Text}, IsRelativeImport IsNames x → x ≠ [] := by
    rintro IsNames x ⟨u, n, s, w, rfl, -⟩
    exact List.cons_ne_nil _ _
  constructor
  · rintro ⟨hnames, hwhole⟩ a v rfl ha hv
    rcases (startsRelative_iff (atLineStart_iff.mp ha)).mp hv with ⟨m, hm⟩ | ⟨m, hm⟩
    · exact hne (matchAt?_relativeImport hm).2.1 (text_eq_nil_of_no_match hwhole hm)
    · exact hne (matchAt?_relativeImportOfNames hm).2.1 (text_eq_nil_of_no_match hnames hm)
  · intro h
    refine ⟨?_, ?_⟩
    · cases hm : relativeImportOfNames.allMatches t with
      | nil => rfl
      | cons m more =>
          obtain ⟨a, r, rfl, hmatch, -⟩ := exists_first_match hm
          have ha := (matchAt?_relativeImportOfNames hmatch).1
          exact absurd ((startsRelative_iff ha).mpr (Or.inr ⟨m, hmatch⟩)) (h a _ rfl (atLineStart_iff.mpr ha))
    · cases hm : relativeImport.allMatches t with
      | nil => rfl
      | cons m more =>
          obtain ⟨a, r, rfl, hmatch, -⟩ := exists_first_match hm
          have ha := (matchAt?_relativeImport hmatch).1
          exact absurd ((startsRelative_iff ha).mpr (Or.inl ⟨m, hmatch⟩)) (h a _ rfl (atLineStart_iff.mpr ha))

/-- The lines that import a relative path are the same before and after trimming. -/
theorem exists_relativeLine_trim (t : Text) :
    (∃ line ∈ Text.lines (Text.trim t), IsRelativeLine line) ↔ ∃ line ∈ Text.lines t, IsRelativeLine line := by
  have hcontent : ∀ t, (∃ line ∈ Text.lines t, IsRelativeLine line) ↔
      ∃ line ∈ Text.contentLines t, IsRelativeLine line := by
    intro t
    simp only [Text.contentLines, List.mem_map, exists_exists_and_eq_and, isRelativeLine_trim,
      Text.mem_nonBlank]
    constructor
    · rintro ⟨line, hl, hrel⟩
      exact ⟨line, ⟨hl, hrel.notBlank⟩, hrel⟩
    · rintro ⟨line, ⟨hl, -⟩, hrel⟩
      exact ⟨line, hl, hrel⟩
  rw [hcontent, hcontent, Text.contentLines_trim]

/-! ### Where a place in the merged lines comes from -/

section Places

variable {sources : List Text} {d : DirectiveState} {i : ImportState} {line : Text} {ls : List Text}

theorem notMem_added {kept : Bool} {t : Text} (h : line ∈ added kept t i) : '\n' ∉ line :=
  Text.notMem_of_mem_lines ((keepNewImports_sublist _ i).mem h)

theorem mem_mergedLines (h : line ∈ mergedLines sources d i) :
    line = [] ∨ ∃ t ∈ sources, ∃ kept i', line ∈ added kept t i' := by
  induction sources generalizing d i with
  | nil => exact Or.inl (List.mem_singleton.mp h)
  | cons t more ih =>
      rcases List.mem_append.mp h with h | h
      · exact Or.inr ⟨t, by simp, d.kept, i, h⟩
      · rcases ih h with rfl | ⟨t', ht', kept, i', hl⟩
        · exact Or.inl rfl
        · exact Or.inr ⟨t', by simp [ht'], kept, i', hl⟩

theorem lines_joinWith_mergedLines (sources : List Text) (d : DirectiveState) (i : ImportState) :
    Text.lines (Text.joinWith '\n' (mergedLines sources d i)) = mergedLines sources d i := by
  refine Text.lines_joinWith (mergedLines_ne_nil _ _ _) fun line hl => ?_
  rcases mem_mergedLines hl with rfl | ⟨t, -, kept, i', hl⟩
  · simp
  · exact notMem_added hl

/-- The last lines of a merge begin with the last lines of one of its sources. -/
theorem suffix_mergedLines (hls : ls ≠ []) (h : ls <:+ mergedLines sources d i) :
    ls = [[]] ∨ ∃ t ∈ sources, ∃ kept i' ls' rest, ls' <:+ added kept t i' ∧ ls' ≠ [] ∧ rest ≠ [] ∧
      ls = ls' ++ rest := by
  induction sources generalizing d i with
  | nil =>
      rcases List.suffix_cons_iff.mp h with h | h
      · exact Or.inl h
      · exact absurd (List.suffix_nil.mp h) hls
  | cons t more ih =>
      obtain ⟨front, hfront⟩ := h
      rw [mergedLines] at hfront
      rcases List.append_eq_append_iff.mp hfront with ⟨e, he, rfl⟩ | ⟨e, -, he⟩
      · by_cases hne : e = []
        · rcases ih (by rw [hne]; exact List.suffix_rfl) with h | ⟨t', ht', h⟩
          · exact Or.inl h
          · exact Or.inr ⟨t', by simp [ht'], h⟩
        · exact Or.inr ⟨t, by simp, d.kept, i, e, _, ⟨front, he.symm⟩, hne, mergedLines_ne_nil _ _ _, rfl⟩
      · rcases ih ⟨e, he.symm⟩ with h | ⟨t', ht', h⟩
        · exact Or.inl h
        · exact Or.inr ⟨t', by simp [ht'], h⟩

/-- Without the blanks in front, a merge begins with what one of its sources adds. -/
theorem front_mergedLines (h : Text.isBlank (Text.joinWith '\n' (mergedLines sources d i)) = false) :
    ∃ t ∈ sources, ∃ kept i' more, Text.trimLeft (Text.joinWith '\n' (mergedLines sources d i)) =
      Text.trimLeft (Text.joinWith '\n' (added kept t i')) ++ '\n' :: more := by
  induction sources generalizing d i with
  | nil => simp [mergedLines, Text.joinWith] at h
  | cons t more ih =>
      rw [mergedLines] at h ⊢
      have hmore : ∀ {d i}, Text.isBlank (Text.joinWith '\n' (mergedLines more d i)) = false →
          ∃ t' ∈ t :: more, ∃ kept i' rest, Text.trimLeft (Text.joinWith '\n' (mergedLines more d i)) =
            Text.trimLeft (Text.joinWith '\n' (added kept t' i')) ++ '\n' :: rest := by
        intro d i h
        obtain ⟨t', ht', h⟩ := ih h
        exact ⟨t', by simp [ht'], h⟩
      by_cases hne : added d.kept t i = []
      · rw [hne, List.nil_append] at h ⊢
        exact hmore h
      · rw [Text.joinWith_append hne (mergedLines_ne_nil _ _ _)] at h ⊢
        cases hblank : Text.isBlank (Text.joinWith '\n' (added d.kept t i)) with
        | false => exact ⟨t, by simp, d.kept, i, _, Text.trimLeft_append hblank _⟩
        | true =>
            have hbreak : Text.isBlank (Text.joinWith '\n' (added d.kept t i) ++ ['\n']) = true := by
              simp [hblank]
            rw [show ∀ u v : Text, u ++ '\n' :: v = u ++ ['\n'] ++ v by simp] at h ⊢
            rw [Text.trimLeft_append_blank hbreak]
            rw [Text.isBlank_append, hbreak, Bool.true_and] at h
            exact hmore h

end Places

/-! ### Jobs of sealed sources -/

theorem not_blank_of_startsRelative {t : Text} (h : StartsRelative t) :
    ∃ c t', t = c :: t' ∧ isBlank c = false := by
  obtain ⟨r, rfl⟩ := h.opens
  exact ⟨'i', "mport".toList ++ r, rfl, by decide⟩

section Jobs

variable {sources : List Text} {d : DirectiveState} {i : ImportState} {v : Text}

/-- No relative import stands where the blanks in front of a merge are trimmed away. -/
theorem not_startsRelative_front (h : ∀ t ∈ sources, Sealed t) {w : Text} (hw : Text.isBlank w = true)
    (htext : Text.joinWith '\n' (mergedLines sources d i) = w ++ v) : ¬ StartsRelative v := by
  intro hv
  obtain ⟨c, v', rfl, hc⟩ := not_blank_of_startsRelative hv
  have hfront : Text.trimLeft (Text.joinWith '\n' (mergedLines sources d i)) = c :: v' := by
    rw [htext, Text.trimLeft_append_blank hw]
    unfold Text.trimLeft
    rw [List.dropWhile_cons, if_neg (by simp [hc])]
  have hblank : Text.isBlank (Text.joinWith '\n' (mergedLines sources d i)) = false := by
    rw [htext]
    simp [hc]
  obtain ⟨t, ht, kept, i', more, heq⟩ := front_mergedLines hblank
  exact (h t ht).front kept i' ⟨more, by rwa [← heq, hfront]⟩

/-- No relative import starts a line of a merge. -/
theorem not_startsRelative_line (h : ∀ t ∈ sources, Sealed t) {a : Text}
    (htext : Text.joinWith '\n' (mergedLines sources d i) = a ++ '\n' :: v) : ¬ StartsRelative v := by
  intro hv
  have hsuf : Text.lines v <:+ mergedLines sources d i := by
    rw [← lines_joinWith_mergedLines, htext, Text.lines_append]
    exact List.suffix_append _ _
  rcases suffix_mergedLines (Text.lines_ne_nil _) hsuf with hend | ⟨t, ht, kept, i', ls, rest, hls,
    hne, hrest, heq⟩
  · obtain ⟨c, v', rfl, -⟩ := not_blank_of_startsRelative hv
    have hnil := Text.joinWith_lines (c :: v')
    rw [hend] at hnil
    simp [Text.joinWith] at hnil
  · refine (h t ht).starts kept i' ls hls ⟨Text.joinWith '\n' rest, ?_⟩
    rw [← Text.joinWith_append hne hrest, ← heq, Text.joinWith_lines]
    exact hv

theorem not_isRelativeLine_trim (h : ∀ t ∈ sources, Sealed t) :
    ∀ line ∈ Text.lines (Text.trim (Text.joinWith '\n' (mergedLines sources d i))), ¬ IsRelativeLine line := by
  have hnone : ¬ ∃ line ∈ Text.lines (Text.joinWith '\n' (mergedLines sources d i)), IsRelativeLine line := by
    rw [lines_joinWith_mergedLines]
    rintro ⟨line, hl, hrel⟩
    rcases mem_mergedLines hl with rfl | ⟨t, ht, kept, i', hl⟩
    · simpa using hrel.notBlank
    · exact (h t ht).lines kept i' line hl hrel
  rw [← exists_relativeLine_trim] at hnone
  push Not at hnone
  exact hnone

/-- A job of sealed sources ends without a relative import. -/
theorem noRelativeImport_of_sealed (h : ∀ t ∈ sources, Sealed t) (s : MergeState) :
    NoRelativeImport (merge sources s).1 := by
  rw [merge_text_eq]
  have hmatches := no_match_iff
    (t := Text.trim (Text.joinWith '\n' (mergedLines sources s.directive s.imports))).mpr ?_
  · exact ⟨hmatches.1, hmatches.2, not_isRelativeLine_trim h⟩
  · intro a v hsplit ha hv
    obtain ⟨w, w', htext, hw, hw'⟩ :=
      Text.trim_split (Text.joinWith '\n' (mergedLines sources s.directive s.imports))
    rw [hsplit] at htext
    -- the blanks behind the import are part of it, those in front are trimmed away or not
    have hv' := hv.append_blank hw'
    rcases ha with rfl | ⟨a, rfl⟩
    · exact not_startsRelative_front h hw (by rw [htext]; simp) hv'
    · exact not_startsRelative_line h (a := w ++ a) (by rw [htext]; simp) hv'

end Jobs

/-! ### Sources that are sealed -/

/-- If the line begins with the word `import`, then with an import of a path that is not relative. -/
def ImportsPlainly (line : Text) : Prop :=
  "import".toList <+: Text.trim line → ∃ x path, x <+: Text.trim line ∧ IsImport x path ∧ path.head? ≠ some '.'

theorem not_startsRelative_of_import {t x path : Text} (hx : x <+: t) (himport : IsImport x path)
    (hpath : path.head? ≠ some '.') : ¬ StartsRelative t := by
  rintro ⟨x', r, ht, ⟨u', n', s, w, rfl, -, hu', hn', ⟨q', dots, z, rfl, hq', hdots, -⟩, -⟩, -⟩
  obtain ⟨r', rfl⟩ := hx
  obtain ⟨u, n, q, q'', rfl, -, hu, hn, hq, -, hne, -⟩ := himport
  simp only [List.append_assoc, List.append_cancel_left_eq, List.cons_append, List.nil_append] at ht
  obtain ⟨-, -, -, hrest⟩ := importHead_cut hu hu' hn hn' hq hq' ht
  cases path with
  | nil => exact hne rfl
  | cons c path =>
      refine hpath ?_
      rcases hdots with rfl | rfl
      · rw [(List.cons.inj hrest).1]
        rfl
      · rw [(List.cons.inj hrest).1]
        rfl

theorem ImportsPlainly.not_leads {line r : Text} (h : ImportsPlainly line) (hr : Text.AtLineEnd r) :
    ¬ Leads (line ++ r) := by
  intro hleads
  have hword : "import".toList <+: line := Text.prefix_line (by decide) hr hleads.opens
  obtain ⟨hword, htrim⟩ := Text.trim_of_prefix rfl (List.cons_ne_nil _ _) hword
  obtain ⟨x, path, hx, himport, hpath⟩ := h hword
  obtain ⟨more, hstarts⟩ := hleads
  refine not_startsRelative_of_import ((hx.trans htrim).trans ?_) himport hpath hstarts
  exact ⟨r ++ '\n' :: more, by simp⟩

theorem ImportsPlainly.not_relative {line : Text} (h : ImportsPlainly line) : ¬ IsRelativeLine line := by
  rw [← isRelativeLine_trim]
  rintro ⟨target, htarget, hrel⟩
  unfold Text.importTarget? at htarget
  split at htarget
  · next hline =>
    unfold Text.isImportLine at hline
    rw [List.isPrefixOf_iff_prefix, (Text.trimmed_trim line).trim_eq] at hline
    have hword : "import".toList <+: "import ".toList := by decide
    obtain ⟨x, path, hx, himport, hpath⟩ := h (hword.trans hline)
    have hne : x ≠ [] := by
      obtain ⟨u, n, q, q', rfl, -⟩ := himport
      exact List.cons_ne_nil _ _
    have hmatch : importStatement.matchAt? none (Text.trim line) = some ⟨x, some path⟩ :=
      matchAt?_importStatement.mpr ⟨path, himport, rfl, hx⟩
    rw [first?_of_matchAt? hmatch hne] at htarget
    obtain rfl : path = target := Option.some.inj htarget
    simp only [Text.isRelativeTarget, beq_iff_eq] at hrel
    exact hpath hrel
  · simp at htarget

/-- A source is sealed if each of its lines that begins with the word `import` imports a path that is
not relative. -/
theorem sealed_of_lines {t : Text} (h : ∀ kept, ∀ line ∈ Text.lines (part kept t), ImportsPlainly line) :
    Sealed t where
  lines kept i line hl := (h kept line ((keepNewImports_sublist _ i).mem hl)).not_relative
  starts kept i ls hls hleads := by
    cases ls with
    | nil => exact absurd hleads.opens (by decide)
    | cons line ls =>
        obtain ⟨r, hjoin, hr⟩ := Text.joinWith_cons_atLineEnd line ls
        have hline : line ∈ added kept t i := hls.mem (by simp)
        rw [hjoin] at hleads
        exact (h kept line ((keepNewImports_sublist _ i).mem hline)).not_leads hr hleads
  front kept i hleads := by
    cases hblank : Text.isBlank (Text.joinWith '\n' (added kept t i)) with
    | true =>
        rw [Text.isBlank_iff, ← List.dropWhile_eq_nil_iff] at hblank
        unfold Text.trimLeft at hleads
        rw [hblank] at hleads
        exact absurd hleads.opens (by decide)
    | false =>
        obtain ⟨line, hline, r, hjoin, hr⟩ := Text.trimLeft_joinWith hblank
        have hplain : ImportsPlainly (Text.trimLeft line) := by
          unfold ImportsPlainly
          rw [Text.trim_trimLeft]
          exact h kept line ((keepNewImports_sublist _ i).mem hline)
        rw [hjoin] at hleads
        exact hplain.not_leads hr hleads

/-! ### Sources that are not sealed

A source is tested by the texts that complete whatever leads to an import: each of them is put
below it as a source.
-/

/-- A source of one line that could end an import but does not begin one. -/
structure IsEnding (s : Text) : Prop where
  /-- It is one line. -/
  oneLine : '\n' ∉ s
  /-- It is not empty, and neither end is blank. -/
  ends : ∃ c, s.getLast? = some c ∧ isBlank c = false
  /-- Nothing is trimmed away in front. -/
  trimmed : Text.trimLeft s = s
  /-- It does not begin an import. -/
  noImport : ¬ "import".toList <+: s
  /-- It is its own part, whatever was kept before. -/
  part_eq : ∀ kept, part kept s = s
  /-- It imports nothing. -/
  noTarget : Text.importTarget? s = none

theorem isEnding_probe : ∀ p ∈ [targetProbe, namesProbe, fromProbe], IsEnding p := by
  have htarget : IsEnding targetProbe :=
    ⟨by decide, ⟨';', by decide, by decide⟩, by decide, by decide, fun kept => by cases kept <;> rfl,
      rfl⟩
  have hnames : IsEnding namesProbe :=
    ⟨by decide, ⟨';', by decide, by decide⟩, by decide, by decide, fun kept => by cases kept <;> rfl,
      rfl⟩
  have hfrom : IsEnding fromProbe :=
    ⟨by decide, ⟨';', by decide, by decide⟩, by decide, by decide, fun kept => by cases kept <;> rfl,
      rfl⟩
  intro p hp
  simp only [List.mem_cons, List.not_mem_nil, or_false] at hp
  rcases hp with rfl | rfl | rfl
  · exact htarget
  · exact hnames
  · exact hfrom

section Endings

variable {p t : Text} {kept : Bool} {i : ImportState}

theorem IsEnding.added_eq (h : IsEnding p) (kept : Bool) (i : ImportState) : added kept p i = [p] := by
  have hlines : ∀ line ∈ [p], Text.isExternalImport line = false := by
    intro line hl
    rw [List.mem_singleton.mp hl]
    simp [Text.isExternalImport, h.noTarget]
  rw [added, h.part_eq, Text.lines_of_notMem h.oneLine, keepNewImports_of_no_import hlines]

theorem IsEnding.sealed (h : IsEnding p) : Sealed p where
  lines kept i line hl := by
    rw [h.added_eq, List.mem_singleton] at hl
    rintro ⟨target, htarget, -⟩
    rw [hl, h.noTarget] at htarget
    simp at htarget
  starts kept i ls hls hleads := by
    rw [h.added_eq] at hls
    rcases List.suffix_cons_iff.mp hls with rfl | hls
    · exact h.noImport hleads.opens
    · rw [List.suffix_nil.mp hls] at hleads
      exact absurd hleads.opens (by decide)
  front kept i hleads := by
    rw [h.added_eq] at hleads
    refine h.noImport ?_
    rw [← h.trimmed]
    exact hleads.opens

/-- The state before a source, given by what it depends on. -/
def stateOf (kept : Bool) (i : ImportState) : MergeState := { directive := { kept }, imports := i }

theorem merge_with_ending (h : IsEnding p) (kept : Bool) (t : Text) (i : ImportState) :
    ∃ u, Text.isBlank u = true ∧
      Text.joinWith '\n' (added kept t i ++ [p]) = u ++ (merge [t, p] (stateOf kept i)).1 ∧
      Text.trimLeft (merge [t, p] (stateOf kept i)).1 = (merge [t, p] (stateOf kept i)).1 := by
  obtain ⟨c, hlast, hc⟩ := h.ends
  obtain ⟨u, hu, htext⟩ := Text.trim_joinWith_break hlast hc (added kept t i)
  refine ⟨u, hu, ?_, ?_⟩
  · rw [merge_text_eq, mergedLines, mergedLines, h.added_eq, htext]
    rfl
  · rw [merge_text_eq]
    exact (Text.trimmed_trim _).trimLeft_eq

theorem lines_of_keeps (h : NoRelativeImport (merge [t] (stateOf kept i)).1) :
    ∀ line ∈ added kept t i, ¬ IsRelativeLine line := by
  intro line hl hrel
  have hsome : ∃ line ∈ Text.lines (Text.joinWith '\n' (mergedLines [t] (stateOf kept i).directive i)),
      IsRelativeLine line := by
    rw [lines_joinWith_mergedLines]
    exact ⟨line, List.mem_append_left _ hl, hrel⟩
  rw [← exists_relativeLine_trim] at hsome
  obtain ⟨line', hl', hrel'⟩ := hsome
  refine h.lines line' ?_ hrel'
  rw [merge_text_eq]
  exact hl'

/-- Lines that lead to an import are completed by a source below them. -/
theorem IsEnding.not_startsRelative (h : IsEnding p)
    (hkeeps : NoRelativeImport (merge [t, p] (stateOf kept i)).1)
    {ls : List Text} (hls : ls <:+ added kept t i) (hne : ls ≠ []) :
    ¬ StartsRelative (Text.joinWith '\n' ls ++ '\n' :: p) := by
  intro hstarts
  obtain ⟨u, hu, htext, -⟩ := merge_with_ending h kept t i
  generalize (merge [t, p] (stateOf kept i)).1 = merged at htext hkeeps
  obtain ⟨c, r, hc, hcb⟩ := not_blank_of_startsRelative hstarts
  obtain ⟨front, hfront⟩ := hls
  -- the text before the lines, with its line feed
  obtain ⟨before, hbefore, hcut⟩ : ∃ before, AtLineStart before ∧
      Text.joinWith '\n' (added kept t i ++ [p]) = before ++ (Text.joinWith '\n' ls ++ '\n' :: p) := by
    have hjoin : Text.joinWith '\n' (ls ++ [p]) = Text.joinWith '\n' ls ++ '\n' :: p :=
      Text.joinWith_append hne (List.cons_ne_nil _ _)
    rw [← hfront, List.append_assoc, ← hjoin]
    by_cases hf : front = []
    · exact ⟨[], Or.inl rfl, by rw [hf]; rfl⟩
    · refine ⟨Text.joinWith '\n' front ++ ['\n'], Or.inr ⟨_, rfl⟩, ?_⟩
      rw [Text.joinWith_append hf (by simp)]
      simp
  rw [hcut] at htext
  have hnone := no_match_iff.mp ⟨hkeeps.ofNames, hkeeps.whole⟩
  rcases List.append_eq_append_iff.mp htext with ⟨e, rfl, he⟩ | ⟨e, rfl, he⟩
  · cases e with
    | nil => exact hnone [] _ he.symm (Or.inl rfl) hstarts
    | cons x e =>
        rw [hc] at he
        obtain rfl : c = x := (List.cons.inj he).1
        rw [Text.isBlank_iff.mp hu c (by simp)] at hcb
        simp at hcb
  · refine hnone e _ he ?_ hstarts
    rcases hbefore with hnil | ⟨a, ha⟩
    · exact Or.inl (List.append_eq_nil_iff.mp hnil).2
    · rcases List.eq_nil_or_concat' e with rfl | ⟨e', x, rfl⟩
      · exact Or.inl rfl
      · rw [← List.append_assoc] at ha
        cases (List.append_inj' ha rfl).2
        exact Or.inr ⟨e', rfl⟩

/-- So is a beginning to which the blanks in front give way. -/
theorem IsEnding.not_startsRelative_front (h : IsEnding p)
    (hkeeps : NoRelativeImport (merge [t, p] (stateOf kept i)).1) :
    ¬ StartsRelative (Text.trimLeft (Text.joinWith '\n' (added kept t i)) ++ '\n' :: p) := by
  intro hstarts
  obtain ⟨u, hu, htext, htrim⟩ := merge_with_ending h kept t i
  generalize (merge [t, p] (stateOf kept i)).1 = merged at htext htrim hkeeps
  have hnone := no_match_iff.mp ⟨hkeeps.ofNames, hkeeps.whole⟩
  have hblank : Text.isBlank (Text.joinWith '\n' (added kept t i)) = false := by
    rw [Bool.eq_false_iff]
    intro hb
    rw [Text.isBlank_iff, ← List.dropWhile_eq_nil_iff] at hb
    unfold Text.trimLeft at hstarts
    rw [hb] at hstarts
    obtain ⟨c, r, hc, hcb⟩ := not_blank_of_startsRelative hstarts
    obtain rfl : '\n' = c := (List.cons.inj hc).1
    simp at hcb
  have hne : added kept t i ≠ [] := by
    intro hnil
    rw [hnil] at hblank
    simp [Text.joinWith] at hblank
  refine hnone [] merged rfl (Or.inl rfl) ?_
  rw [← htrim, ← Text.trimLeft_append_blank hu, ← htext, Text.joinWith_append hne (List.cons_ne_nil _ _),
    Text.trimLeft_append hblank]
  exact hstarts

end Endings

/-- A source that breaks no job of sealed sources is sealed. -/
theorem sealed_of_noRelativeImport {t : Text}
    (h : ∀ after s, (∀ u ∈ after, Sealed u) → NoRelativeImport (merge (t :: after) s).1) : Sealed t where
  lines kept i := lines_of_keeps (h [] (stateOf kept i) (by simp))
  starts kept i ls hls hleads := by
    have hne : ls ≠ [] := by
      rintro rfl
      exact absurd hleads.opens (by decide)
    obtain ⟨p, hp, hstarts⟩ := hleads.exists_probe
    have hending := isEnding_probe p hp
    exact hending.not_startsRelative (h [p] (stateOf kept i) (by simp [hending.sealed])) hls hne hstarts
  front kept i hleads := by
    obtain ⟨p, hp, hstarts⟩ := hleads.exists_probe
    have hending := isEnding_probe p hp
    exact hending.not_startsRelative_front (h [p] (stateOf kept i) (by simp [hending.sealed])) hstarts

/-! ### The law -/

/--
**A job of sealed sources ends without a relative import, and no other condition on single sources would do**: a
source that is not sealed can be put above sealed ones so that the merged text holds one.
-/
theorem merge_noRelativeImport (sources : List Text) (s : MergeState) (t : Text) :
    ((∀ u ∈ sources, Sealed u) → NoRelativeImport (merge sources s).1) ∧
      (¬ Sealed t → ∃ after s, (∀ u ∈ after, Sealed u) ∧ ¬ NoRelativeImport (merge (t :: after) s).1) := by
  refine ⟨fun h => noRelativeImport_of_sealed h s, fun ht => ?_⟩
  by_contra hno
  push Not at hno
  exact ht (sealed_of_noRelativeImport hno)

/-- The law holds for a source whose relative import is taken out and one with an import of a library. -/
theorem merge_two_sealed :
    NoRelativeImport (merge ["import \"./A.sol\";\ncontract B {}".toList,
      "import \"c\";\ncontract C {}".toList] {}).1 := by
  refine (merge_noRelativeImport _ _ []).1 ?_
  have hcode : ∀ {line : Text}, ¬ "import".toList <+: Text.trim line → ImportsPlainly line :=
    fun hline hword => absurd hword hline
  have hfirst : Sealed "import \"./A.sol\";\ncontract B {}".toList := by
    refine sealed_of_lines fun kept line hl => hcode ?_
    revert line
    cases kept <;> decide
  have hsecond : Sealed "import \"c\";\ncontract C {}".toList := by
    refine sealed_of_lines fun kept line hl => ?_
    have hlines : Text.lines (part kept "import \"c\";\ncontract C {}".toList) =
        ["import \"c\";".toList, "contract C {}".toList] := by
      cases kept <;> rfl
    rw [hlines] at hl
    rcases List.mem_cons.mp hl with rfl | hl
    · intro _
      exact ⟨"import \"c\";".toList, ['c'], by decide,
        ⟨[' '], [], '"', '"', rfl, by decide, by decide, Or.inl rfl, Or.inl rfl, Or.inl rfl, by decide, by
          simp [IsQuote]⟩, by decide⟩
    · obtain rfl := List.mem_singleton.mp hl
      exact hcode (by decide)
  intro t ht
  rcases List.mem_cons.mp ht with rfl | ht
  · exact hfirst
  · obtain rfl := List.mem_singleton.mp ht
    exact hsecond

/-- An indented import is not taken out, and trimming moves it to the start of its line. -/
theorem merge_indented_import :
    ¬ NoRelativeImport (merge ["  import \"./A.sol\";\ncontract B {}".toList] {}).1 := by
  intro h
  have hcount := congrArg List.length h.whole
  revert hcount
  decide

end SolidityKit.Source
