/-
Merging in batches.

A job may be merged in one call, or in several calls that share a state.  The calls cut the sources at other
places than the rules look at them: directives are looked for in one source at a time, imports on the lines of
all sources of a call, and each call trims its own text.  None of this shows, because the rules only look
back.  What is kept of a source depends on the state that the sources above it have left, whichever call they
were in (`parts_append`, `addedLines_append`), and between two texts stand line feeds and blanks alone, which
are no content (`contentLines_merge`).

So a merge may be cut anywhere (`merge_batches_compose`), and any number of batches amounts to one merge
(`mergeBatches_flatten`).
-/
import SolidityKit.Proofs.Source.SharedImports

namespace SolidityKit

theorem MergeState.eq_of_fields {s s' : MergeState} (hdirective : s.directive = s'.directive)
    (himports : s.imports = s'.imports) (hremoved : s.removed = s'.removed) : s = s' := by
  cases s
  cases s'
  simp_all

namespace Source

variable (as bs sources : List Text) (s : MergeState)

/-! ### The state after a merge, field by field -/

theorem mergeParts_removed :
    (mergeParts sources s).2.removed = sources.foldl (fun r t => r + (normalize t).removed) s.removed := by
  induction sources generalizing s with
  | nil => rfl
  | cons t more ih =>
      have hpart : (mergePart t s).2.removed = s.removed + (normalize t).removed := by simp only [mergePart]
      rw [mergeParts_cons, ih, hpart, List.foldl_cons]

/-- What was removed is added up source by source. -/
theorem merge_removed_eq :
    (merge sources s).2.removed = sources.foldl (fun r t => r + (normalize t).removed) s.removed := by
  rw [← mergeParts_removed]
  simp only [merge]

/-- The empty line at the end of the buffer says nothing about imports. -/
theorem keepNewImports_closed (ls : List Text) (i : ImportState) :
    keepNewImports (ls ++ [[]]) i = ((keepNewImports ls i).1 ++ [[]], (keepNewImports ls i).2) := by
  have hempty : ∀ line ∈ [([] : Text)], Text.isExternalImport line = false := by decide
  rw [keepNewImports_append, keepNewImports_of_no_import hempty]

theorem merge_imports_eq :
    (merge sources s).2.imports = (keepNewImports ((parts sources s).flatMap Text.lines) s.imports).2 := by
  rw [merge_imports, lines_mergeParts, keepNewImports_closed]

theorem merge_directive_append :
    (merge (as ++ bs) s).2.directive = (merge bs (merge as s).2).2.directive := by
  rw [merge_directive_eq, merge_directive_eq, merge_directive_eq, List.foldl_append]

/-! ### What a batch adds -/

/-- The parts of sources depend on the state through its directive alone. -/
theorem parts_congr {s s' : MergeState} (h : s.directive = s'.directive) :
    parts sources s = parts sources s' := by
  induction sources generalizing s s' with
  | nil => rfl
  | cons t more ih =>
      have hnext : (mergePart t s).2.directive = (mergePart t s').2.directive := by
        rw [mergePart_directive, mergePart_directive, h]
      rw [parts, parts, mergePart_text, mergePart_text, h, ih hnext]

/-- The parts of a second batch are those in the state that the first one has left. -/
theorem parts_append : parts (as ++ bs) s = parts as s ++ parts bs (merge as s).2 := by
  induction as generalizing s with
  | nil => exact parts_congr bs (merge_directive_eq [] s).symm
  | cons t more ih =>
      have hnext : (merge more (mergePart t s).2).2.directive = (merge (t :: more) s).2.directive := by
        rw [merge_directive_eq, merge_directive_eq, mergePart_directive, List.foldl_cons]
      rw [List.cons_append, parts, parts, ih, parts_congr bs hnext, List.cons_append]

/-- The lines that sources add to a merge. -/
def addedLines : List Text := (keepNewImports ((parts sources s).flatMap Text.lines) s.imports).1

/-- The comparison of imports goes on where the first batch has left it. -/
theorem keepNewImports_parts_append :
    keepNewImports ((parts (as ++ bs) s).flatMap Text.lines) s.imports =
      (addedLines as s ++ addedLines bs (merge as s).2, (merge bs (merge as s).2).2.imports) := by
  rw [parts_append, List.flatMap_append, keepNewImports_append, ← merge_imports_eq as s, merge_imports_eq bs]
  rfl

theorem addedLines_append : addedLines (as ++ bs) s = addedLines as s ++ addedLines bs (merge as s).2 :=
  congrArg Prod.fst (keepNewImports_parts_append as bs s)

/-- A single source adds the lines of its part that bring no import again. -/
theorem addedLines_singleton (t : Text) : addedLines [t] s = added s.directive.kept t s.imports := by
  rw [addedLines, parts, parts, mergePart_text, List.flatMap_cons, List.flatMap_nil, List.append_nil]
  rfl

/-- They are lines indeed, and so is the empty one behind them. -/
theorem notMem_closedLines : ∀ line ∈ addedLines sources s ++ [[]], '\n' ∉ line := by
  intro line hl
  rcases List.mem_append.mp hl with hl | hl
  · obtain ⟨part, -, hline⟩ := List.mem_flatMap.mp ((keepNewImports_sublist _ _).mem hl)
    exact Text.notMem_of_mem_lines hline
  · rw [List.mem_singleton.mp hl]
    simp

/-- **The text of a merge is that of the lines that its sources add, trimmed.** -/
theorem merge_text_addedLines :
    (merge sources s).1 = Text.trim (Text.joinWith '\n' (addedLines sources s ++ [[]])) := by
  rw [merge_text, lines_mergeParts, keepNewImports_closed]
  rfl

/-- What a merge says is what the lines say that its sources add. -/
theorem contentLines_merge :
    Text.contentLines (merge sources s).1 = (Text.nonBlank (addedLines sources s)).map Text.trim := by
  rw [merge_text_addedLines, Text.contentLines_trim, Text.contentLines,
    Text.nonBlank_lines_joinWith (notMem_closedLines sources s), Text.nonBlank_closed]

/-! ### One merge or several -/

/-- The state after two batches is the state after one merge of both. -/
theorem merge_state_append : (merge (as ++ bs) s).2 = (merge bs (merge as s).2).2 := by
  refine MergeState.eq_of_fields (merge_directive_append as bs s) ?_ ?_
  · rw [merge_imports_eq, keepNewImports_parts_append]
  · rw [merge_removed_eq, merge_removed_eq, merge_removed_eq, List.foldl_append]

/-- The second batch adds what it says to what the first one says. -/
theorem contentLines_merge_append :
    Text.contentLines (merge (as ++ bs) s).1 =
      Text.contentLines (merge as s).1 ++ Text.contentLines (merge bs (merge as s).2).1 := by
  rw [contentLines_merge, contentLines_merge, contentLines_merge, addedLines_append, Text.nonBlank_append,
    List.map_append]

/-- **Merging in two batches that share a state is merging at once**, whatever state they start from. -/
theorem merge_batches_compose :
    (merge (as ++ bs) s).2 = (merge bs (merge as s).2).2 ∧
      Text.contentLines (merge (as ++ bs) s).1 =
        Text.contentLines (merge as s).1 ++ Text.contentLines (merge bs (merge as s).2).1 :=
  ⟨merge_state_append as bs s, contentLines_merge_append as bs s⟩

/-- A merge of nothing leaves the state as it is. -/
theorem merge_nil : merge [] s = ([], s) := by
  have hempty : keepNewImports (Text.lines []) s.imports = ([[]], s.imports) :=
    keepNewImports_closed [] s.imports
  simp only [merge, mergeParts, dedupeImports, hempty]
  rfl

/-- Any number of batches amounts to one merge of all their sources. -/
theorem mergeBatches_flatten (batches : List (List Text)) :
    (mergeBatches batches s).2 = (merge batches.flatten s).2 ∧
      (mergeBatches batches s).1.flatMap Text.contentLines = Text.contentLines (merge batches.flatten s).1 := by
  induction batches generalizing s with
  | nil =>
      rw [List.flatten_nil, merge_nil]
      exact ⟨rfl, rfl⟩
  | cons batch more ih =>
      obtain ⟨hstate, htext⟩ := ih (merge batch s).2
      rw [mergeBatches_cons, List.flatten_cons, merge_state_append, contentLines_merge_append,
        List.flatMap_cons]
      exact ⟨hstate, by rw [htext]⟩

end Source

end SolidityKit
