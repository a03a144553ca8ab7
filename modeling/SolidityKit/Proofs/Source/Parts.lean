/-
A merge, taken apart.

What one source adds to the merged text depends on the state only through whether a version directive has been
kept: `part` is that text, and `mergeParts` puts the parts one below the other, each closed by a line feed.
The imports are compared on the lines of all parts together, so the lines of the merged text are those of
the parts, in order, less the repeated imports.

`keepNewImports` is a left-to-right walk with a growing list of keys; the facts below say what it keeps when
the lines come in two halves and when more keys were seen before.
-/
import SolidityKit.Source.Merge
import SolidityKit.Proofs.Pattern.Pieces

namespace SolidityKit.Source

open Pattern

/-! ### Normalising, step by step -/

/-- A source when its directives are counted: without licence lines, relative imports,
boilerplate and markers. -/
def stripped (t : Text) : Text :=
  let t := (removeAll Shape.licenseLine (Text.unifyLineEnds t)).1
  let t := (removeAll Shape.relativeImport (removeAll Shape.relativeImportOfNames t).1).1
  (removeAll Shape.fileMarker (removeBoilerplate t).1).1

theorem normalize_text (t : Text) :
    (normalize t).text =
      Text.trim (collapseBlankRuns (keepFirst false (Shape.versionDirective.pieces (stripped t)))) := by
  simp only [normalize, stripped, keepFirstDirective]

theorem removeBoilerplate_of_no_match {t : Text} (h : Shape.blockComment.allMatches t = []) :
    (removeBoilerplate t).1 = t := replaceAll_of_no_match h _

/-! ### The part of one source -/

/-- What a source adds to the merged text, when a directive was kept before or not. -/
def part (kept : Bool) (t : Text) : Text :=
  Text.trim (collapseBlankRuns (keepFirst kept (Shape.versionDirective.pieces (normalize t).text)))

/-- The first version directive that normalising leaves in a source. -/
def directive? (t : Text) : Option Text := (Shape.versionDirective.first? (normalize t).text).map Match.text

theorem mergePart_text (t : Text) (s : MergeState) : (mergePart t s).1 = part s.directive.kept t := by
  simp only [mergePart, reduceDirectives, part]

theorem mergePart_imports (t : Text) (s : MergeState) : (mergePart t s).2.imports = s.imports := by
  simp only [mergePart]

/-- The directives after a source: it counts only if it is the first to have one. -/
def nextDirective (s : DirectiveState) (t : Text) : DirectiveState :=
  match s.kept, directive? t with
  | false, some d => { kept := true, directive := some d }
  | _, _ => s

theorem mergePart_directive (t : Text) (s : MergeState) :
    (mergePart t s).2.directive = nextDirective s.directive t := by
  simp only [mergePart, reduceDirectives, nextDirective, directive?, first?, allMatches]
  cases s.directive.kept <;>
    cases ((Shape.versionDirective.pieces (normalize t).text).filterMap Piece.match?).head? <;> rfl

theorem nextDirective_kept {s : DirectiveState} (h : s.kept = true) (t : Text) : nextDirective s t = s := by
  simp only [nextDirective, h]

theorem nextDirective_none {t : Text} (h : directive? t = none) (s : DirectiveState) :
    nextDirective s t = s := by
  unfold nextDirective
  rw [h]
  split <;> simp_all

theorem nextDirective_some {s : DirectiveState} (hs : s.kept = false) {t d : Text} (h : directive? t = some d) :
    nextDirective s t = { kept := true, directive := some d } := by
  simp only [nextDirective, hs, h]

/-- Without a directive a source adds the same, whether one was kept before or not. -/
theorem part_of_directive?_none {t : Text} (h : directive? t = none) (kept : Bool) :
    part kept t = part true t := by
  have hplain : ∀ (ps : List Piece), ps.filterMap Piece.match? = [] →
    keepFirst kept ps = keepFirst true ps := by
    intro ps
    induction ps with
    | nil => exact fun _ => rfl
    | cons piece ps ih =>
        intro hps
        cases piece with
        | plain c => exact congrArg (c :: ·) (ih hps)
        | hit m => simp [Piece.match?] at hps
  have hnone : (Shape.versionDirective.pieces (normalize t).text).filterMap Piece.match? = [] := by
    simpa [directive?, first?, allMatches] using h
  unfold part
  rw [hplain _ hnone]

/-! ### All parts -/

/-- The parts of a list of sources. -/
def parts : List Text → MergeState → List Text
  | [], _ => []
  | t :: more, s => (mergePart t s).1 :: parts more (mergePart t s).2

theorem mergeParts_cons (t : Text) (more : List Text) (s : MergeState) :
    mergeParts (t :: more) s =
      ((mergePart t s).1 ++ '\n' :: (mergeParts more (mergePart t s).2).1,
        (mergeParts more (mergePart t s).2).2) := by
  simp only [mergeParts]

theorem mergeParts_imports (sources : List Text) (s : MergeState) :
    (mergeParts sources s).2.imports = s.imports := by
  induction sources generalizing s with
  | nil => rfl
  | cons t more ih => rw [mergeParts_cons, ih, mergePart_imports]

/-- The lines that are merged are the lines of all parts, and an empty one at the end. -/
theorem lines_mergeParts (sources : List Text) (s : MergeState) :
    Text.lines (mergeParts sources s).1 = (parts sources s).flatMap Text.lines ++ [[]] := by
  induction sources generalizing s with
  | nil => rfl
  | cons t more ih =>
      rw [mergeParts_cons, parts, List.flatMap_cons, Text.lines_append, ih, List.append_assoc]

/-- The merged text: the lines of all parts without the repeated imports, trimmed. -/
theorem merge_text (sources : List Text) (s : MergeState) :
    (merge sources s).1 =
      Text.trim (Text.joinWith '\n' (keepNewImports (Text.lines (mergeParts sources s).1) s.imports).1) := by
  rw [← mergeParts_imports sources s]
  simp only [merge, dedupeImports]

theorem merge_directive (sources : List Text) (s : MergeState) :
    (merge sources s).2.directive = (mergeParts sources s).2.directive := by
  simp only [merge]

theorem merge_imports (sources : List Text) (s : MergeState) :
    (merge sources s).2.imports = (keepNewImports (Text.lines (mergeParts sources s).1) s.imports).2 := by
  rw [← mergeParts_imports sources s]
  simp only [merge, dedupeImports]

/-! ### Comparing imports -/

theorem keepNewImports_other {line : Text} (h : Text.isExternalImport line = false) (more : List Text)
    (s : ImportState) :
    keepNewImports (line :: more) s = (line :: (keepNewImports more s).1, (keepNewImports more s).2) := by
  rw [keepNewImports, if_neg (by simp [h])]

theorem keepNewImports_seen {line : Text} (h : Text.isExternalImport line = true) (more : List Text)
    {s : ImportState} (hs : Text.trim line ∈ s.seen) :
    keepNewImports (line :: more) s = keepNewImports more { s with dropped := s.dropped + 1 } := by
  rw [keepNewImports, if_pos h, if_pos (by simpa using hs)]

theorem keepNewImports_new {line : Text} (h : Text.isExternalImport line = true) (more : List Text)
    {s : ImportState} (hs : Text.trim line ∉ s.seen) :
    keepNewImports (line :: more) s =
      (line :: (keepNewImports more { s with seen := Text.trim line :: s.seen }).1,
        (keepNewImports more { s with seen := Text.trim line :: s.seen }).2) := by
  rw [keepNewImports, if_pos h, if_neg (by simpa using hs)]

/-- A walk over imports takes one step for each line: another line, a seen import, or a new one. -/
theorem keepNewImports_induction {motive : List Text → ImportState → List Text × ImportState → Prop}
    (nil : ∀ s, motive [] s ([], s))
    (other : ∀ line more s, Text.isExternalImport line = false → motive more s (keepNewImports more s) →
      motive (line :: more) s (line :: (keepNewImports more s).1, (keepNewImports more s).2))
    (seen : ∀ line more s, Text.isExternalImport line = true → Text.trim line ∈ s.seen →
      motive more { s with dropped := s.dropped + 1 }
        (keepNewImports more { s with dropped := s.dropped + 1 }) →
      motive (line :: more) s (keepNewImports more { s with dropped := s.dropped + 1 }))
    (new : ∀ line more s, Text.isExternalImport line = true → Text.trim line ∉ s.seen →
      motive more { s with seen := Text.trim line :: s.seen }
        (keepNewImports more { s with seen := Text.trim line :: s.seen }) →
      motive (line :: more) s (line :: (keepNewImports more { s with seen := Text.trim line :: s.seen }).1,
        (keepNewImports more { s with seen := Text.trim line :: s.seen }).2))
    (ls : List Text) (s : ImportState) : motive ls s (keepNewImports ls s) := by
  induction ls generalizing s with
  | nil => exact nil s
  | cons line more ih =>
      cases he : Text.isExternalImport line with
      | false =>
          rw [keepNewImports_other he]
          exact other line more s he (ih s)
      | true =>
          by_cases hs : Text.trim line ∈ s.seen
          · rw [keepNewImports_seen he more hs]
            exact seen line more s he hs (ih _)
          · rw [keepNewImports_new he more hs]
            exact new line more s he hs (ih _)

theorem keepNewImports_append (ls ms : List Text) (s : ImportState) :
    keepNewImports (ls ++ ms) s =
      ((keepNewImports ls s).1 ++ (keepNewImports ms (keepNewImports ls s).2).1,
        (keepNewImports ms (keepNewImports ls s).2).2) := by
  induction ls generalizing s with
  | nil => rfl
  | cons line ls ih =>
      cases he : Text.isExternalImport line with
      | false => rw [List.cons_append, keepNewImports_other he, keepNewImports_other he, ih, List.cons_append]
      | true =>
          by_cases hs : Text.trim line ∈ s.seen
          · rw [List.cons_append, keepNewImports_seen he _ hs, keepNewImports_seen he _ hs, ih]
          · rw [List.cons_append, keepNewImports_new he _ hs, keepNewImports_new he _ hs, ih, List.cons_append]

/-- Lines among which is no external import all stay. -/
theorem keepNewImports_of_no_import {ls : List Text} (h : ∀ line ∈ ls, Text.isExternalImport line = false)
    (s : ImportState) : keepNewImports ls s = (ls, s) := by
  induction ls with
  | nil => rfl
  | cons line ls ih =>
      rw [keepNewImports_other (h line (by simp)), ih fun line hl => h line (by simp [hl])]

theorem keepNewImports_sublist (ls : List Text) (s : ImportState) : (keepNewImports ls s).1.Sublist ls := by
  refine keepNewImports_induction (motive := fun ls _ out => out.1.Sublist ls) ?_ ?_ ?_ ?_ ls s
  · exact fun _ => .slnil
  · exact fun line _ _ _ ih => ih.cons_cons line
  · exact fun line _ _ _ _ ih => ih.cons line
  · exact fun line _ _ _ _ ih => ih.cons_cons line

/-- The keys after a walk: those from before, and the trimmed external imports of the lines. -/
theorem mem_seen_keepNewImports (ls : List Text) (s : ImportState) (key : Text) :
    key ∈ (keepNewImports ls s).2.seen ↔
      key ∈ s.seen ∨ ∃ line ∈ ls, Text.isExternalImport line = true ∧ Text.trim line = key := by
  refine keepNewImports_induction (motive := fun ls s out => key ∈ out.2.seen ↔
    key ∈ s.seen ∨ ∃ line ∈ ls, Text.isExternalImport line = true ∧ Text.trim line = key) ?_ ?_ ?_ ?_ ls s
  · intro s
    simp
  · intro line more s he ih
    simp [ih, he]
  · intro line more s he hs ih
    rw [ih]
    simp only [List.mem_cons, exists_eq_or_imp, he, true_and]
    constructor
    · rintro (h | h)
      · exact Or.inl h
      · exact Or.inr (Or.inr h)
    · rintro (h | rfl | h)
      · exact Or.inl h
      · exact Or.inl hs
      · exact Or.inr h
  · intro line more s he _ ih
    rw [ih]
    simp only [List.mem_cons, exists_eq_or_imp, he, true_and]
    constructor
    · rintro ((rfl | h) | h)
      · exact Or.inr (Or.inl rfl)
      · exact Or.inl h
      · exact Or.inr (Or.inr h)
    · rintro (h | rfl | h)
      · exact Or.inl (Or.inr h)
      · exact Or.inl (Or.inl rfl)
      · exact Or.inr h

theorem nodup_seen_keepNewImports (ls : List Text) (s : ImportState) (h : s.seen.Nodup) :
    (keepNewImports ls s).2.seen.Nodup := by
  revert h
  refine keepNewImports_induction (motive := fun _ s out => s.seen.Nodup → out.2.seen.Nodup) ?_ ?_ ?_ ?_ ls s
  · exact fun _ h => h
  · exact fun _ _ _ _ ih => ih
  · exact fun _ _ _ _ _ ih => ih
  · exact fun _ _ _ _ hnew ih h => ih (List.nodup_cons.mpr ⟨hnew, h⟩)

/-- Each external import is either a new key or a dropped line. -/
theorem dropped_keepNewImports (ls : List Text) (s : ImportState) :
    (keepNewImports ls s).2.dropped + (keepNewImports ls s).2.seen.length =
      s.dropped + s.seen.length + ls.countP Text.isExternalImport := by
  refine keepNewImports_induction (motive := fun ls s out => out.2.dropped + out.2.seen.length =
    s.dropped + s.seen.length + ls.countP Text.isExternalImport) ?_ ?_ ?_ ?_ ls s
  · intro s
    simp
  · intro line more s he ih
    rw [List.countP_cons_of_neg (by simp [he])]
    exact ih
  · intro line more s he _ ih
    rw [List.countP_cons_of_pos he, ih]
    simp only
    omega
  · intro line more s he _ ih
    rw [List.countP_cons_of_pos he, ih]
    simp only [List.length_cons]
    omega

/-! ### The merged lines

The lines of a merge, source by source.  What a source adds depends on the state in two ways only: whether a
directive was kept before, and which imports were seen before.
-/

/-- The lines that a source adds to a merge. -/
def added (kept : Bool) (t : Text) (s : ImportState) : List Text :=
  (keepNewImports (Text.lines (part kept t)) s).1

/-- The lines of a merge; the empty one at the end is that of the last line feed. -/
def mergedLines : List Text → DirectiveState → ImportState → List Text
  | [], _, _ => [[]]
  | t :: more, d, s =>
    added d.kept t s ++ mergedLines more (nextDirective d t) (keepNewImports (Text.lines (part d.kept t)) s).2

theorem keepNewImports_mergeParts (sources : List Text) (s : MergeState) (i : ImportState) :
    (keepNewImports (Text.lines (mergeParts sources s).1) i).1 = mergedLines sources s.directive i := by
  induction sources generalizing s i with
  | nil => exact congrArg Prod.fst (keepNewImports_other (by decide : Text.isExternalImport [] = false) [] i)
  | cons t more ih =>
      rw [mergeParts_cons, Text.lines_append, keepNewImports_append, ih, mergePart_text, mergePart_directive]
      rfl

/-- **The merged text is the trimmed text of the lines that the sources add.** -/
theorem merge_text_eq (sources : List Text) (s : MergeState) :
    (merge sources s).1 = Text.trim (Text.joinWith '\n' (mergedLines sources s.directive s.imports)) := by
  rw [merge_text, keepNewImports_mergeParts]

theorem merge_directive_eq (sources : List Text) (s : MergeState) :
    (merge sources s).2.directive = sources.foldl nextDirective s.directive := by
  rw [merge_directive]
  induction sources generalizing s with
  | nil => rfl
  | cons t more ih => rw [mergeParts_cons, ih, mergePart_directive, List.foldl_cons]

theorem mergedLines_ne_nil (sources : List Text) (d : DirectiveState) (s : ImportState) :
    mergedLines sources d s ≠ [] := by
  induction sources generalizing d s with
  | nil => exact List.cons_ne_nil _ _
  | cons t more ih => exact List.append_ne_nil_of_right_ne_nil _ (ih _ _)

end SolidityKit.Source
