/-
Imports across the batches of one job.

A job may be merged in batches that share a state.  The state and the texts then say the same about external
imports: the keys seen, in the order of time, are the trimmed external import lines of all texts one after the
other (`importKeys_merge`, and over all batches `mergeBatches_keys`).  A key is seen once, so no such line is
repeated in any of the texts, and each line of the buffers that brings no new key is counted as dropped.

Two steps stand between the lines that are kept and the lines of a text: the lines are joined, and the text is
trimmed.  Neither matters, because whether a line is an external import does not depend on the blanks around it
(`importKeys_trim`).
-/
import SolidityKit.Proofs.Source.RelativeImports
import SolidityKit.Proofs.Source.SparedLines
import Mathlib.Data.List.Nodup

namespace SolidityKit.Source

open Shape

/-! ### The keys of a text -/

/-- The trimmed external imports among some lines, in order. -/
def importKeys (ls : List Text) : List Text := (ls.filter Text.isExternalImport).map Text.trim

theorem importKeys_append (ls ms : List Text) : importKeys (ls ++ ms) = importKeys ls ++ importKeys ms := by
  simp [importKeys]

theorem importKeys_other {line : Text} (h : Text.isExternalImport line = false) (ls : List Text) :
    importKeys (line :: ls) = importKeys ls := by simp [importKeys, h]

theorem importKeys_external {line : Text} (h : Text.isExternalImport line = true) (ls : List Text) :
    importKeys (line :: ls) = Text.trim line :: importKeys ls := by simp [importKeys, h]

/-- Blank lines are no external imports, and blanks around a line do not matter. -/
theorem lineTest_isExternalImport : LineTest Text.isExternalImport where
  blank _ := isExternalImport_of_isBlank
  trim := isExternalImport_trim

/-- The keys of a text are the external imports among its trimmed lines that are not blank. -/
theorem importKeys_lines (t : Text) :
    importKeys (Text.lines t) = (Text.contentLines t).filter Text.isExternalImport :=
  lineTest_isExternalImport.linesWith_eq t

/-- Trimming a text leaves its keys. -/
theorem importKeys_trim (t : Text) : importKeys (Text.lines (Text.trim t)) = importKeys (Text.lines t) := by
  rw [importKeys_lines, importKeys_lines, Text.contentLines_trim]

/-! ### One batch -/

/-- The new keys after a walk are those of the lines it kept. -/
theorem seen_keepNewImports (ls : List Text) (s : ImportState) :
    (keepNewImports ls s).2.seen = (importKeys (keepNewImports ls s).1).reverse ++ s.seen := by
  refine keepNewImports_induction
    (motive := fun _ s out => out.2.seen = (importKeys out.1).reverse ++ s.seen) ?_ ?_ ?_ ?_ ls s
  · intro s
    rfl
  · intro line more s he ih
    rw [importKeys_other he]
    exact ih
  · intro line more s _ _ ih
    exact ih
  · intro line more s he _ ih
    rw [importKeys_external he, List.reverse_cons, List.append_assoc]
    exact ih

/-- **The keys of a merged text are the keys that the merge has added to the state.** -/
theorem importKeys_merge (sources : List Text) (s : MergeState) :
    (merge sources s).2.imports.seen = (importKeys (Text.lines (merge sources s).1)).reverse ++
      s.imports.seen := by
  rw [merge_imports, seen_keepNewImports, keepNewImports_mergeParts, merge_text_eq, importKeys_trim,
    lines_joinWith_mergedLines]

/-! ### All batches -/

/-- Merges batches of sources one after the other, each in the state that the one before it left. -/
def mergeBatches : List (List Text) → MergeState → List Text × MergeState
  | [], s => ([], s)
  | sources :: more, s =>
    let (t, s) := merge sources s
    let (ts, s) := mergeBatches more s
    (t :: ts, s)

/-- The texts of the batches before their imports are compared. -/
def buffers : List (List Text) → MergeState → List Text
  | [], _ => []
  | sources :: more, s => (mergeParts sources s).1 :: buffers more (merge sources s).2

variable (batches : List (List Text)) (s : MergeState)

theorem mergeBatches_cons (sources : List Text) :
    mergeBatches (sources :: batches) s =
      ((merge sources s).1 :: (mergeBatches batches (merge sources s).2).1,
        (mergeBatches batches (merge sources s).2).2) := by
  simp only [mergeBatches]

/-- Over all batches, the keys of the texts are the keys that were added to the state. -/
theorem mergeBatches_keys :
    (mergeBatches batches s).2.imports.seen =
      (importKeys ((mergeBatches batches s).1.flatMap Text.lines)).reverse ++ s.imports.seen := by
  induction batches generalizing s with
  | nil => rfl
  | cons sources more ih =>
      rw [mergeBatches_cons, List.flatMap_cons, importKeys_append, List.reverse_append, List.append_assoc, ih,
        importKeys_merge]

theorem mergeBatches_nodup (h : s.imports.seen.Nodup) : (mergeBatches batches s).2.imports.seen.Nodup := by
  induction batches generalizing s with
  | nil => exact h
  | cons sources more ih =>
      rw [mergeBatches_cons]
      refine ih _ ?_
      rw [merge_imports]
      exact nodup_seen_keepNewImports _ _ h

/-- Each external import in the buffers is a new key or counted as dropped. -/
theorem mergeBatches_dropped :
    (mergeBatches batches s).2.imports.dropped + (mergeBatches batches s).2.imports.seen.length =
      s.imports.dropped + s.imports.seen.length +
        ((buffers batches s).flatMap Text.lines).countP Text.isExternalImport := by
  induction batches generalizing s with
  | nil => rfl
  | cons sources more ih =>
      have hbatch := dropped_keepNewImports (Text.lines (mergeParts sources s).1) s.imports
      rw [← merge_imports] at hbatch
      rw [mergeBatches_cons, ih, buffers, List.flatMap_cons, List.countP_append, hbatch]
      omega

/-- What the texts of a job, the buffers they came from and the state at the end say about external imports. -/
structure ImportsOnce (texts buffers : List Text) (s : ImportState) : Prop where
  /-- No two external import lines of the texts have the same trimmed text. -/
  distinct : (importKeys (texts.flatMap Text.lines)).Nodup
  /-- The keys seen are the trimmed external import lines of the texts. -/
  seen : ∀ key, key ∈ s.seen ↔ key ∈ importKeys (texts.flatMap Text.lines)
  /-- Each key is listed once. -/
  seenOnce : s.seen.Nodup
  /-- The external import lines of the buffers are the dropped ones and one for each key. -/
  dropped : s.dropped + s.seen.length = (buffers.flatMap Text.lines).countP Text.isExternalImport

/-- **No external import is repeated across the batches of a job that starts afresh.** -/
theorem mergeBatches_imports (batches : List (List Text)) :
    ImportsOnce (mergeBatches batches {}).1 (buffers batches {}) (mergeBatches batches {}).2.imports := by
  have hkeys : (mergeBatches batches {}).2.imports.seen =
      (importKeys ((mergeBatches batches {}).1.flatMap Text.lines)).reverse := by
    have h := mergeBatches_keys batches {}
    rwa [List.append_nil] at h
  have hseen := mergeBatches_nodup batches {} List.nodup_nil
  refine ⟨?_, ?_, hseen, ?_⟩
  · rwa [← List.nodup_reverse, ← hkeys]
  · intro key
    rw [hkeys, List.mem_reverse]
  · have h := mergeBatches_dropped batches {}
    simpa using h

end SolidityKit.Source
