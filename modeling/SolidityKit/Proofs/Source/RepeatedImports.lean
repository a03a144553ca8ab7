/-
Which lines the comparison of imports drops.

`keepNewImports` goes through the lines with a list of keys that grows as it goes.  Seen from outside there is
no such list: whether a line goes is decided by the line itself, by the keys from before, and by the lines
above it, those that went included (`Repeats`).  `keepNewImports_eq` says that the walk keeps just the lines
that repeat no import, and counts the others.

The induction takes lines off at the end, because it is the keys after all lines above that decide on a line;
they are the keys from before and those of the lines above, whichever of these were kept
(`mem_seen_iff_importKeys`).

Lines that were kept have all their keys once, so that another walk over them keeps them all.
-/
import SolidityKit.Proofs.Source.SharedImports

namespace SolidityKit.Source

variable {seen ls : List Text} {line : Text} {k : Nat}

/-! ### Lines that repeat an import -/

/--
Line `k` is an external import whose trimmed text was seen before, or is the trimmed text of
an external import above it.
-/
def Repeats (seen ls : List Text) (k : Nat) : Prop :=
  ∃ line ∈ ls[k]?, Text.isExternalImport line = true ∧
    (Text.trim line ∈ seen ∨ Text.trim line ∈ importKeys (ls.take k))

instance (seen ls : List Text) : DecidablePred (Repeats seen ls) := fun k =>
  inferInstanceAs (Decidable (∃ line ∈ ls[k]?, Text.isExternalImport line = true ∧
    (Text.trim line ∈ seen ∨ Text.trim line ∈ importKeys (ls.take k))))

/-- The lines that repeat no import, in order. -/
def newLines (seen ls : List Text) : List Text :=
  (ls.zipIdx.filter fun numbered => ¬ Repeats seen ls numbered.2).map Prod.fst

/-- How many lines repeat an import. -/
def repeatCount (seen ls : List Text) : Nat := (List.range ls.length).countP fun k => Repeats seen ls k

theorem mem_importKeys {key : Text} :
    key ∈ importKeys ls ↔ ∃ line ∈ ls, Text.isExternalImport line = true ∧ Text.trim line = key := by
  simp [importKeys, and_assoc]

/-- A line below does not matter. -/
theorem repeats_concat (hk : k < ls.length) : Repeats seen (ls ++ [line]) k ↔ Repeats seen ls k := by
  unfold Repeats
  rw [List.getElem?_append_left hk, List.take_append_of_le_length hk.le]

theorem repeats_last :
    Repeats seen (ls ++ [line]) ls.length ↔
      Text.isExternalImport line = true ∧ (Text.trim line ∈ seen ∨ Text.trim line ∈ importKeys ls) := by
  simp [Repeats]

theorem newLines_concat :
    newLines seen (ls ++ [line]) =
      newLines seen ls ++ if Repeats seen (ls ++ [line]) ls.length then [] else [line] := by
  have hfront : ls.zipIdx.filter (fun numbered => ¬ Repeats seen (ls ++ [line]) numbered.2) =
      ls.zipIdx.filter fun numbered => ¬ Repeats seen ls numbered.2 := by
    refine List.filter_congr fun numbered hmem => ?_
    have hk : numbered.2 < ls.length := by simpa using List.snd_lt_of_mem_zipIdx hmem
    simp only [repeats_concat hk]
  rw [newLines, newLines, List.zipIdx_append, List.filter_append, hfront, List.map_append]
  by_cases h : Repeats seen (ls ++ [line]) ls.length <;> simp [h]

theorem repeatCount_concat :
    repeatCount seen (ls ++ [line]) =
      repeatCount seen ls + if Repeats seen (ls ++ [line]) ls.length then 1 else 0 := by
  have hfront : (List.range ls.length).countP (fun k => Repeats seen (ls ++ [line]) k) =
    repeatCount seen ls := by
    refine List.countP_congr fun k hk => ?_
    simp only [repeats_concat (List.mem_range.mp hk)]
  rw [repeatCount, List.length_append, List.length_singleton, List.range_succ, List.countP_append, hfront,
    List.countP_singleton]
  simp

/-! ### The walk keeps the others -/

/-- The keys after a walk are those from before and those of the lines. -/
theorem mem_seen_iff_importKeys (ls : List Text) (s : ImportState) (key : Text) :
    key ∈ (keepNewImports ls s).2.seen ↔ key ∈ s.seen ∨ key ∈ importKeys ls := by
  rw [mem_seen_keepNewImports, mem_importKeys]

/-- The walk drops a line, and counts it, exactly if it is an external import with a key that is
there already. -/
theorem keepNewImports_singleton (line : Text) (s : ImportState) :
    (keepNewImports [line] s).1 =
        (if Text.isExternalImport line = true ∧ Text.trim line ∈ s.seen then [] else [line]) ∧
      (keepNewImports [line] s).2.dropped =
        s.dropped + if Text.isExternalImport line = true ∧ Text.trim line ∈ s.seen then 1 else 0 := by
  cases he : Text.isExternalImport line with
  | false => simp [keepNewImports, he]
  | true => by_cases hs : Text.trim line ∈ s.seen <;> simp [keepNewImports, he, hs]

/-- **The walk keeps the lines that repeat no import and counts the others.** -/
theorem keepNewImports_eq (ls : List Text) (s : ImportState) :
    (keepNewImports ls s).1 = newLines s.seen ls ∧
      (keepNewImports ls s).2.dropped = s.dropped + repeatCount s.seen ls := by
  induction ls using List.reverseRecOn with
  | nil => exact ⟨rfl, rfl⟩
  | append_singleton ls line ih =>
      obtain ⟨hkept, hdropped⟩ := ih
      obtain ⟨hlast, hcount⟩ := keepNewImports_singleton line (keepNewImports ls s).2
      simp only [mem_seen_iff_importKeys, ← repeats_last] at hlast hcount
      rw [keepNewImports_append, newLines_concat, repeatCount_concat]
      refine ⟨?_, ?_⟩
      · rw [hkept, hlast]
      · rw [hcount, hdropped, Nat.add_assoc]

/-! ### Going through the lines again -/

/-- Where all keys are different, no line repeats an import. -/
theorem not_repeats_of_nodup (h : (importKeys ls).Nodup) (k : Nat) : ¬ Repeats [] ls k := by
  rintro ⟨line, hline, he, hkey⟩
  obtain ⟨hk, rfl⟩ := List.getElem?_eq_some_iff.mp hline
  have hcut : importKeys ls = importKeys (ls.take k) ++ Text.trim ls[k] :: importKeys (ls.drop (k + 1)) := by
    rw [← importKeys_external he, ← importKeys_append, ← List.drop_eq_getElem_cons, List.take_append_drop]
  rw [hcut] at h
  rcases hkey with hkey | hkey
  · cases hkey
  · exact List.disjoint_of_nodup_append h hkey List.mem_cons_self

theorem newLines_of_nodup (h : (importKeys ls).Nodup) : newLines [] ls = ls := by
  have hall : ls.zipIdx.filter (fun numbered => ¬ Repeats [] ls numbered.2) = ls.zipIdx :=
    List.filter_eq_self.mpr fun numbered _ => by simpa using not_repeats_of_nodup h numbered.2
  rw [newLines, hall, List.zipIdx_map_fst]

/-- The lines that a walk keeps have different keys. -/
theorem nodup_importKeys_newLines (ls : List Text) : (importKeys (newLines [] ls)).Nodup := by
  have hseen := nodup_seen_keepNewImports ls {} List.nodup_nil
  rwa [seen_keepNewImports, (keepNewImports_eq ls {}).1, List.append_nil, List.nodup_reverse] at hseen

theorem dedupeImports_text (t : Text) (s : ImportState) :
    (dedupeImports t s).1 = Text.joinWith '\n' (newLines s.seen (Text.lines t)) := by
  rw [← (keepNewImports_eq (Text.lines t) s).1]
  simp only [dedupeImports]

theorem dedupeImports_state (t : Text) (s : ImportState) :
    (dedupeImports t s).2 = (keepNewImports (Text.lines t) s).2 := by
  simp only [dedupeImports]

/-- Without repeated imports a text stays as it is. -/
theorem dedupeImports_again (t : Text) :
    (dedupeImports (dedupeImports t {}).1 {}).1 = (dedupeImports t {}).1 := by
  rw [dedupeImports_text, dedupeImports_text]
  have hbreaks : ∀ line ∈ newLines [] (Text.lines t), '\n' ∉ line := by
    intro line hl
    rw [← (keepNewImports_eq (Text.lines t) {}).1] at hl
    exact Text.notMem_of_mem_lines ((keepNewImports_sublist _ _).mem hl)
  by_cases hne : newLines [] (Text.lines t) = []
  · -- no line at all reads as one empty line, which stays
    rw [hne]
    rfl
  · rw [Text.lines_joinWith hne hbreaks, newLines_of_nodup (nodup_importKeys_newLines _)]

/-! ### A whole text -/

/-- What comparing the imports of a text makes of the text and of the imports seen before. -/
structure Deduped (t : Text) (s : ImportState) (after : Text × ImportState) : Prop where
  /-- The text has the lines that repeat no import, unchanged and in order. -/
  text : after.1 = Text.joinWith '\n' (newLines s.seen (Text.lines t))
  /-- The imports seen are those from before and the trimmed external import lines of the text,
  dropped or not. -/
  seen : ∀ key, key ∈ after.2.seen ↔ key ∈ s.seen ∨ key ∈ importKeys (Text.lines t)
  /-- All other lines are counted as dropped. -/
  dropped : after.2.dropped = s.dropped + repeatCount s.seen (Text.lines t)

/-- **Comparing imports drops the lines that repeat one, and a second time it drops none.** -/
theorem dedupe_exact (t : Text) (s : ImportState) :
    Deduped t s (dedupeImports t s) ∧ (dedupeImports (dedupeImports t {}).1 {}).1 = (dedupeImports t {}).1 := by
  refine ⟨⟨dedupeImports_text t s, fun key => ?_, ?_⟩, dedupeImports_again t⟩
  · rw [dedupeImports_state, mem_seen_iff_importKeys]
  · rw [dedupeImports_state, (keepNewImports_eq (Text.lines t) s).2]

end SolidityKit.Source
