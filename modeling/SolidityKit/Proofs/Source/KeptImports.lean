/-
Live imports of a merged text.

A merge may drop an external import line, but only if an equal line stands above it, and then the imports of
the dropped line are those of the one that stayed.  That argument looks at lines one by one, and so it holds
for texts in which the lines of external imports stand on their own: neither an import statement nor a block
comment runs into such a line or out of it (`Framed`).  Of framed parts the merged text has all live imports
and no others (`mem_liveImports_merge`).

What is left is the part of a single source.  Rules that touch no line of an external import leave these
lines alone, so a source whose live imports stand on such lines keeps them (`keepsOwnImports_of_spares`).
Of all rules it is those for relative imports that touch them: such an import has to end where its line
ends, so it runs on from the relative path to the last quote and semicolon of the line, and takes what
stands in between along.
-/
import SolidityKit.Proofs.Source.LiveImports
import SolidityKit.Proofs.Source.SharedImports
import SolidityKit.Proofs.Source.SingleDirective
import Mathlib.Data.List.Infix

namespace SolidityKit.Source

open Pattern Shape

/-! ### Texts that are shut -/

section Shut

variable {u v : Text}

/-- Nothing that begins in the text matters behind it, whatever stands there. -/
structure Shut (u : Text) : Prop where
  /-- No import statement and no block comment reaches out of the text. -/
  cuts : ∀ v, CutsAt u v
  /-- No slashes of the text stand on a line that goes on behind it. -/
  slashes : ∀ v start, behindSlashes (u ++ v) (u.length + start) = behindSlashes v start

/-- What stands behind a text that is shut has the live imports it has on its own. -/
theorem Shut.liveImports_append (h : Shut u) (v : Text) :
    liveImports (u ++ v) = liveImports u ++ liveImports v :=
  Source.liveImports_append (h.cuts v) fun statement _ => h.slashes v statement.1

theorem shut_nil : Shut [] := by
  refine ⟨fun v => cutsAt_blank_left rfl v, fun v start => ?_⟩
  rw [List.nil_append, List.length_nil, Nat.zero_add]

/-- Where no match reaches out of either text, none reaches out of the two. -/
theorem noneCrosses_append {p : Pattern} (hu : ∀ v, NoneCrosses p u v) (hv : ∀ w, NoneCrosses p v w)
    (w : Text) :
    NoneCrosses p (u ++ v) w := by
  intro s hs hsuf b
  rcases List.suffix_or_suffix_of_suffix hsuf (List.suffix_append u v) with h | ⟨s', rfl⟩
  · exact hv w s hs h b
  · by_cases hs' : s' = []
    · subst hs'
      exact hv w v hs List.suffix_rfl b
    · have hsuf' : s' <:+ u := by
        obtain ⟨a, ha⟩ := hsuf
        exact ⟨a, List.append_cancel_right (by rw [List.append_assoc, ha])⟩
      rw [List.append_assoc, hu (v ++ w) s' hs' hsuf', hu v s' hs' hsuf']

theorem Shut.append (hu : Shut u) (hv : Shut v) : Shut (u ++ v) := by
  refine ⟨fun w => ⟨noneCrosses_append (fun v => (hu.cuts v).imports) (fun w => (hv.cuts w).imports) w,
    noneCrosses_append (fun v => (hu.cuts v).comments) (fun w => (hv.cuts w).comments) w⟩, fun w start => ?_⟩
  rw [List.append_assoc, List.length_append, Nat.add_assoc, hu.slashes, hv.slashes]

/-- Whether a pattern that begins with a word has a match wherever the word stands in the text. -/
def matchesWord (p : Pattern) (w : Text) (t : Text) : Bool :=
  t.tails.all fun s => !w.isPrefixOf s || (p.matchAt? none s).isSome

/-- A test for texts that are shut: all imports and block comments that begin are complete, and the
last line ends. -/
def isShut (u : Text) : Bool :=
  matchesWord importStatement "import".toList u && matchesWord blockComment "/*".toList u &&
    u.getLast? == some '\n'

theorem noneCrosses_of_matchesWord {p : Pattern} {w : Text} (hp : OpensWith p w) (hw : '\n' ∉ w)
    (hbefore : ∀ b b' t, p.matchAt? b t = p.matchAt? b' t)
    (hmore : ∀ b t r m, p.matchAt? b t = some m → p.matchAt? b (t ++ r) = some m)
    (h : matchesWord p w (u ++ ['\n']) = true) (v : Text) : NoneCrosses p (u ++ ['\n']) v := by
  intro s hs hsuf b
  cases hm : p.matchAt? b s with
  | some m => exact hmore b s v m hm
  | none =>
      rw [Option.eq_none_iff_forall_ne_some]
      intro m hm'
      obtain rfl | ⟨s', rfl, -⟩ := List.suffix_concat_iff.mp hsuf
      · exact hs rfl
      -- the word stands on the first line, so it stands before the cut
      have hword : w <+: s' ++ '\n' :: v := by
        obtain ⟨d, -, ht, -⟩ := matchAt?_eq_some hm'
        rw [List.append_assoc, List.singleton_append] at ht
        rw [ht]
        exact (hp b _ m hm').trans (List.prefix_append _ _)
      have hline : w <+: s' ++ ['\n'] :=
        (Text.prefix_line hw (Or.inr ⟨v, rfl⟩) hword).trans (List.prefix_append _ _)
      have htest := List.all_eq_true.mp h (s' ++ ['\n']) ((List.mem_tails _ _).mpr hsuf)
      rw [List.isPrefixOf_iff_prefix.mpr hline, hbefore none b, hm] at htest
      exact absurd htest (by decide)

theorem shut_of_isShut (h : isShut u = true) : Shut u := by
  rw [isShut, Bool.and_eq_true, Bool.and_eq_true, beq_iff_eq] at h
  obtain ⟨⟨himports, hcomments⟩, hlast⟩ := h
  obtain ⟨u, rfl⟩ := List.getLast?_eq_some_iff.mp hlast
  refine ⟨fun v => ⟨?_, ?_⟩, behindSlashes_break u⟩
  · refine noneCrosses_of_matchesWord opensWith_importStatement (by decide) importStatement_before ?_ himports v
    intro b t r m hm
    obtain ⟨path, himport, hcap, hpre⟩ := matchAt?_importStatement.mp hm
    exact matchAt?_importStatement.mpr ⟨path, himport, hcap, hpre.trans (List.prefix_append t r)⟩
  · refine noneCrosses_of_matchesWord opensWith_blockComment (by decide) blockComment_before ?_ hcomments v
    intro b t r m hm
    obtain ⟨hblock, hcap, hpre⟩ := matchAt?_blockComment.mp hm
    exact matchAt?_blockComment.mpr ⟨hblock, hcap, hpre.trans (List.prefix_append t r)⟩

end Shut

/-! ### Lines of imports that stand on their own -/

/-- The text of some lines, with a line feed behind each. -/
def closed (ls : List Text) : Text := ls.flatMap (· ++ ['\n'])

/-- Neither an import statement nor a comment runs into the line of an external import or out of it. -/
inductive Framed : List Text → Prop
  /-- No lines. -/
  | nil : Framed []
  /-- Other lines than those of external imports. -/
  | others {block rest : List Text} : (∀ line ∈ block, Text.isExternalImport line = false) →
      Shut (closed block) → Framed rest → Framed (block ++ rest)
  /-- The line of an external import. -/
  | external {line : Text} {rest : List Text} : Text.isExternalImport line = true → Shut (closed [line]) →
      Framed rest → Framed (line :: rest)

section Framed

variable {ls ms : List Text} {line x : Text}

theorem closed_append (ls ms : List Text) : closed (ls ++ ms) = closed ls ++ closed ms := List.flatMap_append

theorem closed_cons (line : Text) (ls : List Text) : closed (line :: ls) = closed [line] ++ closed ls :=
  closed_append [line] ls

theorem closed_eq (h : ls ≠ []) : closed ls = Text.joinWith '\n' ls ++ ['\n'] := by
  induction ls with
  | nil => exact absurd rfl h
  | cons line ls ih =>
      cases ls with
      | nil => simp [closed, Text.joinWith]
      | cons line' ls =>
          rw [closed_cons, ih (List.cons_ne_nil _ _)]
          simp [closed, Text.joinWith]

/-- A last line feed does not matter. -/
theorem liveImports_break (t : Text) : liveImports (t ++ ['\n']) = liveImports t :=
  liveImports_append_blank t rfl

theorem liveImports_closed_single (line : Text) : liveImports (closed [line]) = liveImports line := by
  rw [closed_eq (List.cons_ne_nil _ _), liveImports_break]
  rfl

theorem Framed.shut (h : Framed ls) : Shut (closed ls) := by
  induction h with
  | nil => exact shut_nil
  | others _ hshut _ ih =>
      rw [closed_append]
      exact hshut.append ih
  | external _ hshut _ ih =>
      rw [closed_cons]
      exact hshut.append ih

theorem Framed.append (hls : Framed ls) (hms : Framed ms) : Framed (ls ++ ms) := by
  induction hls with
  | nil => exact hms
  | others hblock hshut _ ih =>
      rw [List.append_assoc]
      exact .others hblock hshut ih
  | external hline hshut _ ih => exact .external hline hshut ih

/-- Lines each of which is shut are framed. -/
theorem framed_of_lines (h : ∀ line ∈ ls, isShut (closed [line]) = true) : Framed ls := by
  induction ls with
  | nil => exact .nil
  | cons line ls ih =>
      have hline := shut_of_isShut (h line List.mem_cons_self)
      have hrest := ih fun l hl => h l (List.mem_cons_of_mem _ hl)
      cases he : Text.isExternalImport line with
      | true => exact .external he hline hrest
      | false => exact @Framed.others [line] ls (by simp [he]) hline hrest

/-- The lines of external imports have the live imports that they have on their own. -/
theorem Framed.mem_of_line (h : Framed ls) (hline : line ∈ ls) (he : Text.isExternalImport line = true)
    (hx : x ∈ liveImports line) : x ∈ liveImports (closed ls) := by
  induction h with
  | nil => simp at hline
  | others hblock hshut _ ih =>
      rw [closed_append, hshut.liveImports_append, List.mem_append]
      rcases List.mem_append.mp hline with hline | hline
      · rw [hblock line hline] at he
        exact absurd he (by decide)
      · exact Or.inr (ih hline)
  | external _ hshut _ ih =>
      rw [closed_cons, hshut.liveImports_append, List.mem_append, liveImports_closed_single]
      rcases List.mem_cons.mp hline with rfl | hline
      · exact Or.inl hx
      · exact Or.inr (ih hline)

/-- The import is one of those that the keys hold. -/
def SeenIn (x : Text) (s : ImportState) : Prop := ∃ key ∈ s.seen, x ∈ liveImports key

theorem seenIn_cons {key : Text} {s : ImportState} :
    SeenIn x { s with seen := key :: s.seen } ↔ x ∈ liveImports key ∨ SeenIn x s := by
  simp [SeenIn]

/--
**Dropping repeated imports loses none.**  A line is dropped if its key was seen, so its imports are among
those of the keys; a line that stays adds its own to them.
-/
theorem Framed.mem_liveImports_keepNewImports (h : Framed ls) (s : ImportState) :
    x ∈ liveImports (closed (keepNewImports ls s).1) ∨ SeenIn x s ↔ x ∈ liveImports (closed ls) ∨
    SeenIn x s := by
  induction h generalizing s with
  | nil => rfl
  | others hblock hshut _ ih =>
      rw [keepNewImports_append, keepNewImports_of_no_import hblock, closed_append, closed_append,
        hshut.liveImports_append, hshut.liveImports_append, List.mem_append, List.mem_append,
        or_assoc, or_assoc]
      exact or_congr_right (ih s)
  | @external line rest he hshut _ ih =>
      have hkey : liveImports (closed [line]) = liveImports (Text.trim line) := by
        rw [liveImports_closed_single, liveImports_trim]
      by_cases hs : Text.trim line ∈ s.seen
      · have hseen : x ∈ liveImports (closed [line]) → SeenIn x s := fun hx => ⟨_, hs, hkey ▸ hx⟩
        have hrest : _ ∨ SeenIn x s ↔ _ ∨ SeenIn x s := ih { s with dropped := s.dropped + 1 }
        rw [keepNewImports_seen he _ hs, closed_cons line rest, hshut.liveImports_append,
          List.mem_append, hrest, or_assoc]
        exact (or_iff_right_of_imp fun hx => Or.inr (hseen hx)).symm
      · have hrest := ih { s with seen := Text.trim line :: s.seen }
        rw [seenIn_cons, ← hkey] at hrest
        rw [keepNewImports_new he _ hs, closed_cons line rest, closed_cons line, hshut.liveImports_append,
          hshut.liveImports_append, List.mem_append, List.mem_append]
        exact (or_assoc.trans or_left_comm).trans (hrest.trans (or_assoc.trans or_left_comm).symm)

end Framed

/-! ### A source on its own -/

/-- The lines of external imports stand on their own in the part of a source. -/
def FramedSource (t : Text) : Prop := ∀ kept, Framed (Text.lines (part kept t))

/-- The live imports of a source are in its part, whether a directive was kept before or not. -/
def KeepsOwnImports (t : Text) : Prop := ∀ kept, ∀ x ∈ liveImports t, x ∈ liveImports (part kept t)

/-- Each live import of the text stands on the line of an external import, and is live there. -/
def ImportsOnLines (t : Text) : Prop :=
  ∀ x ∈ liveImports t, ∃ line ∈ Text.lines (Text.unifyLineEnds t),
    Text.isExternalImport line = true ∧ x ∈ liveImports line

theorem liveImports_closed_lines (t : Text) : liveImports (closed (Text.lines t)) = liveImports t := by
  rw [closed_eq (Text.lines_ne_nil t), Text.joinWith_lines, liveImports_break]

/-- **A source keeps its imports if no hit of a rule touches their lines.** -/
theorem keepsOwnImports_of_spares {t : Text} (hframed : FramedSource t)
    (h : SparesThroughout Text.isExternalImport t) (hlines : ImportsOnLines t) : KeepsOwnImports t := by
  intro kept x hx
  obtain ⟨line, hline, he, hx⟩ := hlines x hx
  have hspared : Text.trim line ∈ linesWith Text.isExternalImport (part kept t) :=
    (lineTest_isExternalImport.linesWith_part h kept).subset
      (List.mem_map_of_mem (List.mem_filter.mpr ⟨hline, he⟩))
  obtain ⟨line', hline', hsame⟩ := List.mem_map.mp hspared
  obtain ⟨hmem, he'⟩ := List.mem_filter.mp hline'
  rw [← liveImports_trim, ← hsame, liveImports_trim] at hx
  rw [← liveImports_closed_lines]
  exact (hframed kept).mem_of_line hmem he' hx

/-! ### Sources together -/

/-- Every live import of the sources is in the merged text, unless a key seen before holds it. -/
def KeepsImports (sources : List Text) (s : MergeState) : Prop :=
  ∀ t ∈ sources, ∀ x ∈ liveImports t, x ∈ liveImports (merge sources s).1 ∨ SeenIn x s.imports

section Together

variable {sources : List Text} {t p x : Text}

theorem exists_mem_parts (ht : t ∈ sources) (s : MergeState) : ∃ kept, part kept t ∈ parts sources s := by
  induction sources generalizing s with
  | nil => simp at ht
  | cons t' more ih =>
      rw [parts, mergePart_text]
      rcases List.mem_cons.mp ht with rfl | ht
      · exact ⟨_, List.mem_cons_self⟩
      · obtain ⟨kept, hkept⟩ := ih ht (mergePart t' s).2
        exact ⟨kept, List.mem_cons_of_mem _ hkept⟩

theorem exists_of_mem_parts {s : MergeState} (hp : p ∈ parts sources s) :
    ∃ t ∈ sources, ∃ kept, p = part kept t := by
  induction sources generalizing s with
  | nil => simp [parts] at hp
  | cons t' more ih =>
      rw [parts, mergePart_text] at hp
      rcases List.mem_cons.mp hp with hp | hp
      · exact ⟨t', List.mem_cons_self, _, hp⟩
      · obtain ⟨t, ht, hkept⟩ := ih hp
        exact ⟨t, List.mem_cons_of_mem _ ht, hkept⟩

theorem framed_break : Framed [[]] := framed_of_lines (by decide)

/-- The lines of framed parts are framed, and have the live imports of the parts. -/
theorem framed_parts {ps : List Text} (h : ∀ p ∈ ps, Framed (Text.lines p)) :
    Framed (ps.flatMap Text.lines ++ [[]]) ∧
      (x ∈ liveImports (closed (ps.flatMap Text.lines ++ [[]])) ↔ ∃ p ∈ ps, x ∈ liveImports p) := by
  induction ps with
  | nil =>
      have hnone : liveImports (closed [[]]) = [] := liveImports_of_isBlank rfl
      exact ⟨framed_break, by simp [hnone]⟩
  | cons p ps ih =>
      obtain ⟨hframed, hmem⟩ := ih fun q hq => h q (List.mem_cons_of_mem _ hq)
      have hp := h p List.mem_cons_self
      rw [List.flatMap_cons, List.append_assoc, closed_append, hp.shut.liveImports_append, List.mem_append,
        liveImports_closed_lines, hmem]
      exact ⟨hp.append hframed, by simp⟩

/-- **Of framed parts, the merged text has all live imports and no others.** -/
theorem mem_liveImports_merge (h : ∀ t ∈ sources, FramedSource t) (s : MergeState) :
    x ∈ liveImports (merge sources s).1 ∨ SeenIn x s.imports ↔
      (∃ p ∈ parts sources s, x ∈ liveImports p) ∨ SeenIn x s.imports := by
  have hframed : ∀ p ∈ parts sources s, Framed (Text.lines p) := by
    intro p hp
    obtain ⟨t, ht, kept, hpart⟩ := exists_of_mem_parts hp
    rw [hpart]
    exact h t ht kept
  obtain ⟨hlines, hmem⟩ := framed_parts (x := x) hframed
  have hne : (keepNewImports ((parts sources s).flatMap Text.lines ++ [[]]) s.imports).1 ≠ [] := by
    rw [← lines_mergeParts, keepNewImports_mergeParts]
    exact mergedLines_ne_nil _ _ _
  rw [merge_text, liveImports_trim, lines_mergeParts, ← liveImports_break, ← closed_eq hne,
    hlines.mem_liveImports_keepNewImports, hmem]

theorem keepsImports_of_keepsOwnImports (h : ∀ t ∈ sources, FramedSource t ∧ KeepsOwnImports t)
    (s : MergeState) :
    KeepsImports sources s := by
  intro t ht x hx
  obtain ⟨kept, hpart⟩ := exists_mem_parts ht s
  rw [mem_liveImports_merge fun t ht => (h t ht).1]
  exact Or.inl ⟨_, hpart, (h t ht).2 kept x hx⟩

/-! ### Sources that lose imports

A source that loses an import when no directive was kept before loses it in a job of its own; one that loses
an import when a directive was kept before loses it below a source of one directive.
-/

theorem framedSource_directiveProbe : FramedSource directiveProbe := by
  have hlines : ∀ kept, ∀ line ∈ Text.lines (part kept directiveProbe), isShut (closed [line]) = true := by
    decide
  exact fun kept => framed_of_lines (hlines kept)

theorem liveImports_directiveProbe : liveImports directiveProbe = [] := by decide

/-- A source that breaks no job loses no import on its own. -/
theorem keepsOwnImports_of_keepsImports (hframed : FramedSource t)
    (h : ∀ before, (∀ s ∈ before, FramedSource s ∧ KeepsOwnImports s) → KeepsImports (before ++ [t]) {}) :
    KeepsOwnImports t := by
  have hprobe : ∀ s ∈ [directiveProbe], FramedSource s ∧ KeepsOwnImports s := by
    intro s hs
    rw [List.mem_singleton.mp hs]
    refine ⟨framedSource_directiveProbe, fun kept x hx => ?_⟩
    rw [liveImports_directiveProbe] at hx
    simp at hx
  -- no key was seen before, and the probe adds no import
  have hpart : ∀ before, (∀ s ∈ before, FramedSource s ∧ KeepsOwnImports s) →
      ∀ x ∈ liveImports t, ∃ p ∈ parts (before ++ [t]) {}, x ∈ liveImports p := by
    intro before hbefore x hx
    have hsources : ∀ s ∈ before ++ [t], FramedSource s := by
      intro s hs
      rcases List.mem_append.mp hs with hs | hs
      · exact (hbefore s hs).1
      · rwa [List.mem_singleton.mp hs]
    have hmerged := (mem_liveImports_merge hsources {}).mp (h before hbefore t (by simp) x hx)
    exact hmerged.resolve_right fun ⟨_, hkey, _⟩ => by simp at hkey
  intro kept x hx
  cases kept with
  | false =>
      obtain ⟨p, hp, hx⟩ := hpart [] (by simp) x hx
      rw [List.nil_append, parts, parts, mergePart_text, List.mem_singleton] at hp
      rwa [hp] at hx
  | true =>
      obtain ⟨p, hp, hx⟩ := hpart [directiveProbe] hprobe x hx
      rw [List.singleton_append, parts, parts, parts, mergePart_text, mergePart_text, mergePart_directive,
        nextDirective_some rfl directive?_directiveProbe, part_directiveProbe, List.mem_cons,
        List.mem_singleton] at hp
      rcases hp with hp | hp
      · rw [hp, liveImports_directiveProbe] at hx
        simp at hx
      · rwa [hp] at hx

end Together

/-! ### The law -/

/--
**Framed sources keep their imports together if each keeps its own, and no other condition on single sources
would do; a source keeps its own if they stand on lines that no hit of a rule touches.**
-/
theorem merge_keepsImports (sources : List Text) (s : MergeState) (t : Text) :
    ((∀ u ∈ sources, FramedSource u ∧ KeepsOwnImports u) → KeepsImports sources s) ∧
      (FramedSource t → ¬ KeepsOwnImports t → ∃ before, (∀ u ∈ before, FramedSource u ∧ KeepsOwnImports u) ∧
        ¬ KeepsImports (before ++ [t]) {}) ∧
      (FramedSource t → SparesThroughout Text.isExternalImport t → ImportsOnLines t → KeepsOwnImports t) := by
  refine ⟨fun h => keepsImports_of_keepsOwnImports h s, fun hframed ht => ?_, keepsOwnImports_of_spares⟩
  by_contra hno
  push Not at hno
  exact ht (keepsOwnImports_of_keepsImports hframed hno)

/-- An import above code. -/
def importingSource : Text := "import \"a\";\ncontract A {}".toList

/-- The same import again, below a relative one and above another. -/
def repeatingSource : Text := "import \"./c\";\nimport \"a\";\nimport \"b\";".toList

/-- The law holds for two sources that share an import. -/
theorem merge_two_keepImports : KeepsImports [importingSource, repeatingSource] {} := by
  refine (merge_keepsImports _ _ []).1 fun t ht => ?_
  have hshut : ∀ t ∈ [importingSource, repeatingSource], ∀ kept, ∀ line ∈ Text.lines (part kept t),
      isShut (closed [line]) = true := by decide
  have hspares : ∀ t ∈ [importingSource, repeatingSource], SparesThroughout Text.isExternalImport t := by
    decide
  have hlines : ∀ t ∈ [importingSource, repeatingSource], ImportsOnLines t := by
    unfold ImportsOnLines
    decide
  have hframed : FramedSource t := fun kept => framed_of_lines (hshut t ht kept)
  exact ⟨hframed, (merge_keepsImports [] {} t).2.2 hframed (hspares t ht) (hlines t ht)⟩

/-- A relative and an external import on one line. -/
def twoOnOneLine : Text := "import \"./A.sol\"; import \"b/B.sol\";\ncontract C {}".toList

/-- A relative import takes an external import behind it on its line away. -/
theorem merge_imports_on_one_line :
    liveImports twoOnOneLine = ["b/B.sol".toList] ∧ ¬ KeepsImports [twoOnOneLine] {} := by
  have hlive : liveImports twoOnOneLine = ["b/B.sol".toList] := by decide
  have hmerged : (merge [twoOnOneLine] {}).1 = "contract C {}".toList := by decide
  refine ⟨hlive, fun h => ?_⟩
  have hkept := h twoOnOneLine (by simp) "b/B.sol".toList (by simp [hlive])
  rw [hmerged] at hkept
  rcases hkept with hkept | ⟨key, hkey, -⟩
  · revert hkept
    decide
  · simp at hkey

end SolidityKit.Source
