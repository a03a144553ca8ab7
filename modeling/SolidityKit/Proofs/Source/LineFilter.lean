/-
Merging canonical sources is filtering their lines.

`keptLines` is the filter: version directives and external imports stay when they are the first of their
kind, code stays, everything else goes.  The program never sees lines before the imports are compared; it
rewrites whole texts, source by source, and twice for the directives.  `merge_canonical` says that the two agree
for all lists of canonical sources.

The proof follows the program.  Each step of normalising is one `LineWise` search, so the lines a text shows
are filtered in step with the text; collapsing blank runs keeps the lines that are not blank, and trimming
takes blanks off code at most (`linesShow_trim`).  A merge then carries the first directive over the sources
(`mergeParts_canonical`), and the comparison of imports sees exactly the lines that stay.
-/
import SolidityKit.Proofs.Source.CanonicalImports
import SolidityKit.Proofs.Source.OpenImports
import SolidityKit.Proofs.Source.Parts

namespace SolidityKit

open Pattern Shape Source

namespace SourceLine

/-! ### The filter -/

/-- The lines that stay, given whether a directive was kept before and which imports were seen before. -/
def keptLines : (kept : Bool) → (seen : List Text) → List SourceLine → List SourceLine
  | _, _, [] => []
  | kept, seen, l :: more =>
    match l with
    | directive _ => if kept then keptLines true seen more else l :: keptLines true seen more
    | externalImport _ _ =>
      if l.text ∈ seen then keptLines kept seen more else l :: keptLines kept (l.text :: seen) more
    | code _ _ => l :: keptLines kept seen more
    | _ => keptLines kept seen more

/-- The text of a line without the blanks around it. -/
def shown (l : SourceLine) : Text := Text.trim l.text

/-- The text of a source, given by its lines. -/
def sourceText (ls : List SourceLine) : Text := Text.joinWith '\n' (ls.map text)

/-! ### Lines in a text -/

/-- Whether normalising leaves a line in its source, if it is no repeated directive. -/
def stays : SourceLine → Bool
  | directive _ => true
  | externalImport _ _ => true
  | code _ _ => true
  | _ => false

theorem notMem_text {c : Char} (hc : c = '\n' ∨ c = '\r') {l : SourceLine} (h : l.isBlank = false) :
    c ∉ l.text := by
  have hfree : ∀ {x : Text}, Harmless x → c ∉ x := by
    intro x hx hm
    exact hx.chars c hm (by rcases hc with rfl | rfl <;> decide)
  have himport : ∀ names {path : Text}, Harmless path → c ∉ importText names path := by
    intro names path hpath
    have hnames : c ∉ namesText names := by
      cases names with
      | none => simp [namesText]
      | some names =>
          simp only [namesText, List.mem_cons, List.mem_append, not_or]
          refine ⟨?_, hfree names.harmless, ?_, ?_, ?_, ?_, ?_⟩ <;> rcases hc with rfl | rfl <;> decide
    simp only [importText, List.mem_cons, List.mem_append, not_or]
    refine ⟨?_, ?_, hnames, ?_, hfree hpath, ?_, ?_⟩ <;> rcases hc with rfl | rfl <;> decide
  have hword : ∀ {a x : Text}, c ∉ a → Harmless x → c ∉ a ++ ' ' :: x := by
    intro a x ha hx
    simp only [List.mem_cons, List.mem_append, not_or]
    exact ⟨ha, by rcases hc with rfl | rfl <;> decide, hfree hx⟩
  cases l with
  | license x =>
      exact hword (a := "// SPDX-License-Identifier:".toList)
        (by rcases hc with rfl | rfl <;> decide) x.harmless
  | fileMarker x => exact hword (a := "// File:".toList) (by rcases hc with rfl | rfl <;> decide) x.harmless
  | directive version =>
      have hopening : c ∉ opening := by rcases hc with rfl | rfl <;> decide
      have hend : c ∉ [';'] := by rcases hc with rfl | rfl <;> decide
      intro hm
      rcases List.mem_append.mp hm with hm | hm
      · exact hopening hm
      rcases List.mem_append.mp hm with hm | hm
      · exact hfree version.harmless hm
      · exact hend hm
  | relativeImport names path => exact himport names path.harmless
  | externalImport names path => exact himport names path.harmless
  | blank _ _ => simp [isBlank] at h
  | code s hs =>
      rcases hc with rfl | rfl
      · exact hs.noBreak.1
      · exact hs.noBreak.2

theorem text_notBlank {l : SourceLine} (h : l.isBlank = false) : Text.isBlank l.text = false := by
  cases l with
  | blank _ _ => simp [isBlank] at h
  | code s hs => exact hs.notBlank
  | license _ => rfl
  | fileMarker _ => rfl
  | directive _ => rfl
  | relativeImport _ _ => rfl
  | externalImport _ _ => rfl

/-- A source shows its lines, whatever line ends its blank lines hold. -/
theorem linesShow_sourceText (ls : List SourceLine) :
    LinesShow ShownBy (Text.unifyLineEnds (sourceText ls)) (ls.filter fun l => !l.isBlank) := by
  -- one line, before a text that begins where the line ends
  have hline : ∀ (l : SourceLine) {r : Text} {as : List SourceLine}, Text.AtLineEnd r →
      LinesShow ShownBy (Text.unifyLineEnds r) as →
      LinesShow ShownBy (Text.unifyLineEnds (l.text ++ r)) ([l].filter (fun l => !l.isBlank) ++ as) := by
    intro l r as hr h
    have hr' := Text.atLineEnd_unifyLineEnds hr
    cases hl : l.isBlank with
    | true =>
        obtain ⟨s, hs, rfl⟩ : ∃ s hs, l = blank s hs := by
          cases l <;> simp_all [isBlank]
        obtain ⟨w, hw, hblank⟩ := Text.unifyLineEnds_blank hs r
        simp only [List.filter_cons, hl, Bool.not_true, Bool.false_eq_true, if_false, List.filter_nil,
          List.nil_append]
        rw [show (blank s hs).text = s from rfl, hw, linesShow_blank hblank hr']
        exact h
    | false =>
        rw [Text.unifyLineEnds_append (notMem_text (Or.inr rfl) hl)]
        refine linesShow_at (notMem_text (Or.inl rfl) hl) hr' ?_ h
        rw [Text.nonBlank_cons (text_notBlank hl)]
        simp only [List.filter_cons, hl, Bool.not_false, if_true, List.filter_nil]
        exact .cons (.whole hl) .nil
  induction ls with
  | nil => exact .nil
  | cons l ls ih =>
      cases ls with
      | nil =>
          have := hline l (r := []) (Or.inl rfl) .nil
          simpa [sourceText, Text.joinWith] using this
      | cons l' ls =>
          have hbreak : LinesShow ShownBy (Text.unifyLineEnds ('\n' :: sourceText (l' :: ls)))
              ((l' :: ls).filter fun l => !l.isBlank) := by
            have : Text.unifyLineEnds ('\n' :: sourceText (l' :: ls)) =
                '\n' :: Text.unifyLineEnds (sourceText (l' :: ls)) := by simp [Text.unifyLineEnds]
            rw [this, linesShow_break]
            exact ih
          have := hline l (Or.inr ⟨_, rfl⟩) hbreak
          rw [← List.filter_append] at this
          exact this

/-! ### Normalising -/

/-- A text that shows a line that stays. -/
def ShowsKept (s : Text) (l : SourceLine) : Prop := ShownBy s l ∧ l.stays = true

theorem IsCode.of_trimmedFrom {s s' : Text} (h : IsCode s) (ht : Text.TrimmedFrom s' s) : IsCode s' where
  notBlank := by
    have hs := h.notBlank
    rw [Bool.eq_false_iff] at hs ⊢
    intro hb
    exact hs (Text.trim_eq_nil_iff.mp (ht.trim_eq.symm.trans (Text.trim_eq_nil_iff.mpr hb)))
  noBreak := ⟨fun hm => h.noBreak.1 (ht.part.mem hm), fun hm => h.noBreak.2 (ht.part.mem hm)⟩
  slash hm := h.slash (ht.part.mem hm)
  imports hi := h.imports (hi.trans ht.part)
  directives hi := h.directives (hi.trans ht.part)

theorem trimmed_directive (version : Phrase) : Text.Trimmed (directive version).text := by
  have hends : (directive version).text = 'p' :: ("ragma solidity ".toList ++ version.text ++ [';']) := by
    show opening ++ (version.text ++ [';']) = _
    rw [← List.append_assoc]
    rfl
  rw [hends]
  exact .of_ends (by decide) (by decide) _

/-- A line that stays is still shown when blanks around it are trimmed away. -/
theorem ShowsKept.of_trimmedFrom {s s' : Text} {l : SourceLine} (h : ShowsKept s l)
    (ht : Text.TrimmedFrom s' s) :
    ShowsKept s' l := by
  obtain ⟨hshown, hstays⟩ := h
  refine ⟨?_, hstays⟩
  cases hshown with
  | code hcode hsame => exact .code (IsCode.of_trimmedFrom hcode ht) (ht.trim_eq.trans hsame)
  | whole hblank =>
      cases l with
      | directive version =>
          rw [ht.eq (trimmed_directive version)]
          exact .whole hblank
      | externalImport names path =>
          rw [ht.eq (trimmed_importText names path.text)]
          exact .whole hblank
      | code s hs => exact .code (IsCode.of_trimmedFrom hs ht) ht.trim_eq
      | license _ => simp [stays] at hstays
      | relativeImport _ _ => simp [stays] at hstays
      | fileMarker _ => simp [stays] at hstays
      | blank _ _ => simp [stays] at hstays

theorem linesShow_tidied {t whole : Text} {ls : List SourceLine} (h : LinesShow ShowsKept whole ls)
    (ht : Text.Tidied t whole) : LinesShow ShowsKept t ls :=
  Text.forall₂_trans (fun _ _ _ htrim hshow => hshow.of_trimmedFrom htrim) ht h

/-- Collapsing blank runs and trimming, as at the end of each step. -/
theorem linesShow_trim_collapse {t : Text} {ls : List SourceLine} (h : LinesShow ShowsKept t ls) :
    LinesShow ShowsKept (Text.trim (collapseBlankRuns t)) ls := by
  refine linesShow_tidied ?_ (Text.tidied_trim _)
  unfold LinesShow
  rw [nonBlank_lines_collapse]
  exact h

theorem linesShow_kept {t : Text} {ls : List SourceLine} (h : LinesShow ShownBy t ls)
    (hls : ∀ l ∈ ls, l.stays = true) : LinesShow ShowsKept t ls := by
  have hboth : ∀ {ss : List Text} {ls : List SourceLine}, List.Forall₂ ShownBy ss ls →
    (∀ l ∈ ls, l.stays = true) →
      List.Forall₂ ShowsKept ss ls := by
    intro ss ls h
    induction h with
    | nil => exact fun _ => .nil
    | cons hs _ ih =>
        intro hls
        exact .cons ⟨hs, hls _ (by simp)⟩ (ih fun l hl => hls l (by simp [hl]))
  exact hboth h hls

/-- A search over lines, for a shape that begins with a character that is not blank. -/
theorem lineWise_stage {p : Pattern} {c : Char} {w : Text} (hopens : OpensWith p (c :: w))
    (hc : SolidityKit.isBlank c = false) {hit : SourceLine → Bool}
    (hline : ∀ l {s}, ShownBy s l → if hit l then Hits p s else Misses p s) {t : Text} {ls : List SourceLine}
    (h : LinesShow ShownBy t ls) : LineWise ShownBy hit ls (p.pieces t) :=
  lineWise_pieces (fun _ r hv => noneStarts_blank hopens hc hv r) (fun _ l hs => hline l hs) t (Or.inl rfl) h

/-- Removing all matches filters the lines. -/
theorem linesShow_removeAll {p : Pattern} {t : Text} {hit : SourceLine → Bool} {ls : List SourceLine}
    (h : LineWise ShownBy hit ls (p.pieces t)) :
    LinesShow ShownBy (removeAll p t).1 (ls.filter fun l => !hit l) := by
  rw [removeAll_eq, ← keepFirstLine_true]
  exact h.kept true

/-- What the steps of normalising before the directives leave of a canonical source. -/
theorem stripped_canonical (ls : List SourceLine) :
    LinesShow ShownBy (stripped (sourceText ls)) (ls.filter stays) := by
  have hlicense : OpensWith licenseLine ('/' :: ['/']) := opensWith_licenseLine
  have hnames : OpensWith Shape.relativeImportOfNames ('i' :: "mport".toList) := opensWith_relativeImportOfNames
  have hwhole : OpensWith Shape.relativeImport ('i' :: "mport".toList) := opensWith_relativeImport
  have hcomment : OpensWith blockComment ('/' :: ['*']) := opensWith_blockComment
  have hmarker : OpensWith Shape.fileMarker ('/' :: ['/']) := opensWith_fileMarker
  have h₀ := linesShow_sourceText ls
  have h₁ := linesShow_removeAll (lineWise_stage hlicense (by decide) licenseLine_line h₀)
  have h₂ := linesShow_removeAll (lineWise_stage hnames (by decide) relativeImportOfNames_line h₁)
  have h₃ := linesShow_removeAll (lineWise_stage hwhole (by decide) relativeImport_line h₂)
  have hmiss : ∀ (l : SourceLine) {s : Text}, ShownBy s l →
      if false then Hits blockComment s else Misses blockComment s := fun l _ hs => blockComment_line l hs
  have hnone := lineWise_stage hcomment (by decide) hmiss h₃
  rw [← removeBoilerplate_of_no_match (hnone.allMatches_eq_nil (by simp))] at h₃
  have h₄ := linesShow_removeAll (lineWise_stage hmarker (by decide) fileMarker_line h₃)
  have hstays : ls.filter stays = (((((ls.filter fun l => !l.isBlank).filter fun l => !l.isLicense).filter
      fun l => !l.isRelativeImportOfNames).filter fun l => !l.isRelativeImport).filter
      fun l => !l.isFileMarker) := by
    simp only [List.filter_filter]
    refine List.filter_congr fun l _ => ?_
    cases l with
    | relativeImport names path => cases names <;> rfl
    | _ => rfl
  rw [hstays]
  exact h₄

/-- Normalising leaves the lines that stay, with the first directive of the source only. -/
theorem normalize_canonical (ls : List SourceLine) :
    LinesShow ShowsKept (normalize (sourceText ls)).text
      (keepFirstLine isDirective false (ls.filter stays)) := by
  have hdirective : OpensWith versionDirective ('p' :: "ragma solidity ".toList) := opensWith_versionDirective
  have h := (lineWise_stage hdirective (by decide) versionDirective_line (stripped_canonical ls)).kept false
  rw [normalize_text]
  refine linesShow_trim_collapse (linesShow_kept h fun l hl => ?_)
  have hmem := (keepFirstLine_sublist isDirective false (ls.filter stays)).mem hl
  exact (List.mem_filter.mp hmem).2

/-! ### One source after the other -/

/-- The state of the directives after given lines. -/
def directiveAfter (ls : List SourceLine) : DirectiveState where
  kept := ls.any isDirective
  directive := (ls.find? isDirective).map text

theorem lineWise_normalized (ls : List SourceLine) :
    LineWise ShowsKept isDirective (keepFirstLine isDirective false (ls.filter stays))
      (versionDirective.pieces (normalize (sourceText ls)).text) :=
  lineWise_pieces (fun _ r hv => noneStarts_blank (c := 'p') (w := "ragma solidity ".toList)
    opensWith_versionDirective (by decide) hv r) (fun _ l hs => versionDirective_line l hs.1) _ (Or.inl rfl)
    (normalize_canonical ls)

theorem part_canonical (kept : Bool) (ls : List SourceLine) :
    LinesShow ShowsKept (part kept (sourceText ls)) (keepFirstLine isDirective kept (ls.filter stays)) := by
  have h := (lineWise_normalized ls).kept kept
  rw [keepFirstLine_keepFirstLine] at h
  exact linesShow_trim_collapse h

/-- The directive a canonical source has, if any, is its first. -/
theorem directive?_canonical (ls : List SourceLine) :
    directive? (sourceText ls) = (ls.find? isDirective).map text := by
  have hfind : (keepFirstLine isDirective false (ls.filter stays)).find? isDirective =
    ls.find? isDirective := by
    rw [find?_keepFirstLine, List.find?_filter]
    congr 1
    funext l
    cases l <;> rfl
  have hwise := lineWise_normalized ls
  unfold directive?
  rw [← hfind]
  cases hl : (keepFirstLine isDirective false (ls.filter stays)).find? isDirective with
  | none =>
      have hnone : versionDirective.allMatches (normalize (sourceText ls)).text = [] :=
        hwise.allMatches_eq_nil (by rwa [← List.head?_eq_none_iff, List.head?_filter])
      rw [first?, hnone]
      rfl
  | some l =>
      obtain ⟨m, line, w, hm, ⟨hshow, -⟩, hw, htext⟩ := hwise.first?_eq_some hl
      obtain ⟨version, rfl⟩ : ∃ version, l = directive version := by
        have := List.find?_some hl
        cases l <;> simp [isDirective] at this
        exact ⟨_, rfl⟩
      cases hshow
      -- the match ends with its semicolon, so no blanks belong to it
      obtain ⟨b, r, hmatch⟩ := matchAt?_of_mem_allMatches (List.mem_of_mem_head? hm)
      obtain ⟨v, hv, -⟩ := (matchAt?_versionDirective.mp hmatch).1
      obtain rfl : w = [] := by
        rcases List.eq_nil_or_concat' w with rfl | ⟨w', x, rfl⟩
        · rfl
        · have hlast : m.text.getLast? = some x := by rw [htext, ← List.append_assoc, List.getLast?_concat]
          have hsemicolon : m.text.getLast? = some ';' := by rw [hv, ← List.append_assoc, List.getLast?_concat]
          cases hlast.symm.trans hsemicolon
          exact absurd (Text.isBlank_iff.mp hw ';' (by simp)) (by decide)
      rw [hm, Option.map_some, Option.map_some, htext, List.append_nil]

theorem any_of_find? {p : SourceLine → Bool} {ls : List SourceLine} {l : SourceLine} (h : ls.find? p = some l) :
    ls.any p = true :=
  List.any_eq_true.mpr ⟨l, List.mem_of_find?_eq_some h, List.find?_some h⟩

theorem any_of_find?_none {p : SourceLine → Bool} {ls : List SourceLine} (h : ls.find? p = none) :
    ls.any p = false := by
  rw [List.find?_eq_none] at h
  rw [List.any_eq_false]
  exact h

theorem nextDirective_canonical (before ls : List SourceLine) :
    nextDirective (directiveAfter before) (sourceText ls) = directiveAfter (before ++ ls) := by
  have hd := directive?_canonical ls
  cases hb : before.find? isDirective with
  | some l =>
      have hany := any_of_find? hb
      rw [nextDirective_kept hany]
      simp [directiveAfter, hany, hb]
  | none =>
      have hany := any_of_find?_none hb
      cases hl : ls.find? isDirective with
      | some l =>
          rw [nextDirective_some hany (hd.trans (congrArg (Option.map text) hl))]
          simp [directiveAfter, hb, hl, any_of_find? hl]
      | none =>
          rw [nextDirective_none (hd.trans (congrArg (Option.map text) hl))]
          simp [directiveAfter, hany, hb, hl, any_of_find?_none hl]

theorem mergePart_canonical (before ls : List SourceLine) (s : MergeState)
    (hs : s.directive = directiveAfter before) :
    LinesShow ShowsKept (mergePart (sourceText ls) s).1
        (keepFirstLine isDirective (before.any isDirective) (ls.filter stays)) ∧
      (mergePart (sourceText ls) s).2.directive = directiveAfter (before ++ ls) := by
  refine ⟨?_, ?_⟩
  · rw [mergePart_text, hs]
    exact part_canonical _ ls
  · rw [mergePart_directive, hs, nextDirective_canonical]

/-- All parts together show the lines that stay, with the first directive of the job only. -/
theorem mergeParts_canonical (sources : List (List SourceLine)) (before : List SourceLine) (s : MergeState)
    (hs : s.directive = directiveAfter before) :
    LinesShow ShowsKept (mergeParts (sources.map sourceText) s).1
        (keepFirstLine isDirective (before.any isDirective) (sources.flatten.filter stays)) ∧
      (mergeParts (sources.map sourceText) s).2.directive = directiveAfter (before ++ sources.flatten) := by
  induction sources generalizing before s with
  | nil =>
      refine ⟨.nil, ?_⟩
      rw [List.flatten_nil, List.append_nil]
      exact hs
  | cons ls more ih =>
      obtain ⟨hpart, hstate⟩ := mergePart_canonical before ls s hs
      obtain ⟨hmore, hdirective⟩ := ih (before ++ ls) _ hstate
      rw [List.map_cons, mergeParts_cons]
      refine ⟨?_, ?_⟩
      · unfold LinesShow
        have hany : (ls.filter stays).any isDirective = ls.any isDirective := by
          rw [List.any_filter]
          congr 1
          funext l
          cases l <;> rfl
        rw [Text.nonBlank_lines_append, List.flatten_cons, List.filter_append, keepFirstLine_append, hany,
          ← List.any_append]
        exact List.rel_append hpart hmore
      · rw [hdirective, List.flatten_cons, List.append_assoc]

/-! ### Imports -/

/-- The lines that stay after repeated external imports are dropped. -/
def newImports : (seen : List Text) → List SourceLine → List SourceLine
  | _, [] => []
  | seen, l :: more =>
    if l.isExternalImport then
      if l.text ∈ seen then newImports seen more else l :: newImports (l.text :: seen) more
    else l :: newImports seen more

theorem isExternalImport_showsKept {s : Text} {l : SourceLine} (h : ShowsKept s l) :
    Text.isExternalImport s = l.isExternalImport ∧ (l.isExternalImport = true → Text.trim s = l.text) := by
  obtain ⟨hshow, hstays⟩ := h
  cases l with
  | externalImport names path =>
      cases hshow
      exact ⟨isExternalImport_external names path, fun _ => (trimmed_importText names path.text).trim_eq⟩
  | directive version =>
      refine ⟨isExternalImport_of_absent (isKeyword_import.absent hshow (import_keyword rfl rfl rfl)), ?_⟩
      simp [isExternalImport]
  | code s' hs' =>
      refine ⟨isExternalImport_of_absent (isKeyword_import.absent hshow (import_keyword rfl rfl rfl)), ?_⟩
      simp [isExternalImport]
  | license _ => simp [stays] at hstays
  | relativeImport _ _ => simp [stays] at hstays
  | fileMarker _ => simp [stays] at hstays
  | blank _ _ => simp [stays] at hstays

/-- A line that is no external import shows nothing or the first of the things, and is kept. -/
theorem shows_other {line : Text} {ls kept : List Text} {seen : List Text}
    (he : Text.isExternalImport line = false)
    (ih : ∀ as, List.Forall₂ ShowsKept (Text.nonBlank ls) as →
      List.Forall₂ ShowsKept (Text.nonBlank kept) (newImports seen as))
    (as : List SourceLine) (h : List.Forall₂ ShowsKept (Text.nonBlank (line :: ls)) as) :
    List.Forall₂ ShowsKept (Text.nonBlank (line :: kept)) (newImports seen as) := by
  cases hb : Text.isBlank line with
  | true =>
      rw [Text.nonBlank_cons_blank hb] at h ⊢
      exact ih as h
  | false =>
      rw [Text.nonBlank_cons hb] at h ⊢
      rw [List.forall₂_cons_left_iff] at h
      obtain ⟨l, more, hl, hmore, rfl⟩ := h
      rw [newImports, ← (isExternalImport_showsKept hl).1, he, if_neg (by simp)]
      exact .cons hl (ih more hmore)

/-- A line that is an external import shows one with the same text. -/
theorem shows_external {line : Text} {ls : List Text} (he : Text.isExternalImport line = true)
    {as : List SourceLine} (h : List.Forall₂ ShowsKept (Text.nonBlank (line :: ls)) as) :
    Text.isBlank line = false ∧ ∃ l more, as = l :: more ∧ ShowsKept line l ∧ l.isExternalImport = true ∧
      Text.trim line = l.text ∧ List.Forall₂ ShowsKept (Text.nonBlank ls) more := by
  have hb : Text.isBlank line = false := by
    rw [Bool.eq_false_iff]
    intro hb
    rw [isExternalImport_of_isBlank hb] at he
    simp at he
  rw [Text.nonBlank_cons hb, List.forall₂_cons_left_iff] at h
  obtain ⟨l, more, hl, hmore, rfl⟩ := h
  have hsame := isExternalImport_showsKept hl
  rw [he] at hsame
  exact ⟨hb, l, more, rfl, hl, hsame.1.symm, hsame.2 hsame.1.symm, hmore⟩

/-- Comparing the imports of lines of text is comparing the imports of what they show. -/
theorem keepNewImports_shows (ls : List Text) (s : ImportState) (as : List SourceLine)
    (h : List.Forall₂ ShowsKept (Text.nonBlank ls) as) :
    List.Forall₂ ShowsKept (Text.nonBlank (keepNewImports ls s).1) (newImports s.seen as) := by
  revert as
  refine keepNewImports_induction (motive := fun ls s out => ∀ as,
    List.Forall₂ ShowsKept (Text.nonBlank ls) as →
      List.Forall₂ ShowsKept (Text.nonBlank out.1) (newImports s.seen as)) ?_ ?_ ?_ ?_ ls s
  · intro s as h
    cases h
    exact .nil
  · intro line more s he ih
    exact shows_other he ih
  · intro line more s he hs ih as h
    obtain ⟨-, l, as, rfl, -, hl, htrim, hmore⟩ := shows_external he h
    rw [newImports, if_pos hl, if_pos (htrim ▸ hs)]
    exact ih as hmore
  · intro line more s he hs ih as h
    obtain ⟨hb, l, as, rfl, hshow, hl, htrim, hmore⟩ := shows_external he h
    rw [Text.nonBlank_cons hb, newImports, if_pos hl, if_neg (htrim ▸ hs), ← htrim]
    exact .cons hshow (ih as hmore)

/-- The external imports among lines of text are those among what they show. -/
theorem externalImports_shows {ls : List Text} {as : List SourceLine}
    (h : List.Forall₂ ShowsKept (Text.nonBlank ls) as) :
    (ls.filter Text.isExternalImport).map Text.trim = (as.filter isExternalImport).map text := by
  induction ls generalizing as with
  | nil =>
      cases h
      rfl
  | cons line ls ih =>
      cases he : Text.isExternalImport line with
      | true =>
          obtain ⟨-, l, as, rfl, -, hl, htrim, hmore⟩ := shows_external he h
          rw [List.filter_cons_of_pos he, List.filter_cons_of_pos hl, List.map_cons, List.map_cons,
            htrim, ih hmore]
      | false =>
          rw [List.filter_cons_of_neg (by simp [he])]
          cases hb : Text.isBlank line with
          | true =>
              rw [Text.nonBlank_cons_blank hb] at h
              exact ih h
          | false =>
              rw [Text.nonBlank_cons hb, List.forall₂_cons_left_iff] at h
              obtain ⟨l, more, hl, hmore, rfl⟩ := h
              rw [List.filter_cons_of_neg (by simp [← (isExternalImport_showsKept hl).1, he])]
              exact ih hmore

/-! ### The whole job -/

/-- The filter keeps the first directive and then the first of equal imports. -/
theorem keptLines_eq (kept : Bool) (seen : List Text) (ls : List SourceLine) :
    keptLines kept seen ls = newImports seen (keepFirstLine isDirective kept (ls.filter stays)) := by
  induction ls generalizing kept seen with
  | nil => rfl
  | cons l ls ih =>
      cases l with
      | directive version =>
          cases kept <;> simp [keptLines, ih, List.filter_cons, stays, keepFirstLine, isDirective, newImports,
            isExternalImport]
      | externalImport names path =>
          simp [keptLines, ih, List.filter_cons, stays, keepFirstLine, isDirective, newImports,
            isExternalImport]
      | code s hs =>
          simp [keptLines, ih, List.filter_cons, stays, keepFirstLine, isDirective, newImports,
            isExternalImport]
      | license _ => simp [keptLines, ih, stays]
      | relativeImport _ _ => simp [keptLines, ih, stays]
      | fileMarker _ => simp [keptLines, ih, stays]
      | blank _ _ => simp [keptLines, ih, stays]

theorem trim_eq_shown {ss : List Text} {ls : List SourceLine} (h : List.Forall₂ ShowsKept ss ls) :
    ss.map Text.trim = ls.map shown := by
  induction h with
  | nil => rfl
  | cons hs _ ih =>
      rw [List.map_cons, List.map_cons, ih]
      congr 1
      obtain ⟨hshown, -⟩ := hs
      cases hshown with
      | whole _ => rfl
      | code _ hsame => exact hsame

/-- What a merge leaves of lines: the merged text and the final state. -/
structure Filtered (lines : List SourceLine) (merged : Text) (s : MergeState) : Prop where
  /-- The lines of the merged text that are not blank are the lines that stay, trimmed. -/
  content : Text.contentLines merged = (keptLines false [] lines).map shown
  /-- The state holds the first directive. -/
  directive : s.directive.directive = (lines.find? isDirective).map text
  /-- A directive has been kept if there was one. -/
  kept : s.directive.kept = lines.any isDirective
  /-- The imports seen are the external imports of the job. -/
  seen : ∀ key, key ∈ s.imports.seen ↔ ∃ l ∈ lines, l.isExternalImport = true ∧ l.text = key
  /-- No import is remembered twice. -/
  nodup : s.imports.seen.Nodup
  /-- All other external imports were dropped. -/
  dropped : s.imports.dropped + s.imports.seen.length = lines.countP isExternalImport

/-- **Merging canonical sources filters their lines.** -/
theorem merge_canonical (sources : List (List SourceLine)) :
    Filtered sources.flatten (merge (sources.map sourceText) {}).1 (merge (sources.map sourceText) {}).2 := by
  have hstart : ({} : MergeState).directive = directiveAfter [] := rfl
  obtain ⟨hshow, hdirective⟩ := mergeParts_canonical sources [] {} hstart
  have hexternal := externalImports_shows hshow
  have hfilter : (keepFirstLine isDirective ([].any isDirective) (sources.flatten.filter stays)).filter
      isExternalImport = sources.flatten.filter isExternalImport := by
    rw [filter_keepFirstLine, List.filter_filter]
    · refine List.filter_congr fun l _ => ?_
      cases l <;> rfl
    · intro l hl
      cases l <;> simp_all [isDirective, isExternalImport]
  rw [hfilter] at hexternal
  refine ⟨?_, ?_, ?_, ?_, ?_, ?_⟩
  · have hlines : ∀ line ∈ (keepNewImports (Text.lines (mergeParts (sources.map sourceText) {}).1) {}).1,
        '\n' ∉ line := fun line hl =>
      Text.notMem_of_mem_lines ((keepNewImports_sublist _ _).mem hl)
    have hkept := keepNewImports_shows _ {} _ hshow
    rw [merge_text, Text.contentLines_trim, Text.contentLines,
      Text.nonBlank_lines_joinWith hlines, keptLines_eq]
    exact trim_eq_shown hkept
  · rw [merge_directive, hdirective]
    rfl
  · rw [merge_directive, hdirective]
    rfl
  · intro key
    rw [merge_imports, mem_seen_keepNewImports]
    have hmem : key ∈ ((Text.lines (mergeParts (sources.map sourceText) {}).1).filter
        Text.isExternalImport).map Text.trim ↔ key ∈ (sources.flatten.filter isExternalImport).map text := by
      rw [hexternal]
    simp only [List.mem_map, List.mem_filter, and_assoc] at hmem
    rw [← hmem]
    simp only [List.not_mem_nil, false_or]
  · rw [merge_imports]
    exact nodup_seen_keepNewImports _ _ .nil
  · have hcount := congrArg List.length hexternal
    simp only [List.length_map, ← List.countP_eq_length_filter] at hcount
    rw [merge_imports, dropped_keepNewImports, hcount]
    exact Nat.zero_add _

end SourceLine

end SolidityKit
