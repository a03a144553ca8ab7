/-
Canonical lines, and what each shape makes of them.

A canonical source is a list of lines, each written in the one way the formatter of the language writes it.
The free texts in them carry the proof that they hold nothing that opens or closes a shape, so that a line
of one kind cannot be mistaken for another.  For every shape this file settles every kind of line: either
the line is a match wherever it stands, up to blanks behind it, or no match starts in it.

Most of the second answers come from the text a match begins with.  Only where a line begins the way the
matches do (two slashes, or the word `import`) does the proof have to read on.
-/
import SolidityKit.Proofs.Source.Imports
import SolidityKit.Proofs.Source.LineStages

namespace SolidityKit

open Pattern Shape Source

/-! ### Free texts -/

/-- A text that holds nothing that opens or closes a shape. -/
structure Harmless (s : Text) : Prop where
  /-- No line break, quote, brace, semicolon or star. -/
  chars : ∀ c ∈ s, c ∉ ['\n', '\r', '"', '\'', '{', '}', ';', '*']
  /-- No two slashes. -/
  slashes : ¬ "//".toList <:+: s
  /-- The word `import` does not occur. -/
  imports : ¬ "import".toList <:+: s
  /-- The word `pragma` does not occur. -/
  directives : ¬ "pragma".toList <:+: s

theorem Harmless.noBreak {s : Text} (h : Harmless s) : '\n' ∉ s :=
  fun hm => h.chars '\n' hm (by decide)

/-- A harmless text. -/
structure FreeText where
  /-- The text. -/
  text : Text
  /-- Nothing in it opens or closes a shape. -/
  harmless : Harmless text

/-- A harmless text that says something. -/
structure Phrase extends FreeText where
  /-- It is not blank. -/
  notBlank : Text.isBlank text = false

/-- A path that starts with one or two dots and a slash. -/
structure RelativePath extends FreeText where
  /-- The start of the path. -/
  relative : "./".toList <+: text ∨ "../".toList <+: text

/-- A path that does not start with a dot. -/
structure ExternalPath extends FreeText where
  /-- The path is not empty. -/
  nonempty : text ≠ []
  /-- It does not start with a dot. -/
  external : text.head? ≠ some '.'

/-- A line of code that no shape concerns. -/
structure IsCode (s : Text) : Prop where
  /-- It is not blank. -/
  notBlank : Text.isBlank s = false
  /-- It is one line. -/
  noBreak : '\n' ∉ s ∧ '\r' ∉ s
  /-- It has no slash. -/
  slash : '/' ∉ s
  /-- The word `import` does not occur. -/
  imports : ¬ "import".toList <:+: s
  /-- The word `pragma` does not occur. -/
  directives : ¬ "pragma".toList <:+: s

/-! ### Lines -/

/-- A canonical line. -/
inductive SourceLine where
  /-- A licence line. -/
  | license (x : FreeText)
  /-- A version directive. -/
  | directive (version : Phrase)
  /-- An import of a relative path, of names or whole. -/
  | relativeImport (names : Option Phrase) (path : RelativePath)
  /-- An import of any other path, of names or whole. -/
  | externalImport (names : Option Phrase) (path : ExternalPath)
  /-- A file marker. -/
  | fileMarker (x : FreeText)
  /-- A blank line. -/
  | blank (s : Text) (h : Text.isBlank s = true)
  /-- Any other line. -/
  | code (s : Text) (h : IsCode s)

namespace SourceLine

/-- What stands before the path of an import. -/
def namesText : Option Phrase → Text
  | none => []
  | some names => '{' :: (names.text ++ '}' :: ' ' :: ("from".toList ++ [' ']))

/-- The text of an import. -/
def importText (names : Option Phrase) (path : Text) : Text :=
  "import".toList ++ ' ' :: (namesText names ++ '"' :: (path ++ ['"', ';']))

/-- The text of a line. -/
def text : SourceLine → Text
  | license x => "// SPDX-License-Identifier:".toList ++ ' ' :: x.text
  | directive version => opening ++ (version.text ++ [';'])
  | relativeImport names path => importText names path.text
  | externalImport names path => importText names path.text
  | fileMarker x => "// File:".toList ++ ' ' :: x.text
  | blank s _ => s
  | code s _ => s

/-- Whether the line is a licence line. -/
def isLicense : SourceLine → Bool
  | license _ => true
  | _ => false

/-- Whether the line is a version directive. -/
def isDirective : SourceLine → Bool
  | directive _ => true
  | _ => false

/-- Whether the line imports names from a relative path. -/
def isRelativeImportOfNames : SourceLine → Bool
  | relativeImport (some _) _ => true
  | _ => false

/-- Whether the line imports a whole relative path. -/
def isRelativeImport : SourceLine → Bool
  | relativeImport none _ => true
  | _ => false

/-- Whether the line imports a path that is not relative. -/
def isExternalImport : SourceLine → Bool
  | externalImport _ _ => true
  | _ => false

/-- Whether the line is a file marker. -/
def isFileMarker : SourceLine → Bool
  | fileMarker _ => true
  | _ => false

/-- Whether the line is blank. -/
def isBlank : SourceLine → Bool
  | blank _ _ => true
  | _ => false

/-- A text that shows a line that is not blank: its own text, or code with fewer blanks around it. -/
inductive ShownBy : Text → SourceLine → Prop
  /-- The text of the line. -/
  | whole {l : SourceLine} (h : l.isBlank = false) : ShownBy l.text l
  /-- Code that says the same. -/
  | code {s s' : Text} {h' : IsCode s'} (h : IsCode s) (same : Text.trim s = Text.trim s') :
      ShownBy s (.code s' h')

/-! ### Words that lines do not hold -/

/-- A word without a separator stands on one side of the separator. -/
theorem infix_of_cons {w a c : Text} {x : Char} (hx : x ∉ w) (h : w <:+: a ++ x :: c) :
    w <:+: a ∨ w <:+: c := by
  obtain ⟨s, t, h⟩ := h
  rcases List.append_eq_append_iff.mp h with ⟨e, he, -⟩ | ⟨e, he, htail⟩
  · exact Or.inl ⟨s, e, he.symm⟩
  · cases e with
    | nil => exact Or.inl ⟨s, [], by simpa using he⟩
    | cons y e =>
        obtain ⟨rfl, rfl⟩ := List.cons.inj htail
        rcases List.append_eq_append_iff.mp he with ⟨f, -, hf⟩ | ⟨f, -, hf⟩
        · exact absurd (by rw [hf]; simp) hx
        · cases f with
          | nil => exact absurd (by rw [show w = x :: e from by simpa using hf.symm]; simp) hx
          | cons z f =>
              obtain ⟨-, rfl⟩ := List.cons.inj hf
              exact Or.inr ⟨f, t, by simp⟩

/-- The words a line begins with. -/
def keyword : SourceLine → Text
  | license _ => "// SPDX-License-Identifier:".toList
  | directive _ => "pragma solidity".toList
  | relativeImport _ _ => "import".toList
  | externalImport _ _ => "import".toList
  | fileMarker _ => "// File:".toList
  | blank _ _ => []
  | code _ _ => []

/-- The characters between the parts of a line. -/
def separators : List Char := ['\n', ' ', '"', ';', '{', '}']

/-- A word that only a keyword may hold, because it stands in no free text and spans no separator. -/
structure IsKeyword (w : Text) : Prop where
  /-- No separator belongs to the word. -/
  whole : (w.any fun c => separators.contains c) = false
  /-- It is not a part of the word between names and path. -/
  from_ : ¬ w <:+: "from".toList
  /-- It stands in no free text. -/
  free : ∀ s, Harmless s → ¬ w <:+: s
  /-- It stands in no code. -/
  code : ∀ s, IsCode s → ¬ w <:+: s

theorem IsKeyword.notMem {w : Text} (hw : IsKeyword w) (x : Char) (hx : x ∈ separators) : x ∉ w := by
  intro hm
  have h := List.any_eq_false.mp hw.whole x hm
  simp [hx] at h

theorem harmless_nil : Harmless [] := ⟨by simp, by decide, by decide, by decide⟩

theorem IsKeyword.absent_import {w : Text} (hw : IsKeyword w) (names : Option Phrase) {path : Text}
    (hpath : ¬ w <:+: path) : ¬ w <:+: namesText names ++ '"' :: (path ++ ['"', ';']) := by
  have hnil : ¬ w <:+: [] := hw.free [] harmless_nil
  have hnames : ¬ w <:+: namesText names := by
    cases names with
    | none => exact hnil
    | some names =>
        intro h
        rcases infix_of_cons (a := []) (hw.notMem '{' (by decide)) h with h | h
        · exact hnil h
        rcases infix_of_cons (hw.notMem '}' (by decide)) h with h | h
        · exact hw.free _ names.harmless h
        rcases infix_of_cons (a := []) (hw.notMem ' ' (by decide)) h with h | h
        · exact hnil h
        rcases infix_of_cons (hw.notMem ' ' (by decide)) h with h | h
        · exact hw.from_ h
        · exact hnil h
  intro h
  rcases infix_of_cons (hw.notMem '"' (by decide)) h with h | h
  · exact hnames h
  rcases infix_of_cons (hw.notMem '"' (by decide)) h with h | h
  · exact hpath h
  rcases infix_of_cons (a := []) (hw.notMem ';' (by decide)) h with h | h
  · exact hnil h
  · exact hnil h

/-- A keyword stands in a line only where the line begins. -/
theorem IsKeyword.absent {w s : Text} (hw : IsKeyword w) {l : SourceLine} (h : ShownBy s l)
    (hl : ¬ w <:+: l.keyword) : ¬ w <:+: s := by
  have hnil : ¬ w <:+: [] := hw.free [] harmless_nil
  intro hs
  cases h with
  | code h _ => exact hw.code s h hs
  | whole hblank =>
      cases l with
      | license x =>
          rcases infix_of_cons (hw.notMem ' ' (by decide)) hs with hs | hs
          · exact hl hs
          · exact hw.free _ x.harmless hs
      | directive version =>
          have htext : (directive version).text = "pragma solidity".toList ++ ' ' ::
            (version.text ++ [';']) := by
            show opening ++ (version.text ++ [';']) = _
            rw [show opening = "pragma solidity".toList ++ [' '] from rfl, List.append_assoc]
            rfl
          rw [htext] at hs
          rcases infix_of_cons (hw.notMem ' ' (by decide)) hs with hs | hs
          · exact hl hs
          rcases infix_of_cons (hw.notMem ';' (by decide)) hs with hs | hs
          · exact hw.free _ version.harmless hs
          · exact hnil hs
      | relativeImport names path =>
          rcases infix_of_cons (hw.notMem ' ' (by decide)) hs with hs | hs
          · exact hl hs
          · exact hw.absent_import names (hw.free _ path.harmless) hs
      | externalImport names path =>
          rcases infix_of_cons (hw.notMem ' ' (by decide)) hs with hs | hs
          · exact hl hs
          · exact hw.absent_import names (hw.free _ path.harmless) hs
      | fileMarker x =>
          rcases infix_of_cons (hw.notMem ' ' (by decide)) hs with hs | hs
          · exact hl hs
          · exact hw.free _ x.harmless hs
      | blank _ _ => simp [isBlank] at hblank
      | code s h => exact hw.code s h hs

theorem isKeyword_slashes : IsKeyword "//".toList where
  whole := rfl
  from_ := Text.absent_of_containsText rfl
  free _ h := h.slashes
  code _ h hs := h.slash (hs.mem (by decide))

theorem isKeyword_comment : IsKeyword "/*".toList where
  whole := rfl
  from_ := Text.absent_of_containsText rfl
  free _ h hs := h.chars '*' (hs.mem (by decide)) (by decide)
  code _ h hs := h.slash (hs.mem (by decide))

theorem isKeyword_import : IsKeyword "import".toList where
  whole := rfl
  from_ := Text.absent_of_containsText rfl
  free _ h := h.imports
  code _ h := h.imports

theorem isKeyword_pragma : IsKeyword "pragma".toList where
  whole := rfl
  from_ := Text.absent_of_containsText rfl
  free _ h := h.directives
  code _ h := h.directives

/-- A line misses each pattern whose matches begin with a keyword that is not in the line's own. -/
theorem IsKeyword.misses {p : Pattern} {w s : Text} (hw : IsKeyword w) (hp : OpensWith p w)
    {l : SourceLine} (h : ShownBy s l) (hl : ¬ w <:+: l.keyword) : Misses p s :=
  fun _ hr => noneStarts_of_absent hp (hw.notMem '\n' (by decide)) (hw.absent h hl) hr

/-! ### Two slashes -/

/-- What stands behind two slashes and blanks, up to its first character. -/
theorem slashes_cut {u t t' : Text} {x y : Char} (hu : Text.isBlank u = true)
    (hx : SolidityKit.isBlank x = false) (hy : SolidityKit.isBlank y = false)
    (h : u ++ x :: t = ' ' :: y :: t') : u = [' '] ∧ x = y ∧ t = t' :=
  allIn_cut (w := [' ']) (allIn_isBlank.mpr hu) (allIn_isBlank.mpr (by decide)) hx hy h

/-- A text of two slashes and a rest in which no others stand: only the front can be a match. -/
theorem misses_behind_slashes {p : Pattern} (hp : OpensWith p "//".toList) {rest : Text}
    (hrest : ¬ "//".toList <:+: '/' :: ' ' :: rest)
    (hfront : ∀ b r, Text.AtLineEnd r → p.matchAt? b ('/' :: '/' :: ' ' :: (rest ++ r)) = none) :
    Misses p ('/' :: '/' :: ' ' :: rest) := by
  intro r hr
  exact noneStarts_cons (fun b => hfront b r hr) (noneStarts_of_absent hp (by decide) hrest hr)

/-- The keyword of a line holds two slashes only in licence lines and file markers. -/
theorem slashes_keyword {l : SourceLine} (hl : l.isLicense = false) (hf : l.isFileMarker = false) :
    ¬ "//".toList <:+: l.keyword := by
  cases l with
  | license _ => simp [isLicense] at hl
  | fileMarker _ => simp [isFileMarker] at hf
  | directive _ => exact Text.absent_of_containsText rfl
  | relativeImport _ _ => exact Text.absent_of_containsText rfl
  | externalImport _ _ => exact Text.absent_of_containsText rfl
  | blank _ _ => exact Text.absent_of_containsText rfl
  | code _ _ => exact Text.absent_of_containsText rfl

theorem comment_keyword (l : SourceLine) : ¬ "/*".toList <:+: l.keyword := by
  cases l with
  | license _ => exact Text.absent_of_containsText rfl
  | fileMarker _ => exact Text.absent_of_containsText rfl
  | directive _ => exact Text.absent_of_containsText rfl
  | relativeImport _ _ => exact Text.absent_of_containsText rfl
  | externalImport _ _ => exact Text.absent_of_containsText rfl
  | blank _ _ => exact Text.absent_of_containsText rfl
  | code _ _ => exact Text.absent_of_containsText rfl

theorem pragma_keyword {l : SourceLine} (hl : l.isDirective = false) : ¬ "pragma".toList <:+: l.keyword := by
  cases l with
  | license _ => exact Text.absent_of_containsText rfl
  | fileMarker _ => exact Text.absent_of_containsText rfl
  | directive _ => simp [isDirective] at hl
  | relativeImport _ _ => exact Text.absent_of_containsText rfl
  | externalImport _ _ => exact Text.absent_of_containsText rfl
  | blank _ _ => exact Text.absent_of_containsText rfl
  | code _ _ => exact Text.absent_of_containsText rfl

theorem license_hits (x : FreeText) : Hits licenseLine (license x).text := by
  refine hits_of_text fun b r hb hr => ?_
  obtain ⟨e, he, -⟩ : ∃ e ∈ licenseLine.ends ⟨b, _, none⟩, e.rest = r :=
    licenseLine_way (u := [' ']) (x := ' ' :: x.text) hb rfl (by simp [x.harmless.noBreak]) hr
  obtain ⟨m, hm⟩ := matchAt?_isSome he
  obtain ⟨d, hd, ht, -⟩ := matchAt?_eq_some hm
  obtain ⟨-, u, y, r', ht', hu, hy, hr', hrest⟩ := mem_licenseLine hd
  obtain ⟨rfl, -, htag⟩ := slashes_cut (x := 'S') (y := 'S') hu (by decide) (by decide)
    ((List.append_right_inj "//".toList).mp ht').symm
  have hline := (List.append_right_inj "PDX-License-Identifier:".toList).mp htag
  obtain ⟨rfl, rfl⟩ := Text.line_cut hy (by simp [x.harmless.noBreak]) hr' hr hline
  rw [hrest] at ht
  have htext : (license x).text ++ r' = m.text ++ r' := ht
  refine ⟨m, [], r', hm, ?_, rfl, rfl, hr'⟩
  rw [List.append_nil]
  exact (List.append_cancel_right htext).symm

theorem file_toList : "file:".toList = ['f', 'i', 'l', 'e', ':'] := rfl

theorem sameLetters_file_head {k : Text} (h : SameLetters "file:".toList k) :
    ∃ c k', k = c :: k' ∧ SolidityKit.isBlank c = false ∧ sameLetter 'f' c = true := by
  rw [file_toList] at h
  cases h with
  | @cons _ c _ k' hc _ =>
      refine ⟨c, k', rfl, ?_, hc⟩
      have hcase : c = 'f' ∨ c = 'F' := by simpa [sameLetter] using hc
      rcases hcase with rfl | rfl <;> decide

theorem sameLetters_file_noBreak {k : Text} (h : SameLetters "file:".toList k) : '\n' ∉ k := by
  intro hm
  have hnot : ("file:".toList.any fun small => sameLetter small '\n') = false := rfl
  obtain ⟨i, hi, hki⟩ := List.getElem_of_mem hm
  have hlen := h.length_eq
  have := List.any_eq_false.mp hnot _ (List.getElem_mem (hlen ▸ hi))
  have h' := h.get (i := i) (by omega) hi
  simp only [List.get_eq_getElem, hki] at h'
  exact this h'

theorem sameLetters_File : SameLetters "file:".toList "File:".toList := by
  rw [file_toList, show "File:".toList = ['F', 'i', 'l', 'e', ':'] from rfl]
  simp [SameLetters, sameLetter]

theorem fileMarker_hits (x : FreeText) : Hits Shape.fileMarker (fileMarker x).text := by
  refine hits_of_text fun b r hb hr => ?_
  obtain ⟨e, he⟩ : ∃ e, e ∈ Shape.fileMarker.ends ⟨b, _, none⟩ :=
    fileMarker_way (u := [' ']) (k := "File:".toList) (r := ' ' :: (x.text ++ r)) rfl sameLetters_File
  obtain ⟨m, hm⟩ := matchAt?_isSome he
  obtain ⟨u, k, y, r', htext, ht, hu, hk, hy, hr'⟩ := matchAt?_fileMarker hm
  have hwhole : (fileMarker x).text ++ r = m.text ++ r' := ht
  obtain ⟨c, k', rfl, hc, -⟩ := sameLetters_file_head hk
  obtain ⟨rfl, -⟩ : u = [' '] ∧ _ := by
    rw [htext] at ht
    simp only [List.append_assoc, List.cons_append] at ht
    exact slashes_cut (y := 'F') hu hc (by decide) ((List.append_right_inj "//".toList).mp ht).symm
  have hmark : '\n' ∉ m.text := by
    have hk' := sameLetters_file_noBreak hk
    rw [htext]
    simp only [List.mem_append, not_or]
    exact ⟨by decide, by decide, hk', hy⟩
  have hline : '\n' ∉ (fileMarker x).text := by
    rw [show (fileMarker x).text = "// File:".toList ++ ' ' :: x.text from rfl, List.mem_append,
      List.mem_cons, not_or, not_or]
    exact ⟨by decide, by decide, x.harmless.noBreak⟩
  obtain ⟨htext', rfl⟩ := Text.line_cut hline hmark hr hr' hwhole
  exact ⟨m, [], r, hm, by rw [List.append_nil, htext'], rfl, rfl, hr⟩

theorem absent_behind_slashes {tag : Text} (htag : ¬ "//".toList <:+: tag) (x : FreeText) :
    ¬ "//".toList <:+: '/' :: ' ' :: (tag ++ ' ' :: x.text) := by
  intro h
  rcases infix_of_cons (a := ['/']) (x := ' ') (by decide) h with h | h
  · exact Text.absent_of_containsText rfl h
  rcases infix_of_cons (x := ' ') (by decide) h with h | h
  · exact htag h
  · exact x.harmless.slashes h

theorem licenseLine_line (l : SourceLine) {s : Text} (h : ShownBy s l) :
    if l.isLicense then Hits licenseLine s else Misses licenseLine s := by
  have hp : OpensWith Shape.licenseLine "//".toList := opensWith_licenseLine
  have hmiss := fun hl hf => isKeyword_slashes.misses hp h (slashes_keyword hl hf)
  cases l with
  | license x =>
      cases h
      exact license_hits x
  | fileMarker x =>
      cases h
      have hrest : ¬ "//".toList <:+: '/' :: ' ' :: ("File:".toList ++ ' ' :: x.text) :=
        absent_behind_slashes (Text.absent_of_containsText rfl) x
      refine misses_behind_slashes hp hrest fun b r hr => ?_
      rw [matchAt?_eq_none]
      intro d hd
      obtain ⟨-, u, y, r', ht, hu, -⟩ := mem_licenseLine hd
      obtain ⟨-, h, -⟩ := slashes_cut (x := 'S') (y := 'F') hu (by decide) (by decide)
        ((List.append_right_inj "//".toList).mp ht).symm
      simp at h
  | directive _ => exact hmiss rfl rfl
  | relativeImport _ _ => exact hmiss rfl rfl
  | externalImport _ _ => exact hmiss rfl rfl
  | blank _ _ => exact hmiss rfl rfl
  | code _ _ => exact hmiss rfl rfl

theorem fileMarker_line (l : SourceLine) {s : Text} (h : ShownBy s l) :
    if l.isFileMarker then Hits Shape.fileMarker s else Misses Shape.fileMarker s := by
  have hp : OpensWith Shape.fileMarker "//".toList := opensWith_fileMarker
  have hmiss := fun hl hf => isKeyword_slashes.misses hp h (slashes_keyword hl hf)
  cases l with
  | fileMarker x =>
      cases h
      exact fileMarker_hits x
  | license x =>
      cases h
      have hrest : ¬ "//".toList <:+: '/' :: ' ' :: ("SPDX-License-Identifier:".toList ++ ' ' :: x.text) :=
        absent_behind_slashes (Text.absent_of_containsText rfl) x
      refine misses_behind_slashes hp hrest fun b r hr => ?_
      rw [Option.eq_none_iff_forall_ne_some]
      intro m hm
      obtain ⟨u, k, y, r', htext, ht, hu, hk, -⟩ := matchAt?_fileMarker hm
      obtain ⟨c, k', rfl, hc, hsame⟩ := sameLetters_file_head hk
      have hread : "//".toList ++ (u ++ c :: (k' ++ y ++ r')) = m.text ++ r' := by
        rw [htext]
        simp
      obtain ⟨-, rfl, -⟩ := slashes_cut (y := 'S') hu hc (by decide)
        ((List.append_right_inj "//".toList).mp (hread.trans ht.symm))
      exact absurd hsame (by decide)
  | directive _ => exact hmiss rfl rfl
  | relativeImport _ _ => exact hmiss rfl rfl
  | externalImport _ _ => exact hmiss rfl rfl
  | blank _ _ => exact hmiss rfl rfl
  | code _ _ => exact hmiss rfl rfl

/-! ### Comments and version directives -/

theorem blockComment_line (l : SourceLine) {s : Text} (h : ShownBy s l) : Misses Shape.blockComment s := by
  have hp : OpensWith Shape.blockComment "/*".toList := opensWith_blockComment
  exact isKeyword_comment.misses hp h (comment_keyword l)

theorem isDirective_text (version : Phrase) : IsDirective (directive version).text := by
  refine ⟨version.text, rfl, ?_, fun hm => version.harmless.chars ';' hm (by decide)⟩
  intro hnil
  have := version.notBlank
  rw [hnil] at this
  simp at this

theorem versionDirective_line (l : SourceLine) {s : Text} (h : ShownBy s l) :
    if l.isDirective then Hits versionDirective s else Misses versionDirective s := by
  have hmiss : l.isDirective = false → Misses versionDirective s := by
    intro hl
    have hword : "pragma".toList <+: opening := ⟨" solidity ".toList, rfl⟩
    have hp : OpensWith versionDirective "pragma".toList := fun b t m hm =>
      hword.trans (opensWith_versionDirective b t m hm)
    exact isKeyword_pragma.misses hp h (pragma_keyword hl)
  cases l with
  | directive version =>
      cases h
      refine hits_of_text fun b r _ hr => ?_
      have hm : versionDirective.matchAt? b ((directive version).text ++ r) =
          some ⟨(directive version).text, none⟩ :=
        matchAt?_versionDirective.mpr ⟨isDirective_text version, rfl, List.prefix_append _ _⟩
      exact ⟨_, [], r, hm, by rw [List.append_nil], rfl, rfl, hr⟩
  | license _ => exact hmiss rfl
  | fileMarker _ => exact hmiss rfl
  | relativeImport _ _ => exact hmiss rfl
  | externalImport _ _ => exact hmiss rfl
  | blank _ _ => exact hmiss rfl
  | code _ _ => exact hmiss rfl

end SourceLine

end SolidityKit
