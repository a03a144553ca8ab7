/-
Canonical import lines, and what the import shapes make of them.

The two shapes of relative imports differ in what may stand before the path, and are treated as one here:
`RelativeShape` is what a proof needs to know of either.  A relative import of the right kind is a match and
takes the blanks behind it along; the lazy middle of the shape cannot run past the closing quote, because
the path holds none and the line ends behind the semicolon (`relativeImport_cut`).  All other lines are
missed.  What is left of the imports is told apart from other lines by the import statement, which reads
the path off the line (`importTarget?_external`).
-/
import SolidityKit.Proofs.Source.Canonical

namespace SolidityKit

open Pattern Shape Source

namespace SourceLine

/-! ### The parts of an import line -/

theorem isNamesFrom_namesText (names : Phrase) : IsNamesFrom (namesText (some names)) := by
  refine ⟨names.text, [' '], [' '], rfl, ?_, ?_, by simp, by decide, by simp, by decide⟩
  · intro hnil
    have := names.notBlank
    rw [hnil] at this
    simp at this
  · exact fun hm => names.harmless.chars '}' hm (by decide)

theorem mayBeNames_namesText (names : Option Phrase) : MayBeNames (namesText names) := by
  cases names with
  | none => exact Or.inl rfl
  | some names => exact Or.inr (isNamesFrom_namesText names)

theorem Harmless.noQuote {s : Text} (h : Harmless s) : ∀ c ∈ s, ¬ IsQuote c := by
  rintro c hc (rfl | rfl)
  · exact h.chars '"' hc (by decide)
  · exact h.chars '\'' hc (by decide)

theorem isRelativeTarget_text (path : RelativePath) : IsRelativeTarget ('"' :: (path.text ++ ['"', ';'])) := by
  have hdots : ∃ dots z, path.text = dots ++ '/' :: z ∧ (dots = ['.'] ∨ dots = ['.', '.']) := by
    rcases path.relative with ⟨z, hz⟩ | ⟨z, hz⟩
    · exact ⟨['.'], z, hz.symm, Or.inl rfl⟩
    · exact ⟨['.', '.'], z, hz.symm, Or.inr rfl⟩
  obtain ⟨dots, z, htext, hdots⟩ := hdots
  refine ⟨'"', dots, z, by rw [htext]; simp, Or.inl rfl, hdots, ?_⟩
  have := path.harmless.noBreak
  rw [htext] at this
  simp only [List.mem_append, List.mem_cons, not_or] at this
  exact this.2.2

theorem importText_append (names : Option Phrase) (path r : Text) :
    importText names path ++ r =
      "import".toList ++ ' ' :: (namesText names ++ '"' :: (path ++ '"' :: ';' :: r)) := by
  have hword : ∀ word : Text, word ++ ' ' :: (namesText names ++ '"' :: (path ++ ['"', ';'])) ++ r =
      word ++ ' ' :: (namesText names ++ '"' :: (path ++ '"' :: ';' :: r)) := by simp
  exact hword _

/-- A path is read to the closing quote of an import line: it holds no quote itself, and nothing but a line end
follows the semicolon. -/
theorem path_cut {path s r r' : Text} (hpath : Harmless path) (hr : Text.AtLineEnd r) (hbreak : '\n' ∉ s)
    (h : s ++ '"' :: ';' :: r' = path ++ '"' :: ';' :: r) : s = path := by
  rcases List.append_eq_append_iff.mp h with ⟨e, rfl, he⟩ | ⟨e, rfl, he⟩
  · cases e with
    | nil => simp
    | cons c e =>
        obtain ⟨rfl, -⟩ := List.cons.inj he
        exact absurd (hpath.chars '"' (by simp)) (by decide)
  · rcases e with _ | ⟨q, _ | ⟨c, e⟩⟩
    · simp
    · simp at he
    · obtain ⟨-, rfl⟩ := List.cons.inj (List.cons.inj he).2
      rcases hr with hr | ⟨t, hr⟩
      · simp at hr
      · cases e with
        | nil => simp at hr
        | cons c e =>
            obtain ⟨rfl, -⟩ := List.cons.inj hr
            exact absurd (by simp) hbreak

/-- A relative import read at the start of an import line is that line with blanks behind it. -/
theorem relativeImport_cut {IsNames : Text → Prop} (hnames : ∀ n, IsNames n → MayBeNames n) {x r r' : Text}
    (hx : IsRelativeImport IsNames x) {names : Option Phrase} {path : Text} (hpath : Harmless path)
    (hr : Text.AtLineEnd r) (h : x ++ r' = importText names path ++ r) :
    ∃ w, x = importText names path ++ w ∧ r = w ++ r' ∧ Text.isBlank w = true ∧
      IsNames (namesText names) ∧ path.head? = some '.' := by
  obtain ⟨u, n, s, w, rfl, -, hu, hn, ⟨q, dots, z, rfl, hq, hdots, hz⟩, hw⟩ := hx
  have hread : u ++ (n ++ q :: ((dots ++ '/' :: z) ++ q :: ';' :: (w ++ r'))) =
      [' '] ++ (namesText names ++ '"' :: (path ++ '"' :: ';' :: r)) := by
    rw [importText_append] at h
    refine (List.append_right_inj "import".toList).mp (Eq.trans ?_ h)
    have hword : ∀ word : Text, word ++ (u ++ (n ++ q :: ((dots ++ '/' :: z) ++ q :: ';' :: (w ++ r')))) =
        word ++ (u ++ (n ++ (q :: (dots ++ '/' :: (z ++ [q, ';'])) ++ w))) ++ r' := by simp
    exact hword _
  obtain ⟨rfl, rfl, rfl, hpaths⟩ := importHead_cut hu (by decide) (hnames n hn) (mayBeNames_namesText names) hq
    (Or.inl rfl) hread
  have hbreak : '\n' ∉ dots ++ '/' :: z := by
    rcases hdots with rfl | rfl <;> simp [hz]
  have hsame : dots ++ '/' :: z = path := path_cut hpath hr hbreak hpaths
  rw [hsame] at hpaths
  refine ⟨w, ?_, ?_, hw, hn, ?_⟩
  · rw [← hsame, importText_append]
    exact congrArg ("import".toList ++ ·) (by simp)
  · simpa using hpaths.symm
  · rw [← hsame]
    rcases hdots with rfl | rfl <;> rfl

/-! ### Relative imports -/

/-- What is used of a shape of relative imports, with what it lets stand before the path. -/
structure RelativeShape (p : Pattern) (IsNames : Text → Prop) : Prop where
  /-- It begins with the word `import`. -/
  opens : OpensWith p "import".toList
  /-- Its matches are relative imports. -/
  read : ∀ b t m, p.matchAt? b t = some m → IsRelativeImport IsNames m.text ∧
    ∃ r, t = m.text ++ r ∧ Text.AtLineEnd r
  /-- It matches the relative imports. -/
  matches_ : ∀ b x r, (b = none ∨ b = some '\n') → IsRelativeImport IsNames x → Text.AtLineEnd r →
    ∃ m, p.matchAt? b (x ++ r) = some m
  /-- What stands before the path is nothing or names. -/
  names : ∀ n, IsNames n → MayBeNames n

theorem relativeShape_names : RelativeShape Shape.relativeImportOfNames IsNamesFrom where
  opens := opensWith_relativeImportOfNames
  read _ _ _ h := (matchAt?_relativeImportOfNames h).2
  matches_ _ _ _ := relativeImportOfNames_matches
  names _ := Or.inr

theorem relativeShape_whole : RelativeShape Shape.relativeImport (· = []) where
  opens := opensWith_relativeImport
  read _ _ _ h := (matchAt?_relativeImport h).2
  matches_ _ _ _ := relativeImport_matches
  names _ := Or.inl

variable {p : Pattern} {IsNames : Text → Prop}

theorem RelativeShape.hits (hp : RelativeShape p IsNames) {names : Option Phrase}
    (hn : IsNames (namesText names)) (path : RelativePath) : Hits p (relativeImport names path).text := by
  refine hits_of_text fun b r hb hr => ?_
  have himport : IsRelativeImport IsNames (importText names path.text) :=
    ⟨[' '], namesText names, '"' :: (path.text ++ ['"', ';']), [], by simp [importText], by simp, by decide, hn,
      isRelativeTarget_text path, rfl⟩
  obtain ⟨m, hm⟩ := hp.matches_ b _ r hb himport hr
  obtain ⟨hread, r', ht, hr'⟩ := hp.read b _ m hm
  obtain ⟨w, htext, hrest, hw, -⟩ := relativeImport_cut hp.names hread path.harmless hr ht.symm
  exact ⟨m, w, r', hm, htext, hrest, hw, hr'⟩

/-- An import line of another kind is missed: the path is not relative, or what stands before it differs. -/
theorem RelativeShape.misses_import (hp : RelativeShape p IsNames) {names : Option Phrase} {path : Text}
    (hpath : Harmless path) (hother : IsNames (namesText names) → path.head? ≠ some '.') :
    Misses p (importText names path) := by
  intro r hr
  have htail : ¬ "import".toList <:+: "mport".toList ++ ' ' ::
    (namesText names ++ '"' :: (path ++ ['"', ';'])) := by
    intro h
    rcases infix_of_cons (x := ' ') (by decide) h with h | h
    · exact Text.absent_of_containsText rfl h
    · exact isKeyword_import.absent_import names hpath.imports h
  refine noneStarts_cons (c := 'i') (fun b => ?_) (noneStarts_of_absent hp.opens (by decide) htail hr)
  rw [Option.eq_none_iff_forall_ne_some]
  intro m hm
  obtain ⟨hread, r', ht, -⟩ := hp.read b _ m hm
  obtain ⟨-, -, -, -, hn, hdot⟩ := relativeImport_cut hp.names hread hpath hr ht.symm
  exact hother hn hdot

/-- Lines that are no imports are missed. -/
theorem RelativeShape.misses_other (hp : RelativeShape p IsNames) {l : SourceLine} {s : Text} (h : ShownBy s l)
    (hl : ¬ "import".toList <:+: l.keyword) : Misses p s := isKeyword_import.misses hp.opens h hl

theorem import_keyword {l : SourceLine} (hn : l.isRelativeImportOfNames = false)
    (hr : l.isRelativeImport = false) (he : l.isExternalImport = false) : ¬ "import".toList <:+: l.keyword := by
  cases l with
  | license _ => exact Text.absent_of_containsText rfl
  | fileMarker _ => exact Text.absent_of_containsText rfl
  | directive _ => exact Text.absent_of_containsText rfl
  | relativeImport names path => cases names <;> simp [isRelativeImport, isRelativeImportOfNames] at hn hr
  | externalImport names path => simp [isExternalImport] at he
  | blank _ _ => exact Text.absent_of_containsText rfl
  | code _ _ => exact Text.absent_of_containsText rfl

theorem relativeImportOfNames_line (l : SourceLine) {s : Text} (h : ShownBy s l) :
    if l.isRelativeImportOfNames then Hits Shape.relativeImportOfNames s
    else Misses Shape.relativeImportOfNames s := by
  have hp := relativeShape_names
  have hmiss := fun hn hr he => hp.misses_other h (import_keyword hn hr he)
  cases l with
  | relativeImport names path =>
      cases h
      cases names with
      | some names => exact hp.hits (isNamesFrom_namesText names) path
      | none =>
          refine hp.misses_import path.harmless fun hn => ?_
          obtain ⟨s, hs⟩ := isNamesFrom_head hn
          simp [namesText] at hs
  | externalImport names path =>
      cases h
      exact hp.misses_import path.harmless fun _ => path.external
  | license _ => exact hmiss rfl rfl rfl
  | directive _ => exact hmiss rfl rfl rfl
  | fileMarker _ => exact hmiss rfl rfl rfl
  | blank _ _ => exact hmiss rfl rfl rfl
  | code _ _ => exact hmiss rfl rfl rfl

theorem relativeImport_line (l : SourceLine) {s : Text} (h : ShownBy s l) :
    if l.isRelativeImport then Hits Shape.relativeImport s else Misses Shape.relativeImport s := by
  have hp := relativeShape_whole
  have hmiss := fun hn hr he => hp.misses_other h (import_keyword hn hr he)
  cases l with
  | relativeImport names path =>
      cases h
      cases names with
      | none => exact hp.hits rfl path
      | some names => exact hp.misses_import path.harmless fun hn => by simp [namesText] at hn
  | externalImport names path =>
      cases h
      exact hp.misses_import path.harmless fun _ => path.external
  | license _ => exact hmiss rfl rfl rfl
  | directive _ => exact hmiss rfl rfl rfl
  | fileMarker _ => exact hmiss rfl rfl rfl
  | blank _ _ => exact hmiss rfl rfl rfl
  | code _ _ => exact hmiss rfl rfl rfl

/-! ### Reading the path off a line -/

theorem trimmed_importText (names : Option Phrase) (path : Text) : Text.Trimmed (importText names path) := by
  have hends : importText names path =
      'i' :: ("mport".toList ++ ' ' :: (namesText names ++ '"' :: (path ++ ['"'])) ++ [';']) := by
    simp [importText]
  rw [hends]
  exact .of_ends (by decide) (by decide) _

theorem importTarget?_external (names : Option Phrase) (path : ExternalPath) :
    Text.importTarget? (importText names path.text) = some path.text := by
  have himport : IsImport (importText names path.text) path.text :=
    ⟨[' '], namesText names, '"', '"', by simp [importText], by simp, by decide, mayBeNames_namesText names,
      Or.inl rfl, Or.inl rfl, path.nonempty, Harmless.noQuote path.harmless⟩
  have hmatch : importStatement.matchAt? none (importText names path.text) =
      some ⟨importText names path.text, some path.text⟩ :=
    matchAt?_importStatement.mpr ⟨path.text, himport, rfl, List.prefix_rfl⟩
  have hline : Text.isImportLine (importText names path.text) = true := by
    unfold Text.isImportLine
    rw [(trimmed_importText names path.text).trim_eq, List.isPrefixOf_iff_prefix]
    exact ⟨namesText names ++ '"' :: (path.text ++ ['"', ';']), rfl⟩
  unfold Text.importTarget?
  rw [if_pos hline, first?_of_matchAt? hmatch (by simp [importText])]
  rfl

theorem isExternalImport_external (names : Option Phrase) (path : ExternalPath) :
    Text.isExternalImport (importText names path.text) = true := by
  have hdot : path.text.head? ≠ some '.' := path.external
  unfold Text.isExternalImport
  rw [importTarget?_external]
  simp [Text.isRelativeTarget, hdot]

/-- A line is an import line only if the word `import` stands in it. -/
theorem isExternalImport_of_absent {s : Text} (h : ¬ "import".toList <:+: s) :
    Text.isExternalImport s = false := by
  have hline : Text.isImportLine s = false := by
    rw [Bool.eq_false_iff]
    intro hpre
    unfold Text.isImportLine at hpre
    rw [List.isPrefixOf_iff_prefix] at hpre
    obtain ⟨u, v, hs, -, -⟩ := Text.trim_split s
    have htrim : Text.trim s <:+: s := ⟨u, v, hs.symm⟩
    have hword : "import".toList <+: "import ".toList := ⟨[' '], rfl⟩
    exact h ((hword.trans hpre).isInfix.trans htrim)
  unfold Text.isExternalImport Text.importTarget?
  rw [hline]
  rfl

end SourceLine

end SolidityKit
