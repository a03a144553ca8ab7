/-
Where relative imports stand in a text, and what may still become one.

The shapes of relative imports are bound to the start of a line, but between the word `import` and the path they
run over line feeds.  So the last lines of a text can begin an import that the text below completes: `Leads`.
Whatever would complete it, one of three short texts does as well (`Leads.exists_probe`), which turns a
statement about all continuations into one about three.

The import statement, by which the lines of a merged text are read, does not care for blanks around a
line (`importTarget?_trim`).
-/
import SolidityKit.Proofs.Source.Imports
import SolidityKit.Proofs.Text.Lines

namespace SolidityKit.Shape

open Pattern

variable {b : Option Char} {t u v w x : Text} {IsNames : Text → Prop}

/-! ### Relative imports at the start of a text -/

theorem IsRelativeImport.append_blank (h : IsRelativeImport IsNames x) (hw : Text.isBlank w = true) :
    IsRelativeImport IsNames (x ++ w) := by
  obtain ⟨u, n, s, w', rfl, hne, hu, hn, hs, hw'⟩ := h
  exact ⟨u, n, s, w' ++ w, by simp, hne, hu, hn, hs, by simp [hw', hw]⟩

theorem isRelativeImport_mayBeNames :
    IsRelativeImport MayBeNames x ↔ IsRelativeImport (· = []) x ∨ IsRelativeImport IsNamesFrom x := by
  constructor
  · rintro ⟨u, n, s, w, hx, hne, hu, hn | hn, hs, hw⟩
    · exact Or.inl ⟨u, n, s, w, hx, hne, hu, hn, hs, hw⟩
    · exact Or.inr ⟨u, n, s, w, hx, hne, hu, hn, hs, hw⟩
  · rintro (⟨u, n, s, w, hx, hne, hu, hn, hs, hw⟩ | ⟨u, n, s, w, hx, hne, hu, hn, hs, hw⟩)
    · exact ⟨u, n, s, w, hx, hne, hu, Or.inl hn, hs, hw⟩
    · exact ⟨u, n, s, w, hx, hne, hu, Or.inr hn, hs, hw⟩

/-- The text begins with a relative import that ends where a line ends. -/
def StartsRelative (t : Text) : Prop :=
  ∃ x r, t = x ++ r ∧ IsRelativeImport MayBeNames x ∧ Text.AtLineEnd r

theorem startsRelative_iff (hb : b = none ∨ b = some '\n') :
    StartsRelative t ↔
      (∃ m, relativeImport.matchAt? b t = some m) ∨ ∃ m, relativeImportOfNames.matchAt? b t = some m := by
  constructor
  · rintro ⟨x, r, rfl, hx, hr⟩
    rcases isRelativeImport_mayBeNames.mp hx with hx | hx
    · exact Or.inl (relativeImport_matches hb hx hr)
    · exact Or.inr (relativeImportOfNames_matches hb hx hr)
  · rintro (⟨m, hm⟩ | ⟨m, hm⟩)
    · obtain ⟨-, hx, r, ht, hr⟩ := matchAt?_relativeImport hm
      exact ⟨m.text, r, ht, isRelativeImport_mayBeNames.mpr (Or.inl hx), hr⟩
    · obtain ⟨-, hx, r, ht, hr⟩ := matchAt?_relativeImportOfNames hm
      exact ⟨m.text, r, ht, isRelativeImport_mayBeNames.mpr (Or.inr hx), hr⟩

/-- Blanks at the end do not matter. -/
theorem StartsRelative.append_blank (h : StartsRelative t) (hw : Text.isBlank w = true) :
    StartsRelative (t ++ w) := by
  obtain ⟨x, r, rfl, hx, rfl | ⟨r, rfl⟩⟩ := h
  · exact ⟨x ++ w, [], by simp, hx.append_blank hw, Or.inl rfl⟩
  · exact ⟨x, '\n' :: r ++ w, by simp, hx, Or.inr ⟨r ++ w, rfl⟩⟩

theorem StartsRelative.opens (h : StartsRelative t) : "import".toList <+: t := by
  obtain ⟨x, r, rfl, ⟨u, n, s, w, rfl, -⟩, -⟩ := h
  exact ⟨u ++ (n ++ (s ++ w)) ++ r, by simp⟩

/-! ### Texts that lead to an import -/

/-- With some text below it, the text begins with a relative import. -/
def Leads (u : Text) : Prop := ∃ more, StartsRelative (u ++ '\n' :: more)

theorem Leads.opens (h : Leads u) : "import".toList <+: u := by
  obtain ⟨more, h⟩ := h
  exact Text.prefix_line (by decide) (Or.inr ⟨more, rfl⟩) h.opens

/-- A line feed inside a text stands behind or within its first part. -/
theorem newline_cut {a r more : Text} (h : u ++ '\n' :: more = a ++ r) :
    (∃ u', u = a ++ u' ∧ u' ++ '\n' :: more = r) ∨ ∃ a', a = u ++ '\n' :: a' := by
  rcases List.append_eq_append_iff.mp h with ⟨e, rfl, he⟩ | ⟨e, rfl, he⟩
  · cases e with
    | nil => exact Or.inl ⟨[], by simp, by simpa using he⟩
    | cons c e =>
        obtain ⟨rfl, -⟩ := List.cons.inj he
        exact Or.inr ⟨e, rfl⟩
  · exact Or.inl ⟨e, rfl, he.symm⟩

/-- It stands behind the first part, if that is within a line. -/
theorem newline_behind {a r more : Text} (ha : '\n' ∉ a) (h : u ++ '\n' :: more = a ++ r) :
    ∃ u', u = a ++ u' ∧ u' ++ '\n' :: more = r := by
  rcases newline_cut h with h | ⟨a', rfl⟩
  · exact h
  · simp at ha

/-- A relative path, as the rest of an import. -/
def targetProbe : Text := "\"./x\";".toList

/-- The closing brace of the names, and what follows. -/
def namesProbe : Text := "\x7d from \"./x\";".toList

/-- What follows the names. -/
def fromProbe : Text := "from \"./x\";".toList

theorem isRelativeTarget_targetProbe : IsRelativeTarget targetProbe :=
  ⟨'"', ['.'], ['x'], rfl, Or.inl rfl, Or.inl rfl, by decide⟩

/-- If a line feed stands in the names of an import, one of the texts completes them. -/
theorem IsNamesFrom.newline_cut {n r more : Text} (hn : IsNamesFrom n) (h : u ++ '\n' :: more = n ++ r) :
    (∃ u', u = n ++ u' ∧ u' ++ '\n' :: more = r) ∨
      ∃ p ∈ [targetProbe, namesProbe, fromProbe], ∃ n', IsNamesFrom n' ∧
        u ++ '\n' :: p = n' ++ targetProbe := by
  obtain ⟨names, w, w', rfl, hne, hnames, hwne, hw, hwne', hw'⟩ := hn
  have h' : u ++ '\n' :: more = ['{'] ++ (names ++ (['}'] ++ (w ++ ("from".toList ++ (w' ++ r))))) := by
    rw [h]
    simp
  obtain ⟨u₁, rfl, h₁⟩ := newline_behind (by decide) h'
  rcases Shape.newline_cut h₁ with ⟨u₂, rfl, h₂⟩ | ⟨a, rfl⟩
  · obtain ⟨u₃, rfl, h₃⟩ := newline_behind (by decide) h₂
    rcases Shape.newline_cut h₃ with ⟨u₄, rfl, h₄⟩ | ⟨a, rfl⟩
    · obtain ⟨u₅, rfl, h₅⟩ := newline_behind (by decide) h₄
      rcases Shape.newline_cut h₅ with ⟨u₆, rfl, h₆⟩ | ⟨a, rfl⟩
      · exact Or.inl ⟨u₆, by simp, h₆⟩
      · -- in the blanks behind `from`
        refine Or.inr ⟨targetProbe, by simp,
          '{' :: (names ++ '}' :: (w ++ ("from".toList ++ (u₅ ++ ['\n'])))), ?_, ?_⟩
        · simp only [Text.isBlank_append, Bool.and_eq_true] at hw'
          exact ⟨names, w, u₅ ++ ['\n'], rfl, hne, hnames, hwne, hw, by simp, by simp [hw'.1]⟩
        · simp
    · -- in the blanks before `from`
      refine Or.inr ⟨fromProbe, by simp,
        '{' :: (names ++ '}' :: ((u₃ ++ ['\n']) ++ ("from".toList ++ [' ']))), ?_, ?_⟩
      · simp only [Text.isBlank_append, Bool.and_eq_true] at hw
        exact ⟨names, u₃ ++ ['\n'], [' '], rfl, hne, hnames, by simp, by simp [hw.1], by simp, by decide⟩
      · have hprobe : fromProbe = "from".toList ++ ' ' :: targetProbe := by decide
        rw [hprobe]
        simp
  · -- in the names
    refine Or.inr ⟨namesProbe, by simp,
      '{' :: ((u₁ ++ ['\n']) ++ '}' :: ([' '] ++ ("from".toList ++ [' ']))), ?_, ?_⟩
    · simp only [List.mem_append, not_or] at hnames
      refine ⟨u₁ ++ ['\n'], [' '], [' '], rfl, by simp, ?_, by simp, by decide, by simp, by decide⟩
      simpa using hnames.1
    · have hprobe : namesProbe = '}' :: ' ' :: ("from".toList ++ ' ' :: targetProbe) := by decide
      rw [hprobe]
      simp

theorem IsRelativeTarget.noBreak {s : Text} (h : IsRelativeTarget s) : '\n' ∉ s := by
  obtain ⟨q, dots, z, rfl, hq, hdots, hz⟩ := h
  have hq' : '\n' ≠ q := by rcases hq with rfl | rfl <;> decide
  have hdots' : '\n' ∉ dots := by rcases hdots with rfl | rfl <;> decide
  simp [hq', hdots', hz]

/-- **What some text completes, one of three completes.** -/
theorem Leads.exists_probe (h : Leads u) :
    ∃ p ∈ [targetProbe, namesProbe, fromProbe], StartsRelative (u ++ '\n' :: p) := by
  obtain ⟨more, x, r, ht, ⟨w, n, s, w', rfl, hne, hw, hn, hs, hw'⟩, hr⟩ := h
  have h₀ : u ++ '\n' :: more = "import".toList ++ (w ++ (n ++ (s ++ (w' ++ r)))) := by
    rw [ht]
    simp
  obtain ⟨u₁, rfl, h₁⟩ := newline_behind (by decide) h₀
  rcases newline_cut h₁ with ⟨u₂, rfl, h₂⟩ | ⟨a, rfl⟩
  · have hnames : (∃ u', u₂ = n ++ u' ∧ u' ++ '\n' :: more = s ++ (w' ++ r)) ∨
        ∃ p ∈ [targetProbe, namesProbe, fromProbe], ∃ n', IsNamesFrom n' ∧
          u₂ ++ '\n' :: p = n' ++ targetProbe := by
      rcases hn with rfl | hn
      · exact Or.inl ⟨u₂, rfl, h₂⟩
      · exact hn.newline_cut h₂
    rcases hnames with ⟨u₃, rfl, h₃⟩ | ⟨p, hp, n', hn', hcut⟩
    · -- the path is complete, and so is the import
      obtain ⟨u₄, rfl, h₄⟩ := newline_behind hs.noBreak h₃
      refine ⟨targetProbe, by simp, ?_⟩
      rcases newline_cut h₄ with ⟨u₅, rfl, h₅⟩ | ⟨a, rfl⟩
      · refine ⟨"import".toList ++ (w ++ (n ++ (s ++ w'))), u₅ ++ '\n' :: targetProbe, by simp,
          ⟨w, n, s, w', rfl, hne, hw, hn, hs, hw'⟩, ?_⟩
        cases u₅ with
        | nil => exact Or.inr ⟨_, rfl⟩
        | cons c u₅ =>
            rcases hr with rfl | ⟨r, rfl⟩
            · simp at h₅
            · obtain ⟨rfl, -⟩ := List.cons.inj h₅
              exact Or.inr ⟨_, rfl⟩
      · simp only [Text.isBlank_append, Bool.and_eq_true] at hw'
        exact ⟨"import".toList ++ (w ++ (n ++ (s ++ u₄))), '\n' :: targetProbe, by simp,
          ⟨w, n, s, u₄, rfl, hne, hw, hn, hs, hw'.1⟩, Or.inr ⟨_, rfl⟩⟩
    · refine ⟨p, hp, "import".toList ++ (w ++ (n' ++ (targetProbe ++ []))), [], ?_,
        ⟨w, n', targetProbe, [], rfl, hne, hw, Or.inr hn', isRelativeTarget_targetProbe, rfl⟩, Or.inl rfl⟩
      simp only [List.append_assoc, List.append_nil]
      rw [hcut]
  · -- in the blanks behind `import`
    simp only [Text.isBlank_append, Bool.and_eq_true] at hw
    refine ⟨targetProbe, by simp, "import".toList ++ ((u₁ ++ ['\n']) ++ ([] ++ (targetProbe ++ []))),
      [], by simp, ⟨u₁ ++ ['\n'], [], targetProbe, [], rfl, by simp, by simp [hw.1], Or.inl rfl,
        isRelativeTarget_targetProbe, rfl⟩,
      Or.inl rfl⟩

/-! ### Reading the path off a line -/

theorem IsImport.last {path : Text} (h : IsImport x path) : ∃ x', x = x' ++ [';'] := by
  obtain ⟨u, n, q, q', rfl, -⟩ := h
  exact ⟨"import".toList ++ (u ++ (n ++ q :: (path ++ [q']))), by simp⟩

/-- What stands before an import statement does not matter. -/
theorem importStatement_before (b b' : Option Char) (t : Text) :
    importStatement.matchAt? b t = importStatement.matchAt? b' t := by
  refine Option.ext fun m => ?_
  rw [matchAt?_importStatement, matchAt?_importStatement]

/-- No import statement reaches into blanks. -/
theorem noneCrosses_importStatement (hv : Text.isBlank v = true) : NoneCrosses importStatement u v := by
  intro s _ _ b
  refine Option.ext fun m => ?_
  rw [matchAt?_importStatement, matchAt?_importStatement]
  refine exists_congr fun path => and_congr_right fun himport => and_congr_right fun _ => ?_
  obtain ⟨x', hx'⟩ := himport.last
  rw [hx']
  exact Text.prefix_append_blank (by decide) hv

/-- Blanks around a text do not change its import statements. -/
theorem allMatches_importStatement_between (hu : Text.isBlank u = true) (hv : Text.isBlank v = true)
    (t : Text) :
    importStatement.allMatches (u ++ t ++ v) = importStatement.allMatches t := by
  have hopens : OpensWith importStatement ('i' :: "mport".toList) := opensWith_importStatement
  have hfront := piecesFrom_plain (b := none) (noneStarts_blank hopens (by decide) hu (t ++ v))
  have hback := piecesFrom_plain (b := lastOf (lastOf none u) t) (noneStarts_blank hopens (by decide) hv [])
  rw [List.append_nil] at hback
  rw [allMatches, allMatches, pieces, pieces, List.append_assoc, hfront,
    piecesFrom_append (noneCrosses_importStatement hv), hback,
    piecesFrom_before importStatement_before (lastOf none u) none]
  simp only [List.filterMap_append, filterMap_match?_plain, piecesFrom, List.append_nil, List.nil_append]

theorem importTarget?_trim (line : Text) : Text.importTarget? (Text.trim line) = Text.importTarget? line := by
  obtain ⟨u, v, hline, hu, hv⟩ := Text.trim_split line
  have hfirst : importStatement.first? (Text.trim line) = importStatement.first? line := by
    conv_rhs => rw [hline]
    rw [first?, first?, allMatches_importStatement_between hu hv]
  unfold Text.importTarget? Text.isImportLine
  rw [hfirst, (Text.trimmed_trim line).trim_eq]

theorem isExternalImport_trim (line : Text) :
    Text.isExternalImport (Text.trim line) = Text.isExternalImport line := by
  unfold Text.isExternalImport
  rw [importTarget?_trim]

theorem isExternalImport_of_isBlank {line : Text} (h : Text.isBlank line = true) :
    Text.isExternalImport line = false := by
  rw [← isExternalImport_trim, Text.trim_eq_nil_iff.mpr h]
  rfl

/-- A line that imports a relative path. -/
def IsRelativeLine (line : Text) : Prop :=
  ∃ target, Text.importTarget? line = some target ∧ Text.isRelativeTarget target = true

theorem isRelativeLine_trim {line : Text} : IsRelativeLine (Text.trim line) ↔ IsRelativeLine line := by
  unfold IsRelativeLine
  rw [importTarget?_trim]

theorem IsRelativeLine.notBlank {line : Text} (h : IsRelativeLine line) : Text.isBlank line = false := by
  obtain ⟨target, htarget, -⟩ := h
  rw [Bool.eq_false_iff]
  intro hblank
  unfold Text.importTarget? Text.isImportLine at htarget
  rw [Text.trim_eq_nil_iff.mpr hblank] at htarget
  simp at htarget

end SolidityKit.Shape
