/-
What the three import shapes match.

Two recognisers of relative imports stand side by side: the shapes for a whole line, which are removed from
a source, and the import statement, which reads the path off a line of the merged text.  Both begin alike:
the word `import`, blanks, perhaps names in braces, and a quote.  `importHead_cut` says that this beginning
can be read in one way only, and with it an import statement is determined by the place where it stands
(`isImport_unique`).
-/
import SolidityKit.Proofs.Source.Shapes

namespace SolidityKit.Shape

open Pattern

variable {b : Option Char} {t r : Text} {cap : Option Text} {d : Cursor} {m : Match}

/-! ### Names and paths -/

/-- The text between the word `import` with its blanks and the path, in an import of names. -/
def IsNamesFrom (s : Text) : Prop :=
  ∃ n u v, s = '{' :: (n ++ '}' :: (u ++ ("from".toList ++ v))) ∧ n ≠ [] ∧ '}' ∉ n ∧
    u ≠ [] ∧ Text.isBlank u = true ∧ v ≠ [] ∧ Text.isBlank v = true

theorem mem_namesFrom :
    d ∈ (inOrder namesFrom).ends ⟨b, t, cap⟩ ↔
      ∃ s r, t = s ++ r ∧ IsNamesFrom s ∧ d = ⟨lastOf b s, r, cap⟩ := by
  simp only [namesFrom, mem_ends_inOrder_cons, mem_ends_inOrder_nil, word, blank, noneOf]
  constructor
  · rintro ⟨e, he, f, hf, g, hg, i, hi, j, hj, k, hk, rfl⟩
    obtain ⟨r, rfl, rfl⟩ := mem_ends_one_eq.mp he
    obtain ⟨n, r, rfl, hne, hn, rfl⟩ := mem_ends_oneOrMore.mp hf
    obtain ⟨r, rfl, rfl⟩ := mem_ends_one_eq.mp hg
    obtain ⟨u, r, rfl, hune, hu, rfl⟩ := mem_ends_oneOrMore.mp hi
    obtain ⟨r, rfl, rfl⟩ := mem_ends_literal.mp hj
    obtain ⟨v, r, rfl, hvne, hv, rfl⟩ := mem_ends_oneOrMore.mp hk
    refine ⟨'{' :: (n ++ '}' :: (u ++ ("from".toList ++ v))), r, by simp, ⟨n, u, v, rfl, hne, ?_, hune,
      allIn_isBlank.mp hu, hvne, allIn_isBlank.mp hv⟩, by simp⟩
    simpa using allIn_noneOf.mp hn
  · rintro ⟨s, r, rfl, ⟨n, u, v, rfl, hne, hn, hune, hu, hvne, hv⟩, rfl⟩
    refine ⟨_, mem_ends_one_eq.mpr ⟨n ++ '}' :: (u ++ ("from".toList ++ (v ++ r))), by simp, rfl⟩,
      _, mem_ends_oneOrMore.mpr ⟨n, _, rfl, hne, allIn_noneOf.mpr (by simpa using hn), rfl⟩,
      _, mem_ends_one_eq.mpr ⟨_, rfl, rfl⟩,
      _, mem_ends_oneOrMore.mpr ⟨u, _, rfl, hune, allIn_isBlank.mpr hu, rfl⟩,
      _, mem_ends_literal.mpr ⟨_, rfl, rfl⟩,
      _, mem_ends_oneOrMore.mpr ⟨v, r, rfl, hvne, allIn_isBlank.mpr hv, rfl⟩, by simp⟩

/-- A quoted relative path with its semicolon. -/
def IsRelativeTarget (s : Text) : Prop :=
  ∃ q dots z, s = q :: (dots ++ '/' :: (z ++ [q, ';'])) ∧ IsQuote q ∧ (dots = ['.'] ∨ dots = ['.', '.']) ∧
    '\n' ∉ z

theorem mem_relativeTarget :
    d ∈ (inOrder relativeTarget).ends ⟨b, t, cap⟩ ↔
      ∃ s w r q, t = s ++ (w ++ r) ∧ IsRelativeTarget s ∧ Text.isBlank w = true ∧ Text.AtLineEnd r ∧
        s.head? = some q ∧ d = ⟨lastOf b (s ++ w), r, some [q]⟩ := by
  simp only [relativeTarget, mem_ends_inOrder_cons, mem_ends_inOrder_nil, mem_ends_capture, mem_ends_optional,
    blank, inLine]
  constructor
  · rintro ⟨e, ⟨e', he, rfl⟩, f, hf, g, hg, i, hi, j, hj, k, hk, l, hl, n, hn, o, ho, rfl⟩
    obtain ⟨q, r, rfl, hq, rfl⟩ := mem_quote.mp he
    have hcap : Cursor.upTo ⟨b, q :: r, cap⟩ ⟨some q, r, cap⟩ = [q] := upTo_of_rest rfl
    rw [hcap] at hf
    obtain ⟨r, rfl, rfl⟩ := mem_ends_one_eq.mp hf
    have hdots : ∃ dots r', '.' :: r = dots ++ r' ∧ (dots = ['.'] ∨ dots = ['.', '.']) ∧
        g = ⟨lastOf (some q) dots, r', some [q]⟩ := by
      rcases hg with hg | rfl
      · obtain ⟨r, rfl, rfl⟩ := mem_ends_one_eq.mp hg
        exact ⟨['.', '.'], r, rfl, Or.inr rfl, rfl⟩
      · exact ⟨['.'], r, rfl, Or.inl rfl, rfl⟩
    obtain ⟨dots, r, hr, hdots, rfl⟩ := hdots
    obtain ⟨r, rfl, rfl⟩ := mem_ends_one_eq.mp hi
    obtain ⟨z, r, rfl, hz, rfl⟩ := mem_ends_manyLazy.mp hj
    obtain ⟨r, rfl, rfl⟩ := mem_ends_again.mp hk
    obtain ⟨r, rfl, rfl⟩ := mem_ends_one_eq.mp hl
    obtain ⟨w, r, rfl, hw, rfl⟩ := mem_ends_many.mp hn
    obtain ⟨hr', rfl⟩ := mem_ends_lineEnd.mp ho
    refine ⟨q :: (dots ++ '/' :: (z ++ [q, ';'])), w, r, q, by simp [hr], ⟨q, dots, z, rfl, hq, hdots,
      allIn_inLine.mp hz⟩, allIn_isBlank.mp hw, hr', rfl, by simp⟩
  · rintro ⟨s, w, r, q', rfl, ⟨q, dots, z, rfl, hq, hdots, hz⟩, hw, hr, hhead, rfl⟩
    obtain rfl : q = q' := by simpa using hhead
    have hcap : ∀ r', Cursor.upTo ⟨b, q :: r', cap⟩ ⟨some q, r', cap⟩ = [q] := fun r' => upTo_of_rest rfl
    have hrest : q :: (dots ++ '/' :: (z ++ [q, ';'])) ++ (w ++ r) =
        q :: (dots ++ '/' :: (z ++ q :: ';' :: (w ++ r))) := by simp
    rw [hrest]
    refine ⟨_, ⟨_, mem_quote.mpr ⟨q, _, rfl, hq, rfl⟩, rfl⟩, ?_⟩
    rw [hcap]
    have htail : ∀ before, ∃ e ∈ (one (· == '/')).ends
          ⟨before, '/' :: (z ++ q :: ';' :: (w ++ r)), some [q]⟩, ∃ f ∈ (manyLazy (one (· != '\n'))).ends e,
        ∃ g ∈ again.ends f, ∃ i ∈ (one (· == ';')).ends g, ∃ j ∈ (many (one isBlank)).ends i,
        ∃ k ∈ lineEnd.ends j, (⟨lastOf (some ';') w, r, some [q]⟩ : Cursor) = k := by
      intro before
      exact ⟨_, mem_ends_one_eq.mpr ⟨_, rfl, rfl⟩,
        _, mem_ends_manyLazy.mpr ⟨z, _, rfl, allIn_inLine.mpr hz, rfl⟩,
        _, mem_ends_again.mpr ⟨';' :: (w ++ r), by simp, rfl⟩, _, mem_ends_one_eq.mpr ⟨_, rfl, rfl⟩,
        _, mem_ends_many.mpr ⟨w, r, rfl, allIn_isBlank.mpr hw, rfl⟩, _, mem_ends_lineEnd.mpr ⟨hr, rfl⟩, rfl⟩
    have hlast : lastOf b (q :: (dots ++ '/' :: (z ++ [q, ';'])) ++ w) = lastOf (some ';') w := by simp
    rw [hlast]
    rcases hdots with rfl | rfl
    · exact ⟨_, mem_ends_one_eq.mpr ⟨_, rfl, rfl⟩, _, Or.inr rfl, htail _⟩
    · exact ⟨_, mem_ends_one_eq.mpr ⟨_, rfl, rfl⟩, _, Or.inl (mem_ends_one_eq.mpr ⟨_, rfl, rfl⟩), htail _⟩

/-! ### Relative imports -/

/-- An import of a relative path with the blanks behind it; `IsNames` says what stands before the path. -/
def IsRelativeImport (IsNames : Text → Prop) (x : Text) : Prop :=
  ∃ u n s w, x = "import".toList ++ (u ++ (n ++ (s ++ w))) ∧ u ≠ [] ∧ Text.isBlank u = true ∧
    IsNames n ∧ IsRelativeTarget s ∧ Text.isBlank w = true

section RelativeImports

variable {names : List Pattern} {IsNames : Text → Prop}

/-- Both shapes of relative imports, with the pattern for what stands before the path as a parameter. -/
def relativeImportWith (names : List Pattern) : Pattern :=
  inOrder ([lineStart, word "import", oneOrMore blank] ++ names ++ relativeTarget)

theorem mem_relativeImportWith
    (hnames : ∀ b t cap d, d ∈ (inOrder names).ends ⟨b, t, cap⟩ ↔
      ∃ n r, t = n ++ r ∧ IsNames n ∧ d = ⟨lastOf b n, r, cap⟩) :
    (∃ d ∈ (relativeImportWith names).ends ⟨b, t, cap⟩, d.rest = r) ↔
      (b = none ∨ b = some '\n') ∧ ∃ x, t = x ++ r ∧ IsRelativeImport IsNames x ∧ Text.AtLineEnd r := by
  simp only [relativeImportWith, mem_ends_inOrder_append, mem_ends_inOrder_cons, mem_ends_inOrder_nil,
    word, blank]
  constructor
  · rintro ⟨d, ⟨e, ⟨f, ⟨g, hg, h, hh, i, hi, rfl⟩, hf⟩, hd⟩, rfl⟩
    obtain ⟨hb, rfl⟩ := mem_ends_lineStart.mp hg
    obtain ⟨r, rfl, rfl⟩ := mem_ends_literal.mp hh
    obtain ⟨u, r, rfl, hne, hu, rfl⟩ := mem_ends_oneOrMore.mp hi
    obtain ⟨n, r, rfl, hn, rfl⟩ := (hnames _ _ _ _).mp hf
    obtain ⟨s, w, r, q, rfl, hs, hw, hr, -, rfl⟩ := mem_relativeTarget.mp hd
    exact ⟨hb, "import".toList ++ (u ++ (n ++ (s ++ w))), by simp,
      ⟨u, n, s, w, rfl, hne, allIn_isBlank.mp hu, hn, hs, hw⟩, hr⟩
  · rintro ⟨hb, x, rfl, ⟨u, n, s, w, rfl, hne, hu, hn, hs, hw⟩, hr⟩
    obtain ⟨q, hq⟩ : ∃ q, s.head? = some q := by
      obtain ⟨q, dots, z, rfl, -⟩ := hs
      exact ⟨q, rfl⟩
    exact ⟨_, ⟨_, ⟨_, ⟨_, mem_ends_lineStart.mpr ⟨hb, rfl⟩, _,
        mem_ends_literal.mpr ⟨u ++ (n ++ (s ++ (w ++ r))), by simp, rfl⟩,
        _, mem_ends_oneOrMore.mpr ⟨u, _, rfl, hne, allIn_isBlank.mpr hu, rfl⟩, rfl⟩,
        (hnames _ _ _ _).mpr ⟨n, _, rfl, hn, rfl⟩⟩,
        mem_relativeTarget.mpr ⟨s, w, r, q, rfl, hs, hw, hr, hq, rfl⟩⟩, rfl⟩

theorem matchAt?_relativeImportWith
    (hnames : ∀ b t cap d, d ∈ (inOrder names).ends ⟨b, t, cap⟩ ↔
      ∃ n r, t = n ++ r ∧ IsNames n ∧ d = ⟨lastOf b n, r, cap⟩)
    (h : (relativeImportWith names).matchAt? b t = some m) :
    (b = none ∨ b = some '\n') ∧ IsRelativeImport IsNames m.text ∧
      ∃ r, t = m.text ++ r ∧ Text.AtLineEnd r := by
  obtain ⟨d, hd, ht, -⟩ := matchAt?_eq_some h
  obtain ⟨hb, x, hx, himport, hr⟩ := (mem_relativeImportWith hnames).mp ⟨d, hd, rfl⟩
  obtain rfl : m.text = x := List.append_cancel_right (ht.symm.trans hx)
  exact ⟨hb, himport, d.rest, ht, hr⟩

theorem relativeImportWith_matches {x r : Text}
    (hnames : ∀ b t cap d, d ∈ (inOrder names).ends ⟨b, t, cap⟩ ↔
      ∃ n r, t = n ++ r ∧ IsNames n ∧ d = ⟨lastOf b n, r, cap⟩)
    (hb : b = none ∨ b = some '\n') (hx : IsRelativeImport IsNames x) (hr : Text.AtLineEnd r) :
    ∃ m, (relativeImportWith names).matchAt? b (x ++ r) = some m := by
  obtain ⟨d, hd, -⟩ := (mem_relativeImportWith hnames).mpr ⟨hb, x, rfl, hx, hr⟩
  exact matchAt?_isSome hd

end RelativeImports

/-- Nothing stands before the path in an import of a whole path. -/
theorem mem_noNames (b : Option Char) (t : Text) (cap : Option Text) (d : Cursor) :
    d ∈ (inOrder []).ends ⟨b, t, cap⟩ ↔ ∃ n r, t = n ++ r ∧ n = [] ∧ d = ⟨lastOf b n, r, cap⟩ := by
  rw [mem_ends_inOrder_nil]
  simp

theorem matchAt?_relativeImport (h : relativeImport.matchAt? b t = some m) :
    (b = none ∨ b = some '\n') ∧ IsRelativeImport (· = []) m.text ∧
      ∃ r, t = m.text ++ r ∧ Text.AtLineEnd r :=
  matchAt?_relativeImportWith mem_noNames h

theorem relativeImport_matches {x r : Text} (hb : b = none ∨ b = some '\n')
    (hx : IsRelativeImport (· = []) x) (hr : Text.AtLineEnd r) :
    ∃ m, relativeImport.matchAt? b (x ++ r) = some m :=
  relativeImportWith_matches mem_noNames hb hx hr

theorem matchAt?_relativeImportOfNames (h : relativeImportOfNames.matchAt? b t = some m) :
    (b = none ∨ b = some '\n') ∧ IsRelativeImport IsNamesFrom m.text ∧
      ∃ r, t = m.text ++ r ∧ Text.AtLineEnd r :=
  matchAt?_relativeImportWith (fun _ _ _ _ => mem_namesFrom) h

theorem relativeImportOfNames_matches {x r : Text} (hb : b = none ∨ b = some '\n')
    (hx : IsRelativeImport IsNamesFrom x) (hr : Text.AtLineEnd r) :
    ∃ m, relativeImportOfNames.matchAt? b (x ++ r) = some m :=
  relativeImportWith_matches (fun _ _ _ _ => mem_namesFrom) hb hx hr

/-- What may stand between the word `import` with its blanks and the path. -/
def MayBeNames (n : Text) : Prop := n = [] ∨ IsNamesFrom n

/-! ### Import statements -/

/-- An import statement with its path. -/
def IsImport (x path : Text) : Prop :=
  ∃ u n q q', x = "import".toList ++ (u ++ (n ++ q :: (path ++ [q', ';']))) ∧ u ≠ [] ∧
    Text.isBlank u = true ∧ MayBeNames n ∧ IsQuote q ∧ IsQuote q' ∧ path ≠ [] ∧
    ∀ c ∈ path, ¬ IsQuote c

theorem allIn_noQuote {w : Text} :
    AllIn (fun c => !(['"', '\''].contains c)) w ↔ ∀ c ∈ w, ¬ IsQuote c := by
  rw [allIn_noneOf]
  simp only [List.mem_cons, List.not_mem_nil, or_false, forall_eq_or_imp, forall_eq, IsQuote, not_or]
  constructor
  · rintro ⟨h, h'⟩ c hc
    exact ⟨fun heq => h (heq ▸ hc), fun heq => h' (heq ▸ hc)⟩
  · intro h
    exact ⟨fun hm => (h _ hm).1 rfl, fun hm => (h _ hm).2 rfl⟩

theorem mem_importStatement :
    d ∈ importStatement.ends ⟨b, t, cap⟩ ↔
      ∃ x path r, t = x ++ r ∧ IsImport x path ∧ d = ⟨some ';', r, some path⟩ := by
  simp only [importStatement, mem_ends_inOrder_cons, mem_ends_inOrder_nil, mem_ends_capture, word,
    blank, noneOf]
  constructor
  · rintro ⟨e, he, f, hf, g, hg, i, hi, j, ⟨j', hj, rfl⟩, k, hk, l, hl, rfl⟩
    obtain ⟨r, rfl, rfl⟩ := mem_ends_literal.mp he
    obtain ⟨u, r, rfl, hne, hu, rfl⟩ := mem_ends_oneOrMore.mp hf
    have hnames : ∃ n r', r = n ++ r' ∧ MayBeNames n ∧
        g = ⟨lastOf (lastOf (lastOf b "import".toList) u) n, r', cap⟩ := by
      rcases mem_ends_optional.mp hg with hg | rfl
      · obtain ⟨n, r', rfl, hn, rfl⟩ := mem_namesFrom.mp hg
        exact ⟨n, r', rfl, Or.inr hn, rfl⟩
      · exact ⟨[], r, rfl, Or.inl rfl, rfl⟩
    obtain ⟨n, r, rfl, hn, rfl⟩ := hnames
    obtain ⟨q, r, rfl, hq, rfl⟩ := mem_quote.mp hi
    obtain ⟨path, r, rfl, hpne, hpath, rfl⟩ := mem_ends_oneOrMore.mp hj
    obtain ⟨q', r, rfl, hq', rfl⟩ := mem_quote.mp hk
    obtain ⟨r, rfl, rfl⟩ := mem_ends_one_eq.mp hl
    have hcap : ∀ before, Cursor.upTo ⟨some q, path ++ q' :: ';' :: r, cap⟩ ⟨before, q' :: ';' :: r, cap⟩ =
      path :=
      fun before => upTo_of_rest rfl
    exact ⟨"import".toList ++ (u ++ (n ++ q :: (path ++ [q', ';']))), path, r, by simp,
      ⟨u, n, q, q', rfl, hne, allIn_isBlank.mp hu, hn, hq, hq', hpne, allIn_noQuote.mp hpath⟩,
      by rw [hcap]⟩
  · rintro ⟨x, path, r, rfl, ⟨u, n, q, q', rfl, hne, hu, hn, hq, hq', hpne, hpath⟩, rfl⟩
    have hrest : "import".toList ++ (u ++ (n ++ q :: (path ++ [q', ';']))) ++ r =
        "import".toList ++ (u ++ (n ++ q :: (path ++ q' :: ';' :: r))) := by simp
    have hnames :
        (⟨lastOf (lastOf (lastOf b "import".toList) u) n, q :: (path ++ q' :: ';' :: r), cap⟩ : Cursor) ∈
        (optional (inOrder namesFrom)).ends ⟨lastOf (lastOf b "import".toList) u,
          n ++ q :: (path ++ q' :: ';' :: r), cap⟩ := by
      rcases hn with rfl | hn
      · exact mem_ends_optional.mpr (Or.inr rfl)
      · exact mem_ends_optional.mpr (Or.inl (mem_namesFrom.mpr ⟨n, _, rfl, hn, rfl⟩))
    have hcap : Cursor.upTo ⟨some q, path ++ q' :: ';' :: r, cap⟩ ⟨lastOf (some q) path, q' :: ';' :: r, cap⟩ =
      path :=
      upTo_of_rest rfl
    rw [hrest]
    refine ⟨_, mem_ends_literal.mpr ⟨_, rfl, rfl⟩,
      _, mem_ends_oneOrMore.mpr ⟨u, _, rfl, hne, allIn_isBlank.mpr hu, rfl⟩, _, hnames,
      _, mem_quote.mpr ⟨q, _, rfl, hq, rfl⟩,
      _, ⟨_, mem_ends_oneOrMore.mpr ⟨path, _, rfl, hpne, allIn_noQuote.mpr hpath, rfl⟩, rfl⟩,
      _, mem_quote.mpr ⟨q', _, rfl, hq', rfl⟩, _, mem_ends_one_eq.mpr ⟨r, rfl, rfl⟩, ?_⟩
    simp only [hcap]

theorem IsQuote.not_blank {q : Char} (hq : IsQuote q) : isBlank q = false := by
  rcases hq with rfl | rfl <;> decide

theorem isNamesFrom_head {s : Text} (h : IsNamesFrom s) : ∃ s', s = '{' :: s' := by
  obtain ⟨n, u, v, rfl, -⟩ := h
  exact ⟨_, rfl⟩

theorem isNamesFrom_cut {s s' : Text} {y y' : Char} (hs : IsNamesFrom s) (hs' : IsNamesFrom s')
    (hy : isBlank y = false) (hy' : isBlank y' = false) {r r' : Text} (h : s ++ y :: r = s' ++ y' :: r') :
    s = s' ∧ y = y' ∧ r = r' := by
  obtain ⟨n, u, v, rfl, -, hn, -, hu, -, hv⟩ := hs
  obtain ⟨n', u', v', rfl, -, hn', -, hu', -, hv'⟩ := hs'
  simp only [List.cons_append, List.append_assoc, List.cons.injEq, true_and] at h
  obtain ⟨rfl, hfrom⟩ := cut_at hn hn' h
  obtain ⟨rfl, -, htail⟩ := allIn_cut (allIn_isBlank.mpr hu) (allIn_isBlank.mpr hu') (x := 'f') (y := 'f')
    (by decide) (by decide) hfrom
  obtain ⟨rfl, rfl, rfl⟩ := allIn_cut (allIn_isBlank.mpr hv) (allIn_isBlank.mpr hv') hy hy'
    ((List.append_right_inj "rom".toList).mp htail)
  exact ⟨rfl, rfl, rfl⟩

/-- Up to the path, an import can be read in one way only. -/
theorem importHead_cut {u u' n n' r r' : Text} {q q' : Char} (hu : Text.isBlank u = true)
    (hu' : Text.isBlank u' = true) (hn : MayBeNames n) (hn' : MayBeNames n') (hq : IsQuote q)
    (hq' : IsQuote q') (h : u ++ (n ++ q :: r) = u' ++ (n' ++ q' :: r')) :
    u = u' ∧ n = n' ∧ q = q' ∧ r = r' := by
  have hstart : ∀ {n : Text} {q : Char} (r : Text), MayBeNames n → IsQuote q →
      ∃ c rest, n ++ q :: r = c :: rest ∧ isBlank c = false := by
    rintro n q r (rfl | hn) hq
    · exact ⟨q, r, rfl, hq.not_blank⟩
    · obtain ⟨s, rfl⟩ := isNamesFrom_head hn
      exact ⟨'{', s ++ q :: r, rfl, by decide⟩
  have hbrace : ∀ {n : Text} {q q' : Char} {r r' : Text}, IsNamesFrom n → IsQuote q' →
      n ++ q :: r ≠ q' :: r' := by
    intro n q q' r r' hn hq' h
    obtain ⟨s, rfl⟩ := isNamesFrom_head hn
    rcases hq' with rfl | rfl <;> simp at h
  obtain ⟨c, rest, hc, hcb⟩ := hstart r hn hq
  obtain ⟨c', rest', hc', hcb'⟩ := hstart r' hn' hq'
  rw [hc, hc'] at h
  obtain ⟨rfl, rfl, rfl⟩ := allIn_cut (allIn_isBlank.mpr hu) (allIn_isBlank.mpr hu') hcb hcb' h
  have hsame : n ++ q :: r = n' ++ q' :: r' := hc.trans hc'.symm
  rcases hn with rfl | hn
  · rcases hn' with rfl | hn'
    · simpa using hsame
    · exact absurd hsame.symm (hbrace hn' hq)
  · rcases hn' with rfl | hn'
    · exact absurd hsame (hbrace hn hq')
    · exact ⟨rfl, isNamesFrom_cut hn hn' hq.not_blank hq'.not_blank hsame⟩

/-- At one place there is at most one import statement. -/
theorem isImport_unique {x x' path path' r r' : Text} (hx : IsImport x path) (hx' : IsImport x' path')
    (h : x ++ r = x' ++ r') : x = x' ∧ path = path' ∧ r = r' := by
  obtain ⟨u, n, q, s, rfl, -, hu, hn, hq, hs, -, hpath⟩ := hx
  obtain ⟨u', n', q', s', rfl, -, hu', hn', hq', hs', -, hpath'⟩ := hx'
  simp only [List.append_assoc, List.append_cancel_left_eq, List.cons_append, List.nil_append] at h
  obtain ⟨rfl, rfl, rfl, hpaths⟩ := importHead_cut hu hu' hn hn' hq hq' h
  have hclass : ∀ {c : Char}, IsQuote c → (!(['"', '\''].contains c)) = false := by
    rintro c (rfl | rfl) <;> decide
  obtain ⟨rfl, rfl, htail⟩ := allIn_cut (allIn_noQuote.mpr hpath) (allIn_noQuote.mpr hpath')
    (hclass hs) (hclass hs') hpaths
  obtain rfl : r = r' := by simpa using htail
  exact ⟨rfl, rfl, rfl⟩

/-- **An import statement is matched whole, with its path.** -/
theorem matchAt?_importStatement :
    importStatement.matchAt? b t = some m ↔
      ∃ path, IsImport m.text path ∧ m.captured = some path ∧ m.text <+: t := by
  constructor
  · intro h
    obtain ⟨d, hd, ht, hcap⟩ := matchAt?_eq_some h
    obtain ⟨x, path, r, hx, himport, rfl⟩ := mem_importStatement.mp hd
    obtain rfl : m.text = x := List.append_cancel_right (ht.symm.trans hx)
    exact ⟨path, himport, hcap, ⟨r, ht.symm⟩⟩
  · rintro ⟨path, himport, hcap, r, rfl⟩
    have hmem : (⟨some ';', r, some path⟩ : Cursor) ∈ importStatement.ends ⟨b, m.text ++ r, none⟩ :=
      mem_importStatement.mpr ⟨m.text, path, r, rfl, himport, rfl⟩
    rw [matchAt?_of_unique rfl hmem]
    · simp [← hcap]
    · intro e he
      obtain ⟨x, path', r', hx, himport', rfl⟩ := mem_importStatement.mp he
      obtain ⟨-, rfl, rfl⟩ := isImport_unique himport himport' hx
      rfl

theorem opensWith_relativeImport : OpensWith relativeImport "import".toList := by
  intro b t m h
  obtain ⟨-, ⟨u, n, s, w, hx, -⟩, -⟩ := matchAt?_relativeImport h
  exact ⟨_, hx.symm⟩

theorem opensWith_relativeImportOfNames : OpensWith relativeImportOfNames "import".toList := by
  intro b t m h
  obtain ⟨-, ⟨u, n, s, w, hx, -⟩, -⟩ := matchAt?_relativeImportOfNames h
  exact ⟨_, hx.symm⟩

theorem opensWith_importStatement : OpensWith importStatement "import".toList := by
  intro b t m h
  obtain ⟨path, ⟨u, n, q, q', hx, -⟩, -⟩ := matchAt?_importStatement.mp h
  exact ⟨_, hx.symm⟩

end SolidityKit.Shape
