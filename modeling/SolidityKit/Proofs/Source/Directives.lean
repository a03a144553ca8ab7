/-
Where version directives stand in a text.

After the opening words a version directive runs to the next semicolon, over line feeds and all, so opening
words without a semicolon behind them are no match yet, but become one as soon as more text is put below.
`Opens` says that a text holds such words, closed or not.  It is a property of the lines alone
(`opens_joinWith`), and a text that does not open holds no directive whatever surrounds it.

A text holds one directive, and goes on holding it when put among others, if nothing before it and nothing
after it opens: `Alone`.
-/
import SolidityKit.Proofs.Source.Shapes
import SolidityKit.Proofs.Text.Lines

namespace SolidityKit.Shape

open Pattern

variable {t u v d : Text}

/-! ### Texts that open -/

/-- Opening words with room for a version behind them. -/
def Opens (t : Text) : Prop := ∃ x y, t = x ++ (opening ++ y) ∧ y.head? ≠ some ';'

theorem Opens.isInfix (h : Opens t) : opening <:+: t := by
  obtain ⟨x, y, rfl, -⟩ := h
  exact ⟨x, y, by simp⟩

theorem not_opens_of_absent (h : ¬ opening <:+: t) : ¬ Opens t := fun hopens => h hopens.isInfix

theorem not_opens_of_containsText (h : Text.containsText opening t = false) : ¬ Opens t :=
  not_opens_of_absent (Text.absent_of_containsText h)

theorem not_opens_nil : ¬ Opens [] := not_opens_of_absent (by decide)

theorem Opens.append_left (h : Opens v) (u : Text) : Opens (u ++ v) := by
  obtain ⟨x, y, rfl, hy⟩ := h
  exact ⟨u ++ x, y, by simp, hy⟩

/-- Text that follows leaves the room, if it does not begin with a semicolon. -/
theorem Opens.append_right (h : Opens u) (hv : v.head? ≠ some ';') : Opens (u ++ v) := by
  obtain ⟨x, y, rfl, hy⟩ := h
  refine ⟨x, y ++ v, by simp, ?_⟩
  cases y with
  | nil => exact hv
  | cons c y => exact hy

theorem notMem_opening : '\n' ∉ opening ∧ ';' ∉ opening := by decide

/-- The opening words are within a line. -/
theorem opens_append_newline : Opens (u ++ '\n' :: v) ↔ Opens u ∨ Opens v := by
  constructor
  · rintro ⟨x, y, h, hy⟩
    rcases List.append_eq_append_iff.mp h with ⟨e, rfl, he⟩ | ⟨e, rfl, he⟩
    · -- the line feed stands before the opening words
      cases e with
      | nil =>
          have hhead : '\n' = 'p' := (List.cons.inj he).1
          exact absurd hhead (by decide)
      | cons c e =>
          obtain ⟨-, rfl⟩ := List.cons.inj he
          exact Or.inr ⟨e, y, rfl, hy⟩
    · rcases List.append_eq_append_iff.mp he with ⟨e', rfl, rfl⟩ | ⟨e', hopening, he'⟩
      · refine Or.inl ⟨x, e', rfl, ?_⟩
        cases e' with
        | nil => simp
        | cons c e' => exact hy
      · cases e' with
        | nil =>
            rw [List.append_nil] at hopening
            exact Or.inl ⟨x, [], by rw [hopening, List.append_nil], by simp⟩
        | cons c e' =>
            obtain ⟨rfl, -⟩ := List.cons.inj he'
            exact absurd (by rw [hopening]; simp) notMem_opening.1
  · rintro (h | h)
    · exact h.append_right (by simp)
    · simpa using h.append_left (u ++ ['\n'])

theorem opens_joinWith {ls : List Text} : Opens (Text.joinWith '\n' ls) ↔ ∃ line ∈ ls, Opens line := by
  induction ls with
  | nil => simpa [Text.joinWith] using not_opens_nil
  | cons line ls ih =>
      cases ls with
      | nil => simp [Text.joinWith]
      | cons next more =>
          rw [Text.joinWith_cons line (List.cons_ne_nil next more), opens_append_newline, ih]
          simp

/-- Blanks in front hold none of the opening words. -/
theorem Opens.of_blank_append {w : Text} (hw : Text.isBlank w = true) (h : Opens (w ++ u)) : Opens u := by
  obtain ⟨x, y, h, hy⟩ := h
  rcases List.append_eq_append_iff.mp h with ⟨e, rfl, rfl⟩ | ⟨e, rfl, he⟩
  · exact ⟨e, y, rfl, hy⟩
  · cases e with
    | nil => exact ⟨[], y, he.symm, hy⟩
    | cons c e =>
        obtain rfl : 'p' = c := (List.cons.inj he).1
        exact absurd (Text.isBlank_iff.mp hw 'p' (by simp)) (by decide)

/-! ### Opening words and matches -/

theorem IsDirective.ne_nil (h : IsDirective d) : d ≠ [] := by
  obtain ⟨w, rfl, -⟩ := h
  exact List.cons_ne_nil _ _

theorem IsDirective.trimmed (h : IsDirective d) : Text.Trimmed d := by
  obtain ⟨w, rfl, -⟩ := h
  have hends : opening ++ (w ++ [';']) = 'p' :: ("ragma solidity ".toList ++ w ++ [';']) := by
    rw [← List.append_assoc]
    rfl
  rw [hends]
  exact .of_ends (by decide) (by decide) _

/-- The match of the version directive at some place of a text is a directive and nothing else. -/
theorem isDirective_of_mem_allMatches {m : Match} (h : m ∈ versionDirective.allMatches t) :
    IsDirective m.text ∧ m.captured = none := by
  obtain ⟨b, r, hm⟩ := matchAt?_of_mem_allMatches h
  exact ⟨(matchAt?_versionDirective.mp hm).1, (matchAt?_versionDirective.mp hm).2.1⟩

/-- Opening words with room behind them and a semicolon somewhere are a match. -/
theorem exists_match_of_opening {y : Text} (hroom : y.head? ≠ some ';') (hclosed : ';' ∈ y) (b : Option Char) :
    ∃ m, versionDirective.matchAt? b (opening ++ y) = some m ∧ m.text ≠ [] := by
  obtain ⟨w, r, rfl, hw⟩ := List.eq_append_cons_of_mem hclosed
  have hne : w ≠ [] := by
    rintro rfl
    exact hroom rfl
  have hd : IsDirective (opening ++ (w ++ [';'])) := ⟨w, rfl, hne, hw⟩
  exact ⟨⟨_, none⟩, matchAt?_versionDirective.mpr ⟨hd, rfl, ⟨r, by simp⟩⟩, hd.ne_nil⟩

/-- **A text that opens and is closed later holds a directive.** -/
theorem allMatches_ne_nil_of_opens (h : Opens u) (hv : v.head? ≠ some ';') (hclosed : ';' ∈ v) :
    versionDirective.allMatches (u ++ v) ≠ [] := by
  obtain ⟨x, y, rfl, hy⟩ := h
  intro hnone
  have hroom : (y ++ v).head? ≠ some ';' := by
    cases y with
    | nil => exact hv
    | cons c y => exact hy
  obtain ⟨m, hm, hne⟩ := exists_match_of_opening hroom (by simp [hclosed]) (lastOf none x)
  simp only [List.append_assoc] at hnone
  exact hne (text_eq_nil_of_no_match hnone hm)

/-- The opening words do not overlap themselves. -/
theorem opening_prefix {s : Text} (hs : s ≠ []) (hv : v = [] ∨ opening <+: v) (h : opening <+: s ++ v) :
    opening <+: s := by
  rcases List.prefix_or_prefix_of_prefix h (List.prefix_append s v) with h' | ⟨e, he⟩
  · exact h'
  · have hev : e <+: v := by
      rw [← he] at h
      exact (List.prefix_append_right_inj s).mp h
    cases e with
    | nil =>
        rw [List.append_nil] at he
        exact he ▸ List.prefix_rfl
    | cons c e =>
        rcases hv with rfl | ⟨r, rfl⟩
        · simp at hev
        · -- the words would have to begin anew inside themselves
          obtain rfl : c = 'p' := (List.cons_prefix_cons.mp hev).1
          have honce : 'p' ∉ opening.tail := by decide
          cases s with
          | nil => exact absurd rfl hs
          | cons x s =>
              refine absurd ?_ honce
              rw [← he]
              simp

/-- No directive starts in a text that does not open, at its end or before a directive. -/
theorem noneStarts_of_not_opens (h : ¬ Opens u) (hv : v = [] ∨ opening <+: v) :
    NoneStarts versionDirective u v := by
  intro s hs hsuf b
  rw [Option.eq_none_iff_forall_ne_some]
  intro m hm
  obtain ⟨⟨w, hm', hw, hsemi⟩, -, hpre⟩ := matchAt?_versionDirective.mp hm
  have hopening : opening <+: s ++ v := List.IsPrefix.trans ⟨_, hm'.symm⟩ hpre
  obtain ⟨y, rfl⟩ := opening_prefix hs hv hopening
  obtain ⟨x, rfl⟩ := hsuf
  refine h ⟨x, y, rfl, fun hy => ?_⟩
  cases y with
  | nil => simp at hy
  | cons c y =>
      cases hy
      rw [hm', List.append_assoc, List.prefix_append_right_inj] at hpre
      cases w with
      | nil => exact hw rfl
      | cons c w =>
          obtain ⟨rfl, -⟩ := List.cons_prefix_cons.mp hpre
          simp at hsemi

theorem allMatches_of_not_opens (h : ¬ Opens t) : versionDirective.allMatches t = [] := by
  rw [allMatches, pieces_plain (noneStarts_of_not_opens h (Or.inl rfl)), filterMap_match?_plain]

/-! ### A directive that stands alone -/

/-- The text holds the directive, and nothing before or after it opens another. -/
def Alone (d t : Text) : Prop := ∃ a b, t = a ++ (d ++ b) ∧ ¬ Opens a ∧ ¬ Opens b

theorem Alone.ne_nil {ls : List Text} (hd : IsDirective d) (h : Alone d (Text.joinWith '\n' ls)) : ls ≠ [] := by
  rintro rfl
  obtain ⟨a, b, ht, -, -⟩ := h
  have hnil := (List.append_eq_nil_iff.mp ht.symm).2
  exact hd.ne_nil (List.append_eq_nil_iff.mp hnil).1

/-- Lines below that do not open leave the directive alone. -/
theorem Alone.append_lines {ls more : List Text} (hd : IsDirective d) (h : Alone d (Text.joinWith '\n' ls))
    (hmore : ∀ line ∈ more, ¬ Opens line) : Alone d (Text.joinWith '\n' (ls ++ more)) := by
  by_cases hne : more = []
  · rw [hne, List.append_nil]
    exact h
  · have hquiet : ¬ Opens (Text.joinWith '\n' more) := by
      rw [opens_joinWith]
      push Not
      exact hmore
    rw [Text.joinWith_append (h.ne_nil hd) hne]
    obtain ⟨a, b, hab, ha, hb⟩ := h
    refine ⟨a, b ++ '\n' :: Text.joinWith '\n' more, by rw [hab]; simp, ha, ?_⟩
    rw [opens_append_newline, not_or]
    exact ⟨hb, hquiet⟩

/-- Lines above that do not open leave the directive alone. -/
theorem Alone.lines_append {ls before : List Text} (hd : IsDirective d) (h : Alone d (Text.joinWith '\n' ls))
    (hbefore : ∀ line ∈ before, ¬ Opens line) : Alone d (Text.joinWith '\n' (before ++ ls)) := by
  by_cases hne : before = []
  · rw [hne]
    exact h
  · have hquiet : ¬ Opens (Text.joinWith '\n' before) := by
      rw [opens_joinWith]
      push Not
      exact hbefore
    rw [Text.joinWith_append hne (h.ne_nil hd)]
    obtain ⟨a, b, hab, ha, hb⟩ := h
    refine ⟨Text.joinWith '\n' before ++ '\n' :: a, b, by rw [hab]; simp, ?_, hb⟩
    rw [opens_append_newline, not_or]
    exact ⟨hquiet, ha⟩

/-- The directives do not depend on what stands before them. -/
theorem piecesFrom_versionDirective (b b' : Option Char) (t : Text) :
    versionDirective.piecesFrom 0 b t = versionDirective.piecesFrom 0 b' t := by
  refine piecesFrom_before (fun b b' t => Option.ext fun m => ?_) b b' t
  rw [matchAt?_versionDirective, matchAt?_versionDirective]

/-- A directive in front is the first match. -/
theorem allMatches_append (hd : IsDirective d) (r : Text) :
    versionDirective.allMatches (d ++ r) = ⟨d, none⟩ :: versionDirective.allMatches r := by
  have hm : versionDirective.matchAt? none (d ++ r) = some ⟨d, none⟩ :=
    matchAt?_versionDirective.mpr ⟨hd, rfl, ⟨r, rfl⟩⟩
  have hhit := piecesFrom_hit (m := ⟨d, none⟩) hm hd.ne_nil
  rw [allMatches, pieces, hhit, piecesFrom_versionDirective _ none]
  rfl

/-- A directive that stands alone is the only match. -/
theorem allMatches_of_alone (hd : IsDirective d) (h : Alone d t) :
    versionDirective.allMatches t = [⟨d, none⟩] := by
  obtain ⟨a, b, rfl, ha, hb⟩ := h
  have hopening : opening <+: d ++ b := by
    obtain ⟨w, rfl, -⟩ := hd
    exact ⟨w ++ [';'] ++ b, by simp⟩
  have hrest := allMatches_append hd b
  rw [allMatches_of_not_opens hb] at hrest
  rw [allMatches, pieces, piecesFrom_plain (noneStarts_of_not_opens ha (Or.inr hopening)),
    List.filterMap_append, filterMap_match?_plain, List.nil_append, piecesFrom_versionDirective _ none]
  exact hrest

/-- A text with one match: nothing opens before it, and behind it is no further match. -/
theorem exists_of_allMatches_singleton {m : Match} (h : versionDirective.allMatches t = [m]) :
    ∃ a r, t = a ++ (m.text ++ r) ∧ ¬ Opens a ∧ versionDirective.allMatches r = [] := by
  obtain ⟨a, r, rfl, hm, hbefore, hbehind⟩ := exists_first_match h
  refine ⟨a, r, rfl, ?_, ?_⟩
  · rintro ⟨x, y, rfl, hy⟩
    obtain ⟨w, htext, -, -⟩ := (matchAt?_versionDirective.mp hm).1
    have hroom : (y ++ (m.text ++ r)).head? ≠ some ';' := by
      cases y with
      | nil =>
          rw [htext]
          exact fun hc => absurd (Option.some.inj hc) (by decide)
      | cons c y => exact hy
    obtain ⟨m', hm', hne⟩ :=
      exists_match_of_opening hroom (by rw [htext]; simp) (lastOf none x)
    rw [← List.append_assoc] at hm'
    exact hne (hbefore x (opening ++ y) m' rfl (List.cons_ne_nil _ _) hm')
  · rw [allMatches, pieces, piecesFrom_versionDirective none]
    exact hbehind

theorem head?_ne_of_isBlank (hv : Text.isBlank v = true) : v.head? ≠ some ';' := by
  cases v with
  | nil => simp
  | cons c v =>
      intro hc
      cases hc
      exact absurd (Text.isBlank_iff.mp hv ';' (by simp)) (by decide)

/-- Trimming takes nothing from a directive. -/
theorem Alone.trim (hd : IsDirective d) (h : Alone d t) : Alone d (Text.trim t) := by
  obtain ⟨a, b, rfl, ha, hb⟩ := h
  obtain ⟨u, a', b', v, rfl, rfl, -, hv, htrim⟩ := Text.trim_around hd.trimmed hd.ne_nil a b
  refine ⟨a', b', htrim, fun h => ha (h.append_left u), fun h => hb (h.append_right ?_)⟩
  exact head?_ne_of_isBlank hv

/-- Trimming opens nothing. -/
theorem Opens.of_trim (h : Opens (Text.trim t)) : Opens t := by
  obtain ⟨u, v, ht, -, hv⟩ := Text.trim_split t
  rw [ht]
  exact (h.append_left u).append_right (head?_ne_of_isBlank hv)

end SolidityKit.Shape
