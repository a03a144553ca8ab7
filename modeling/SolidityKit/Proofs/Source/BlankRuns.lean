/-
What collapsing blank runs does to a text.

A blank run is a line feed, blanks, and a line feed; collapsing replaces each by one line feed.  Read as
lines, that drops blank lines from between two others and touches nothing else (`lines_collapse`).  The
answer has no blank run left (`noBlankRun_collapse`): a match takes all line feeds that blanks lead to, so
what follows it cannot complete another run together with the line feed put in its place.
-/
import SolidityKit.Source.Normalize
import SolidityKit.Proofs.Source.Shapes

namespace SolidityKit.Source

open Pattern Shape

/-! ### Blank runs in a text -/

/-- No line feed, blanks and line feed stand next to each other anywhere in the text. -/
def NoBlankRun (t : Text) : Prop := ∀ w, Text.isBlank w = true → ¬ '\n' :: (w ++ ['\n']) <:+: t

/-- Blanks lead from the start of the text to a line feed. -/
def LeadsToBreak (t : Text) : Prop := '\n' ∈ t.takeWhile isBlank

theorem leadsToBreak_iff {t : Text} :
    LeadsToBreak t ↔ ∃ w r, t = w ++ '\n' :: r ∧ Text.isBlank w = true := by
  constructor
  · intro h
    obtain ⟨u, v, huv⟩ := List.append_of_mem h
    refine ⟨u, v ++ t.dropWhile isBlank, ?_, Text.isBlank_iff.mpr fun c hc => ?_⟩
    · have := List.takeWhile_append_dropWhile (p := isBlank) (l := t)
      rw [huv] at this
      simpa using this.symm
    · have hc' : c ∈ t.takeWhile isBlank := by simp [huv, hc]
      exact List.mem_takeWhile_imp hc'
  · rintro ⟨w, r, rfl, hw⟩
    have hall : ∀ c ∈ w, isBlank c = true := Text.isBlank_iff.mp hw
    unfold LeadsToBreak
    rw [List.takeWhile_append_of_pos hall, List.takeWhile_cons, if_pos Text.isBlank_newline]
    simp

theorem leadsToBreak_cons {c : Char} (hc : c ≠ '\n') {t : Text} :
    LeadsToBreak (c :: t) ↔ isBlank c = true ∧ LeadsToBreak t := by
  unfold LeadsToBreak
  by_cases hb : isBlank c = true
  · simp [hb, Ne.symm hc]
  · simp [hb]

/-! ### What a match of the blank run is -/

variable {b : Option Char} {t u v : Text} {m : Match}

theorem captured_of_matchAt?_blankRun (h : blankRun.matchAt? b t = some m) : m.captured = none := by
  obtain ⟨d, hd, -, hcap⟩ := matchAt?_eq_some h
  simp only [blankRun, mem_ends_inOrder_cons, mem_ends_inOrder_nil, blank] at hd
  obtain ⟨e, he, f, hf, g, hg, rfl⟩ := hd
  obtain ⟨r, -, rfl⟩ := mem_ends_one_eq.mp he
  obtain ⟨w, r, -, -, rfl⟩ := mem_ends_many.mp hf
  obtain ⟨r, -, rfl⟩ := mem_ends_one_eq.mp hg
  exact hcap

/-- A blank run that cannot lead on ends where a longer one would. -/
theorem eq_nil_of_longer_run {x r r' : Text} (hblank : Text.isBlank x = true)
    (hcut : '\n' :: r = x ++ '\n' :: r') (hr : ¬ LeadsToBreak r) : x = [] := by
  cases x with
  | nil => rfl
  | cons c x =>
      rw [Text.isBlank_cons, Bool.and_eq_true] at hblank
      exact absurd (leadsToBreak_iff.mpr ⟨x, r', (List.cons.inj hcut).2, hblank.2⟩) hr

theorem matchAt?_blankRun_iff :
    blankRun.matchAt? b t = some m ↔
      m.captured = none ∧ ∃ w r, m.text = '\n' :: (w ++ ['\n']) ∧ t = m.text ++ r ∧
        Text.isBlank w = true ∧ ¬ LeadsToBreak r := by
  constructor
  · intro h
    exact ⟨captured_of_matchAt?_blankRun h, matchAt?_blankRun h⟩
  · rintro ⟨hcap, w, r, hm, rfl, hw, hr⟩
    obtain ⟨e, he⟩ : ∃ e, e ∈ blankRun.ends ⟨b, '\n' :: (w ++ '\n' :: r), none⟩ := blankRun_way hw
    obtain ⟨m', hm'⟩ := matchAt?_isSome he
    obtain ⟨w', r', htext, ht, hw', hr'⟩ := matchAt?_blankRun hm'
    have hsame : w ++ '\n' :: r = w' ++ '\n' :: r' := by
      rw [htext] at ht
      simpa using ht
    -- two such runs of different length would make one lead on to the other's end
    have hrest : w = w' := by
      rcases List.append_eq_append_iff.mp hsame with ⟨x, rfl, hx⟩ | ⟨x, rfl, hx⟩
      · rw [Text.isBlank_append, Bool.and_eq_true] at hw'
        rw [eq_nil_of_longer_run hw'.2 hx hr, List.append_nil]
      · rw [Text.isBlank_append, Bool.and_eq_true] at hw
        rw [eq_nil_of_longer_run hw.2 hx hr', List.append_nil]
    have hcap' := captured_of_matchAt?_blankRun hm'
    have hsame' : m' = m := by
      cases m
      cases m'
      simp_all
    rw [hm, List.cons_append, List.append_assoc, List.singleton_append, hm', hsame']

theorem not_leadsToBreak_of_miss (h : ∀ m, blankRun.matchAt? b ('\n' :: t) = some m → m.text = []) :
    ¬ LeadsToBreak t := by
  intro hlead
  obtain ⟨w, r, rfl, hw⟩ := leadsToBreak_iff.mp hlead
  obtain ⟨e, he⟩ : ∃ e, e ∈ blankRun.ends ⟨b, '\n' :: (w ++ '\n' :: r), none⟩ := blankRun_way hw
  obtain ⟨m, hm⟩ := matchAt?_isSome he
  obtain ⟨w', r', htext, -⟩ := matchAt?_blankRun hm
  rw [h m hm] at htext
  simp at htext

/-! ### Collapsing -/

/-- What collapsing makes of a piece. -/
def collapsePiece : Piece → Text
  | .plain c => [c]
  | .hit _ => ['\n']

theorem collapse_eq (t : Text) : collapseBlankRuns t = (blankRun.pieces t).flatMap collapsePiece := by
  unfold collapseBlankRuns replaceAll
  congr 1

/-- The lines of two texts when one is the other with blank lines dropped from behind the first line. -/
def DropsBlankLines (t t' : Text) : Prop :=
  ∃ first more more', Text.lines t = first :: more ∧ Text.lines t' = first :: more' ∧
    more'.Sublist more ∧ Text.nonBlank more' = Text.nonBlank more

theorem DropsBlankLines.cons {t t' : Text} (h : DropsBlankLines t t') (c : Char) :
    DropsBlankLines (c :: t) (c :: t') := by
  obtain ⟨first, more, more', ht, ht', hsub, hsame⟩ := h
  obtain ⟨f, ls, hf, hc⟩ := Text.lines_cons c t
  obtain ⟨f', ls', hf', hc'⟩ := Text.lines_cons c t'
  obtain ⟨rfl, rfl⟩ := List.cons.inj (ht.symm.trans hf)
  obtain ⟨rfl, rfl⟩ := List.cons.inj (ht'.symm.trans hf')
  by_cases hn : c = '\n'
  · rw [if_pos hn] at hc hc'
    refine ⟨[], _, _, hc, hc', hsub.cons_cons first, ?_⟩
    cases hb : Text.isBlank first with
    | true => rw [Text.nonBlank_cons_blank hb, Text.nonBlank_cons_blank hb, hsame]
    | false => rw [Text.nonBlank_cons hb, Text.nonBlank_cons hb, hsame]
  · rw [if_neg hn] at hc hc'
    exact ⟨_, _, _, hc, hc', hsub, hsame⟩

/-- **Collapsing drops blank lines behind the first line, and nothing else.** -/
theorem lines_collapse (t : Text) : DropsBlankLines t (collapseBlankRuns t) := by
  rw [collapse_eq]
  refine piecesFrom_induction blankRun
    (motive := fun _ t ps => DropsBlankLines t (ps.flatMap collapsePiece)) ?_ ?_ ?_ none t
  · intro _
    exact ⟨[], [], [], rfl, rfl, .refl _, rfl⟩
  · intro _ c t _ ih
    exact ih.cons c
  · intro b m t _ hm ih
    obtain ⟨w, r, htext, -, hw, -⟩ := matchAt?_blankRun hm
    obtain ⟨first, more, more', ht, ht', hsub, hsame⟩ := ih.cons '\n'
    have hlines : Text.lines (m.text ++ t) = [] :: (Text.lines w ++ Text.lines t) := by
      have h₁ := Text.lines_append [] (w ++ '\n' :: t)
      have h₂ := Text.lines_append w t
      rw [List.nil_append] at h₁
      rw [htext]
      simp only [List.cons_append, List.append_assoc, List.nil_append]
      rw [h₁, h₂]
      rfl
    have hbreak : Text.lines ('\n' :: t) = [] :: Text.lines t := by
      have h₁ := Text.lines_append [] t
      rw [List.nil_append] at h₁
      exact h₁
    obtain ⟨rfl, rfl⟩ := List.cons.inj (ht.symm.trans hbreak)
    refine ⟨[], _, more', hlines, ht', hsub.trans (List.sublist_append_right _ _), ?_⟩
    rw [hsame, Text.nonBlank_append, Text.nonBlank_lines_of_isBlank hw, List.nil_append]

theorem nonBlank_lines_collapse (t : Text) :
    Text.nonBlank (Text.lines (collapseBlankRuns t)) = Text.nonBlank (Text.lines t) := by
  obtain ⟨first, more, more', ht, ht', -, hsame⟩ := lines_collapse t
  rw [ht, ht']
  cases hb : Text.isBlank first with
  | true => rw [Text.nonBlank_cons_blank hb, Text.nonBlank_cons_blank hb, hsame]
  | false => rw [Text.nonBlank_cons hb, Text.nonBlank_cons hb, hsame]

theorem NoBlankRun.cons {c : Char} {t : Text} (h : NoBlankRun t) (hc : c = '\n' → ¬ LeadsToBreak t) :
    NoBlankRun (c :: t) := by
  intro w hw hrun
  rcases List.infix_cons_iff.mp hrun with hpre | hrun
  · obtain ⟨rfl, r, rfl⟩ := List.cons_prefix_cons.mp hpre
    exact hc rfl (leadsToBreak_iff.mpr ⟨w, r, by simp, hw⟩)
  · exact h w hw hrun

/-- **No blank run is left after collapsing.** -/
theorem noBlankRun_collapse (t : Text) : NoBlankRun (collapseBlankRuns t) := by
  rw [collapse_eq]
  -- beside the claim, collapsing must not let blanks lead to a line feed where they did not before
  refine (piecesFrom_induction blankRun
    (motive := fun _ t ps => NoBlankRun (ps.flatMap collapsePiece) ∧
      (LeadsToBreak (ps.flatMap collapsePiece) → LeadsToBreak t)) ?_ ?_ ?_ none t).1
  · intro _
    exact ⟨by simp [NoBlankRun], id⟩
  · intro b c t hmiss ih
    obtain ⟨hruns, hlead⟩ := ih
    by_cases hc : c = '\n'
    · subst hc
      have hnot : ¬ LeadsToBreak t := not_leadsToBreak_of_miss hmiss
      exact ⟨hruns.cons fun _ h => hnot (hlead h), fun _ => leadsToBreak_iff.mpr ⟨[], t, rfl, rfl⟩⟩
    · refine ⟨hruns.cons fun h => absurd h hc, fun h => ?_⟩
      obtain ⟨hb, h⟩ := (leadsToBreak_cons hc).mp h
      exact (leadsToBreak_cons hc).mpr ⟨hb, hlead h⟩
  · intro b m t _ hm ih
    obtain ⟨hruns, hlead⟩ := ih
    obtain ⟨-, w, r, htext, ht, hw, hr⟩ := matchAt?_blankRun_iff.mp hm
    obtain rfl : t = r := List.append_cancel_left ht
    refine ⟨hruns.cons fun _ h => hr (hlead h), fun _ => leadsToBreak_iff.mpr ⟨[], w ++ '\n' :: t, ?_, rfl⟩⟩
    rw [htext]
    simp

end SolidityKit.Source
