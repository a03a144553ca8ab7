/-
How a search cuts a text.

A search goes from left to right and looks at one place after another.  `piecesFrom_induction` is that
walk as a principle of proof: the text is empty, or its first character belongs to no match, or a match
stands in front.  Two facts carry most of what is proved about searches.  A stretch of text in which no
match starts comes back character by character (`piecesFrom_plain`), and a search may be cut in two
wherever no match reaches across the cut (`piecesFrom_append`).
-/
import SolidityKit.Proofs.Pattern.Ways

namespace SolidityKit.Pattern

variable {p : Pattern} {b : Option Char} {t u v r : Text} {m : Match}

/-! ### One step -/

theorem piecesFrom_skip (w : Text) :
    p.piecesFrom w.length b (w ++ t) = p.piecesFrom 0 (lastOf b w) t := by
  induction w generalizing b with
  | nil => rfl
  | cons c w ih =>
      rw [List.length_cons, List.cons_append, piecesFrom, ih, lastOf_cons]

theorem piecesFrom_hit (h : p.matchAt? b (m.text ++ t) = some m) (hne : m.text ≠ []) :
    p.piecesFrom 0 b (m.text ++ t) = .hit m :: p.piecesFrom 0 (lastOf b m.text) t := by
  cases hm : m.text with
  | nil => exact absurd hm hne
  | cons c w =>
      rw [hm, List.cons_append] at h
      rw [List.cons_append, piecesFrom, h]
      simp [hm, piecesFrom_skip]

theorem piecesFrom_miss {c : Char} (h : ∀ m, p.matchAt? b (c :: t) = some m → m.text = []) :
    p.piecesFrom 0 b (c :: t) = .plain c :: p.piecesFrom 0 (some c) t := by
  rw [piecesFrom]
  cases hm : p.matchAt? b (c :: t) with
  | none => rfl
  | some m => simp [h m hm]

/-- The walk of a search over a text, as a principle of induction. -/
theorem piecesFrom_induction (p : Pattern) {motive : Option Char → Text → List Piece → Prop}
    (nil : ∀ b, motive b [] [])
    (plain : ∀ b c t, (∀ m, p.matchAt? b (c :: t) = some m → m.text = []) →
      motive (some c) t (p.piecesFrom 0 (some c) t) →
      motive b (c :: t) (.plain c :: p.piecesFrom 0 (some c) t))
    (hit : ∀ b m t, m.text ≠ [] → p.matchAt? b (m.text ++ t) = some m →
      motive (lastOf b m.text) t (p.piecesFrom 0 (lastOf b m.text) t) →
      motive b (m.text ++ t) (.hit m :: p.piecesFrom 0 (lastOf b m.text) t))
    (b : Option Char) (t : Text) : motive b t (p.piecesFrom 0 b t) := by
  induction hn : t.length using Nat.strongRecOn generalizing b t with
  | _ n ih =>
      subst hn
      cases t with
      | nil => exact nil b
      | cons c t =>
          by_cases h : ∀ m, p.matchAt? b (c :: t) = some m → m.text = []
          · rw [piecesFrom_miss h]
            exact plain b c t h (ih t.length (by simp) (some c) t rfl)
          · push Not at h
            obtain ⟨m, hm, hne⟩ := h
            obtain ⟨d, -, htext, -⟩ := matchAt?_eq_some hm
            have hlt : d.rest.length < (c :: t).length := by
              have := List.length_pos_iff.mpr hne
              rw [htext, List.length_append]
              omega
            rw [htext] at hm ⊢
            rw [piecesFrom_hit hm hne]
            exact hit b m d.rest hne hm (ih _ hlt _ _ rfl)

/-- The search does not depend on what stands before, if the matches do not. -/
theorem piecesFrom_before (h : ∀ b b' t, p.matchAt? b t = p.matchAt? b' t) (b b' : Option Char)
    (t : Text) : p.piecesFrom 0 b t = p.piecesFrom 0 b' t := by
  cases t with
  | nil => rfl
  | cons c t => rw [piecesFrom, piecesFrom, h b b' (c :: t)]

/-! ### Nothing is lost -/

/-- The pieces of a text make up the text. -/
theorem flatMap_text_piecesFrom (p : Pattern) (b : Option Char) (t : Text) :
    (p.piecesFrom 0 b t).flatMap Piece.text = t := by
  refine piecesFrom_induction p (motive := fun _ t ps => ps.flatMap Piece.text = t) ?_ ?_ ?_ b t
  · intro _
    rfl
  · intro _ c t _ ih
    rw [List.flatMap_cons, ih]
    rfl
  · intro _ m t _ _ ih
    rw [List.flatMap_cons, ih]
    rfl

theorem flatMap_text_pieces (p : Pattern) (t : Text) : (p.pieces t).flatMap Piece.text = t :=
  flatMap_text_piecesFrom p none t

@[simp] theorem filterMap_match?_plain (w : Text) :
    (w.map Piece.plain).filterMap Piece.match? = [] := by
  induction w with
  | nil => rfl
  | cons c w ih => exact ih

/-- Each match in the list is the match at some place. -/
theorem matchAt?_of_mem_allMatches (h : m ∈ p.allMatches t) : ∃ b r, p.matchAt? b r = some m := by
  have hwalk : m ∈ (p.piecesFrom 0 none t).filterMap Piece.match? → ∃ b r, p.matchAt? b r = some m := by
    refine piecesFrom_induction p
      (motive := fun _ _ ps => m ∈ ps.filterMap Piece.match? → ∃ b r, p.matchAt? b r = some m) ?_ ?_ ?_ none t
    · intro _ hm
      simp at hm
    · intro _ c t _ ih hm
      exact ih hm
    · intro b m' t _ hm' ih hm
      rcases List.mem_cons.mp hm with rfl | hm
      · exact ⟨b, _, hm'⟩
      · exact ih hm
  exact hwalk h

/-- Replacing changes nothing where nothing matches. -/
theorem replaceAll_of_no_match (h : p.allMatches t = []) (f : Match → Text) : p.replaceAll f t = t := by
  have hplain : ∀ piece ∈ p.pieces t, piece.match? = none := by
    intro piece hpiece
    exact List.filterMap_eq_nil_iff.mp h piece hpiece
  unfold replaceAll
  conv_rhs => rw [← flatMap_text_pieces p t]
  refine List.flatMap_congr fun piece hpiece => ?_
  cases piece with
  | plain c => rfl
  | hit m =>
      have := hplain (.hit m) hpiece
      simp [Piece.match?] at this

theorem occursIn_eq_false_iff : p.occursIn t = false ↔ p.allMatches t = [] := by
  rw [occursIn, first?, Option.isSome_eq_false_iff, Option.isNone_iff_eq_none, List.head?_eq_none_iff]

/-- A match at the start of the text is the first. -/
theorem first?_of_matchAt? (h : p.matchAt? none t = some m) (hne : m.text ≠ []) : p.first? t = some m := by
  obtain ⟨d, -, ht, -⟩ := matchAt?_eq_some h
  rw [ht] at h
  rw [first?, allMatches, pieces, ht, piecesFrom_hit h hne]
  rfl

/-- Where a search finds nothing, nothing matches. -/
theorem text_eq_nil_of_no_match (h : p.allMatches (u ++ v) = [])
    (hm : p.matchAt? (lastOf none u) v = some m) : m.text = [] := by
  have hwalk : ∀ b t, (p.piecesFrom 0 b t).filterMap Piece.match? = [] → ∀ u v m, t = u ++ v →
      p.matchAt? (lastOf b u) v = some m → m.text = [] := by
    intro b t
    refine piecesFrom_induction p (motive := fun b t ps => ps.filterMap Piece.match? = [] →
      ∀ u v m, t = u ++ v → p.matchAt? (lastOf b u) v = some m → m.text = []) ?_ ?_ ?_ b t
    · intro b _ u v m ht hm
      obtain ⟨rfl, rfl⟩ := List.append_eq_nil_iff.mp ht.symm
      obtain ⟨d, -, htext, -⟩ := matchAt?_eq_some hm
      exact (List.append_eq_nil_iff.mp htext.symm).1
    · intro b c t hmiss ih hps u v m ht hm
      cases u with
      | nil =>
          rw [List.nil_append] at ht
          rw [← ht] at hm
          exact hmiss m hm
      | cons x u =>
          obtain ⟨rfl, rfl⟩ := List.cons.inj ht
          rw [lastOf_cons] at hm
          exact ih hps u v m rfl hm
    · intro b m' t _ _ _ hps
      simp [Piece.match?] at hps
  exact hwalk none (u ++ v) h u v m rfl hm

/-- The first of the matches that a search finds: no match starts before it, and the search
goes on behind it. -/
theorem exists_first_match {more : List Match} (h : p.allMatches t = m :: more) :
    ∃ a r, t = a ++ (m.text ++ r) ∧ p.matchAt? (lastOf none a) (m.text ++ r) = some m ∧
      (∀ u v m', a = u ++ v → v ≠ [] → p.matchAt? (lastOf none u) (v ++ (m.text ++ r)) =
        some m' → m'.text = []) ∧
      (p.piecesFrom 0 (lastOf none (a ++ m.text)) r).filterMap Piece.match? = more := by
  have hwalk : ∀ b t, (p.piecesFrom 0 b t).filterMap Piece.match? = m :: more →
      ∃ a r, t = a ++ (m.text ++ r) ∧ p.matchAt? (lastOf b a) (m.text ++ r) = some m ∧
        (∀ u v m', a = u ++ v → v ≠ [] → p.matchAt? (lastOf b u) (v ++ (m.text ++ r)) =
          some m' → m'.text = []) ∧
        (p.piecesFrom 0 (lastOf b (a ++ m.text)) r).filterMap Piece.match? = more := by
    intro b t
    refine piecesFrom_induction p (motive := fun b t ps => ps.filterMap Piece.match? = m :: more →
      ∃ a r, t = a ++ (m.text ++ r) ∧ p.matchAt? (lastOf b a) (m.text ++ r) = some m ∧
        (∀ u v m', a = u ++ v → v ≠ [] → p.matchAt? (lastOf b u) (v ++ (m.text ++ r)) =
          some m' → m'.text = []) ∧
        (p.piecesFrom 0 (lastOf b (a ++ m.text)) r).filterMap Piece.match? = more) ?_ ?_ ?_ b t
    · intro b hps
      simp at hps
    · intro b c t hmiss ih hps
      obtain ⟨a, r, rfl, hm, hbefore, hmore⟩ := ih hps
      refine ⟨c :: a, r, rfl, by rwa [lastOf_cons], ?_, by rwa [List.cons_append, lastOf_cons]⟩
      intro u v m' ha hv hm'
      cases u with
      | nil =>
          rw [List.nil_append] at ha
          rw [← ha] at hm'
          exact hmiss m' hm'
      | cons x u =>
          obtain ⟨rfl, rfl⟩ := List.cons.inj ha
          rw [lastOf_cons] at hm'
          exact hbefore u v m' rfl hv hm'
    · intro b m' t _ hm _ hps
      obtain ⟨rfl, hmore⟩ := List.cons.inj hps
      refine ⟨[], t, rfl, hm, ?_, hmore⟩
      intro u v _ ha hv
      exact absurd (List.append_eq_nil_iff.mp ha.symm).2 hv
  exact hwalk none t h

/-! ### Stretches without a match, and cuts -/

/-- No match starts within `u` when `v` follows. -/
def NoneStarts (p : Pattern) (u v : Text) : Prop :=
  ∀ s, s ≠ [] → s <:+ u → ∀ b, p.matchAt? b (s ++ v) = none

theorem NoneStarts.tail {c : Char} (h : NoneStarts p (c :: u) v) : NoneStarts p u v :=
  fun s hs hsuf => h s hs (hsuf.trans (List.suffix_cons c u))

theorem noneStarts_cons {c : Char} (hc : ∀ b, p.matchAt? b (c :: (u ++ v)) = none)
    (h : NoneStarts p u v) : NoneStarts p (c :: u) v := by
  intro s hs hsuf b
  rcases List.suffix_cons_iff.mp hsuf with rfl | hsuf
  · exact hc b
  · exact h s hs hsuf b

/-- A stretch of text in which no match starts comes back as it is. -/
theorem piecesFrom_plain (h : NoneStarts p u v) :
    p.piecesFrom 0 b (u ++ v) = u.map Piece.plain ++ p.piecesFrom 0 (lastOf b u) v := by
  induction u generalizing b with
  | nil => rfl
  | cons c u ih =>
      have hc : p.matchAt? b (c :: (u ++ v)) = none := h (c :: u) (by simp) List.suffix_rfl b
      rw [List.cons_append, piecesFrom_miss (by simp [hc]), ih h.tail, lastOf_cons]
      rfl

theorem pieces_plain (h : NoneStarts p t []) : p.pieces t = t.map Piece.plain := by
  have := piecesFrom_plain (b := none) h
  simpa [piecesFrom, pieces] using this

/-- Matches that start within `u` are the same whether `v` follows or not. -/
def NoneCrosses (p : Pattern) (u v : Text) : Prop :=
  ∀ s, s ≠ [] → s <:+ u → ∀ b, p.matchAt? b (s ++ v) = p.matchAt? b s

/-- A search may be cut where no match reaches across. -/
theorem piecesFrom_append (h : NoneCrosses p u v) :
    p.piecesFrom 0 b (u ++ v) = p.piecesFrom 0 b u ++ p.piecesFrom 0 (lastOf b u) v := by
  revert h
  refine piecesFrom_induction p
    (motive := fun b u ps => NoneCrosses p u v →
      p.piecesFrom 0 b (u ++ v) = ps ++ p.piecesFrom 0 (lastOf b u) v) ?_ ?_ ?_ b u
  · intro b _
    rfl
  · intro b c u hmiss ih h
    have hc : p.matchAt? b (c :: (u ++ v)) = p.matchAt? b (c :: u) :=
      h (c :: u) (by simp) List.suffix_rfl b
    rw [List.cons_append, piecesFrom_miss (by rw [hc]; exact hmiss),
      ih fun s hs hsuf => h s hs (hsuf.trans (List.suffix_cons c u)), lastOf_cons]
    rfl
  · intro b m u hne hm ih h
    have hm' : p.matchAt? b (m.text ++ (u ++ v)) = some m := by
      rw [← List.append_assoc, h (m.text ++ u) (by simp [hne]) List.suffix_rfl b, hm]
    rw [List.append_assoc, piecesFrom_hit hm' hne,
      ih fun s hs hsuf => h s hs (hsuf.trans (List.suffix_append m.text u)), lastOf_append]
    rfl

/-! ### The text a match begins with

Most of the time a proof only needs to know that a pattern cannot match somewhere, and then it is enough to
know with which text each of its matches begins.
-/

/-- Each match of the pattern begins with a given text. -/
def OpensWith (p : Pattern) (w : Text) : Prop := ∀ b t m, p.matchAt? b t = some m → w <+: m.text

/-- A pattern that begins with a word, perhaps at the start of a line only, opens with that word. -/
theorem opensWith_of_ends {p : Pattern} {w : Text}
    (h : ∀ b t d, d ∈ p.ends ⟨b, t, none⟩ → ∃ v r, t = w ++ (v ++ r) ∧ d.rest = r) : OpensWith p w := by
  intro b t m hm
  obtain ⟨d, hd, ht, -⟩ := matchAt?_eq_some hm
  obtain ⟨v, r, ht', hr⟩ := h b t d hd
  refine ⟨v, ?_⟩
  rw [← hr, ← List.append_assoc] at ht'
  exact (List.append_cancel_right (ht.symm.trans ht')).symm

/-- No match starts in a line that does not hold the opening text, unless the text spans lines. -/
theorem noneStarts_of_absent {p : Pattern} {w line : Text} (hp : OpensWith p w) (hn : '\n' ∉ w)
    (hw : ¬ w <:+: line) (hr : Text.AtLineEnd r) : NoneStarts p line r := by
  intro s hs hsuf b
  rw [Option.eq_none_iff_forall_ne_some]
  intro m hm
  obtain ⟨d, -, ht, -⟩ := matchAt?_eq_some hm
  have hpre : w <+: s ++ r := (hp b _ m hm).trans ⟨d.rest, ht.symm⟩
  exact hw (List.IsInfix.trans (Text.prefix_line hn hr hpre).isInfix hsuf.isInfix)

/-- A match never begins with a character that is blank, if the opening text does not. -/
theorem noneStarts_blank {p : Pattern} {w : Text} {c : Char} (hp : OpensWith p (c :: w))
    (hc : isBlank c = false) {v : Text} (hv : Text.isBlank v = true) (r : Text) : NoneStarts p v r := by
  intro s hs hsuf b
  rw [Option.eq_none_iff_forall_ne_some]
  intro m hm
  obtain ⟨d, -, ht, -⟩ := matchAt?_eq_some hm
  have hpre : c :: w <+: s ++ r := (hp b _ m hm).trans ⟨d.rest, ht.symm⟩
  cases s with
  | nil => exact absurd rfl hs
  | cons x s =>
      obtain ⟨rfl, -⟩ := List.cons_prefix_cons.mp hpre
      rw [Text.isBlank_iff.mp hv c (hsuf.mem (by simp))] at hc
      simp at hc

end SolidityKit.Pattern
