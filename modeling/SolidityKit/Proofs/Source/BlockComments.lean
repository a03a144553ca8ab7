/-
Block comments.

The shape of a block comment is written so that it needs no look ahead: up to a first run of stars, then any
number of stretches that begin with neither a star nor a slash and end in stars, then a slash.  What it reads
is simple all the same.  A block comment runs from its opening mark to the first closing mark behind it
(`matchAt?_blockComment`), so at each place there is at most one.
-/
import SolidityKit.Proofs.Source.Shapes

namespace SolidityKit.Shape

open Pattern

variable {b : Option Char} {t r a x z g : Text} {cap : Option Text} {d : Cursor} {m : Match}

/-! ### Closing marks -/

/-- Two characters that stand side by side in a text stand so in one of its halves, or where these meet. -/
theorem pair_infix_append {x y : Char} {a b : Text} :
    [x, y] <:+: a ++ b ↔ [x, y] <:+: a ∨ [x, y] <:+: b ∨ (a.getLast? = some x ∧ b.head? = some y) := by
  induction a with
  | nil => simp
  | cons c a ih =>
      rw [List.cons_append, List.infix_cons_iff, ih, List.infix_cons_iff, List.cons_prefix_cons,
        List.cons_prefix_cons]
      cases a with
      | nil =>
          cases b with
          | nil => simp
          | cons d b =>
              simp
              tauto
      | cons d a =>
          simp
          tauto

/-- A text that ends in a star and holds no closing mark. -/
def Starred (z : Text) : Prop := z.getLast? = some '*' ∧ ¬ "*/".toList <:+: z

/-- A run of stars. -/
def IsStars (s : Text) : Prop := s ≠ [] ∧ AllIn (· == '*') s

theorem IsStars.lastOf_eq {s : Text} (h : IsStars s) : lastOf b s = some '*' := by
  obtain ⟨hne, hall⟩ := h
  obtain ⟨s', c, rfl⟩ := (List.eq_nil_or_concat' s).resolve_left hne
  have hc : c = '*' := by simpa using hall c (by simp)
  simp [lastOf, hc]

theorem IsStars.starred {s : Text} (h : IsStars s) : Starred s := by
  obtain ⟨hne, hall⟩ := h
  obtain ⟨s', c, rfl⟩ := (List.eq_nil_or_concat' s).resolve_left hne
  have hc : c = '*' := by simpa using hall c (by simp)
  refine ⟨by simp [hc], fun hclose => ?_⟩
  simpa using hall '/' (hclose.mem (by simp))

/-- A block comment: between its marks, and with the star of the last, stands no closing mark. -/
def IsBlock (x : Text) : Prop := ∃ w, x = "/*".toList ++ (w ++ "*/".toList) ∧ ¬ "*/".toList <:+: w ++ ['*']

theorem mem_stars :
    d ∈ (oneOrMore (one (· == '*'))).ends ⟨b, t, cap⟩ ↔ ∃ s r, t = s ++ r ∧ IsStars s ∧
      d = ⟨some '*', r, cap⟩ := by
  rw [mem_ends_oneOrMore]
  constructor
  · rintro ⟨s, r, rfl, hne, hs, rfl⟩
    exact ⟨s, r, rfl, ⟨hne, hs⟩, by rw [IsStars.lastOf_eq ⟨hne, hs⟩]⟩
  · rintro ⟨s, r, rfl, hs, rfl⟩
    exact ⟨s, r, rfl, hs.1, hs.2, by rw [hs.lastOf_eq]⟩

/-! ### Stretches -/

/-- What may stand, any number of times, between the first run of stars and the slash. -/
def stretch : Pattern := inOrder [noneOf ['/', '*'], many (noneOf ['*']), oneOrMore (one (· == '*'))]

/-- A stretch: a character that is neither a star nor a slash, others than stars, and stars. -/
def IsStretch (g : Text) : Prop :=
  ∃ c n s, g = c :: (n ++ s) ∧ c ≠ '/' ∧ c ≠ '*' ∧ '*' ∉ n ∧ IsStars s

theorem mem_stretch :
    d ∈ stretch.ends ⟨b, t, cap⟩ ↔ ∃ g r, t = g ++ r ∧ IsStretch g ∧ d = ⟨some '*', r, cap⟩ := by
  simp only [stretch, mem_ends_inOrder_cons, mem_ends_inOrder_nil, noneOf]
  constructor
  · rintro ⟨e, he, f, hf, k, hk, rfl⟩
    obtain ⟨c, r, rfl, hc, rfl⟩ := mem_ends_one.mp he
    obtain ⟨n, r, rfl, hn, rfl⟩ := mem_ends_many.mp hf
    obtain ⟨s, r, rfl, hs, rfl⟩ := mem_stars.mp hk
    have hc' : c ≠ '/' ∧ c ≠ '*' := by simpa using hc
    have hn' : '*' ∉ n := by simpa using allIn_noneOf.mp hn
    exact ⟨c :: (n ++ s), r, by simp, ⟨c, n, s, rfl, hc'.1, hc'.2, hn', hs⟩, rfl⟩
  · rintro ⟨g, r, rfl, ⟨c, n, s, rfl, hslash, hstar, hn, hs⟩, rfl⟩
    refine ⟨_, mem_ends_one.mpr ⟨c, n ++ (s ++ r), by simp, by simp [hslash, hstar], rfl⟩,
      _, mem_ends_many.mpr ⟨n, s ++ r, rfl, ?_, rfl⟩, _, mem_stars.mpr ⟨s, r, rfl, hs, rfl⟩, rfl⟩
    exact allIn_noneOf.mpr (by simpa using hn)

/-- Behind a star, a stretch brings no closing mark and ends in a star again. -/
theorem Starred.append_stretch (hz : Starred z) (hg : IsStretch g) : Starred (z ++ g) := by
  obtain ⟨c, n, s, rfl, hslash, hstar, hn, hs⟩ := hg
  have hstars := hs.starred
  have hfront : '*' ∉ c :: n := by simp [Ne.symm hstar, hn]
  refine ⟨?_, ?_⟩
  · rw [List.getLast?_append_of_ne_nil _ (List.cons_ne_nil _ _), ← List.cons_append,
      List.getLast?_append_of_ne_nil _ hs.1]
    exact hstars.1
  · rw [show "*/".toList = ['*', '/'] from rfl, pair_infix_append, ← List.cons_append, pair_infix_append]
    rintro (h | (h | h | ⟨h, -⟩) | ⟨-, h⟩)
    · exact hz.2 h
    · exact hfront (h.mem (by simp))
    · exact hstars.2 h
    · exact hfront (List.mem_of_getLast? h)
    · exact hslash (by simpa using h)

/-- A step that a repetition takes comes before the ways from there. -/
theorem mem_ends_many_step {p : Pattern} {c e : Cursor} (he : e ∈ p.ends c)
    (hlt : e.rest.length < c.rest.length) (hd : d ∈ (many p).ends e) : d ∈ (many p).ends c := by
  have hmono : ∀ (n k : Nat) (c : Cursor), n ≤ k → d ∈ manyEnds p.ends n c → d ∈ manyEnds p.ends k c := by
    intro n
    induction n with
    | zero =>
        intro k c _ h
        cases k with
        | zero => exact h
        | succ k => exact List.mem_append_right _ h
    | succ n ih =>
        intro k c hk h
        obtain ⟨k, rfl⟩ := Nat.exists_eq_add_of_lt hk
        rw [manyEnds, List.mem_append, List.mem_flatMap] at h ⊢
        rcases h with ⟨e, he, hd⟩ | h
        · exact Or.inl ⟨e, he, ih _ e (by omega) hd⟩
        · exact Or.inr h
  obtain ⟨k, hk⟩ := Nat.exists_eq_add_of_lt hlt
  rw [ends, hk, manyEnds, List.mem_append, List.mem_flatMap]
  exact Or.inl ⟨e, he, hmono _ _ e (Nat.le_add_right _ _) hd⟩

/-- What stretches read behind a star brings no closing mark and ends in a star again. -/
theorem of_mem_manyEnds_stretch {n : Nat} (h : d ∈ manyEnds stretch.ends n ⟨some '*', t, cap⟩) :
    ∃ g r, t = g ++ r ∧ d = ⟨some '*', r, cap⟩ ∧ ∀ z, Starred z → Starred (z ++ g) := by
  induction n generalizing t with
  | zero =>
      rw [manyEnds, List.mem_singleton] at h
      exact ⟨[], t, rfl, h, fun z hz => by rwa [List.append_nil]⟩
  | succ n ih =>
      rw [manyEnds, List.mem_append, List.mem_flatMap, List.mem_singleton] at h
      rcases h with ⟨e, he, hd⟩ | rfl
      · obtain ⟨g, r, rfl, hg, rfl⟩ := mem_stretch.mp he
        obtain ⟨g', r, rfl, rfl, hstarred⟩ := ih hd
        refine ⟨g ++ g', r, by simp, rfl, fun z hz => ?_⟩
        rw [← List.append_assoc]
        exact hstarred _ (hz.append_stretch hg)
      · exact ⟨[], t, rfl, rfl, fun z hz => by rwa [List.append_nil]⟩

/-- Another character than a star or a slash begins what is left behind a run of stars. -/
def Opened (g : Text) : Prop := g = [] ∨ (Starred g ∧ g.head? ≠ some '*' ∧ g.head? ≠ some '/')

/-- A text that ends in a star is cut behind its first run of stars. -/
theorem Starred.cut (hz : Starred z) : ∃ n s g, z = n ++ (s ++ g) ∧ '*' ∉ n ∧ IsStars s ∧ Opened g := by
  obtain ⟨n, r, rfl, hn⟩ := List.eq_append_cons_of_mem (List.mem_of_getLast? hz.1)
  have hstars : IsStars ('*' :: r.takeWhile (· == '*')) := by
    refine ⟨List.cons_ne_nil _ _, allIn_cons.mpr ⟨rfl, fun x hx => ?_⟩⟩
    exact List.mem_takeWhile_imp (p := (· == '*')) hx
  have hcut : '*' :: r = '*' :: r.takeWhile (· == '*') ++ r.dropWhile (· == '*') := by simp
  refine ⟨n, '*' :: r.takeWhile (· == '*'), r.dropWhile (· == '*'), by rw [← hcut], hn, hstars, ?_⟩
  rw [hcut] at hz
  by_cases hg : r.dropWhile (· == '*') = []
  · exact Or.inl hg
  · refine Or.inr ⟨⟨?_, fun h => hz.2 ?_⟩, fun h => ?_, fun h => hz.2 ?_⟩
    · have hlast := hz.1
      rwa [List.getLast?_append_of_ne_nil _ (by simp), List.getLast?_append_of_ne_nil _ hg] at hlast
    · exact h.trans ⟨n ++ '*' :: r.takeWhile (· == '*'), [], by simp⟩
    · have := List.head?_dropWhile_not (· == '*') r
      rw [h] at this
      simp at this
    · rw [show "*/".toList = ['*', '/'] from rfl, pair_infix_append, pair_infix_append]
      exact Or.inr (Or.inl (Or.inr (Or.inr ⟨hstars.starred.1, h⟩)))

/-- Whatever is left behind a run of stars is read by stretches. -/
theorem mem_many_stretch (hg : Opened g) :
    (⟨some '*', r, cap⟩ : Cursor) ∈ (many stretch).ends ⟨some '*', g ++ r, cap⟩ := by
  induction hn : g.length using Nat.strongRecOn generalizing g with
  | _ n ih =>
      rcases hg with rfl | ⟨hstarred, hstar, hslash⟩
      · cases r <;> simp [ends, manyEnds]
      · cases g with
        | nil => simp [Starred] at hstarred
        | cons c g =>
            have hne : g ≠ [] := by
              rintro rfl
              exact hstar hstarred.1
            have hrest : Starred g := by
              refine ⟨?_, fun h => hstarred.2 (h.trans (List.suffix_cons c g).isInfix)⟩
              have hlast := hstarred.1
              rwa [← List.singleton_append, List.getLast?_append_of_ne_nil _ hne] at hlast
            obtain ⟨n', s, g', rfl, hn', hs, hg'⟩ := hrest.cut
            have hstretch : IsStretch (c :: (n' ++ s)) :=
              ⟨c, n', s, rfl, by simpa using hslash, by simpa using hstar, hn', hs⟩
            have hstep : (⟨some '*', g' ++ r, cap⟩ : Cursor) ∈ stretch.ends ⟨some '*', c ::
              (n' ++ (s ++ g')) ++ r, cap⟩ :=
              mem_stretch.mpr ⟨_, _, by simp, hstretch, rfl⟩
            refine mem_ends_many_step hstep ?_ (ih g'.length ?_ hg' rfl)
            · simp
              omega
            · rw [← hn]
              simp
              omega

/-! ### Block comments -/

/-- **What a block comment reads.** -/
theorem mem_blockComment :
    d ∈ blockComment.ends ⟨b, t, cap⟩ ↔ ∃ x r, t = x ++ r ∧ IsBlock x ∧ d = ⟨some '/', r, cap⟩ := by
  have hshape : blockComment = inOrder [word "/*", many (noneOf ['*']), oneOrMore (one (· == '*')),
    many stretch,
      one (· == '/')] := rfl
  rw [hshape]
  simp only [mem_ends_inOrder_cons, mem_ends_inOrder_nil, word, noneOf]
  constructor
  · rintro ⟨e, he, f, hf, k, hk, i, hi, j, hj, rfl⟩
    obtain ⟨r, rfl, rfl⟩ := mem_ends_literal.mp he
    obtain ⟨n, r, rfl, hn, rfl⟩ := mem_ends_many.mp hf
    obtain ⟨s, r, rfl, hs, rfl⟩ := mem_stars.mp hk
    obtain ⟨g, r, rfl, rfl, hg⟩ := of_mem_manyEnds_stretch hi
    obtain ⟨r, rfl, rfl⟩ := mem_ends_one_eq.mp hj
    have hn' : '*' ∉ n := by simpa using allIn_noneOf.mp hn
    have hstarred : Starred (n ++ s) := by
      refine ⟨by rw [List.getLast?_append_of_ne_nil _ hs.1]; exact hs.starred.1, fun h => ?_⟩
      rw [show "*/".toList = ['*', '/'] from rfl, pair_infix_append] at h
      rcases h with h | h | ⟨h, -⟩
      · exact hn' (h.mem (by simp))
      · exact hs.starred.2 h
      · exact hn' (List.mem_of_getLast? h)
    obtain ⟨w, hw⟩ := List.getLast?_eq_some_iff.mp (hg _ hstarred).1
    refine ⟨"/*".toList ++ (w ++ "*/".toList), r, ?_, ⟨w, rfl, hw ▸ (hg _ hstarred).2⟩, rfl⟩
    have hbody : n ++ (s ++ (g ++ '/' :: r)) = (n ++ s ++ g) ++ '/' :: r := by simp
    rw [hbody, hw]
    simp
  · rintro ⟨x, r, rfl, ⟨w, rfl, hw⟩, rfl⟩
    have hstarred : Starred (w ++ ['*']) := ⟨by simp, hw⟩
    obtain ⟨n, s, g, hcut, hn, hs, hg⟩ := hstarred.cut
    have hbody : w ++ "*/".toList ++ r = n ++ (s ++ (g ++ '/' :: r)) := by
      rw [show w ++ "*/".toList = (w ++ ['*']) ++ ['/'] by simp, hcut]
      simp
    rw [List.append_assoc, hbody]
    exact ⟨_, mem_ends_literal.mpr ⟨_, rfl, rfl⟩,
      _, mem_ends_many.mpr ⟨n, _, rfl, allIn_noneOf.mpr (by simpa using hn), rfl⟩, _,
        mem_stars.mpr ⟨s, _, rfl, hs, rfl⟩, _, mem_many_stretch hg, _, mem_ends_one_eq.mpr ⟨r, rfl, rfl⟩, rfl⟩

/-- The first closing mark of a text stands in one place. -/
theorem closing_cut {w e r r' : Text} (h : ¬ "*/".toList <:+: w ++ e ++ ['*'])
    (hcut : "*/".toList ++ r = e ++ ("*/".toList ++ r')) : e = [] := by
  cases e with
  | nil => rfl
  | cons c e =>
      have hstar : '*' = c := (List.cons.inj hcut).1
      have hrest : '/' :: r = e ++ ("*/".toList ++ r') := (List.cons.inj hcut).2
      cases e with
      | nil =>
          have hhead : '/' = '*' := (List.cons.inj hrest).1
          exact absurd hhead (by decide)
      | cons d e =>
          have hslash : '/' = d := (List.cons.inj hrest).1
          refine absurd ⟨w, e ++ ['*'], ?_⟩ h
          simp [← hstar, ← hslash]

/-- At one place there is at most one block comment. -/
theorem isBlock_unique {x x' r r' : Text} (hx : IsBlock x) (hx' : IsBlock x') (h : x ++ r = x' ++ r') :
    x = x' ∧ r = r' := by
  obtain ⟨w, rfl, hw⟩ := hx
  obtain ⟨w', rfl, hw'⟩ := hx'
  simp only [List.append_assoc, List.append_cancel_left_eq] at h
  have hsame : w = w' := by
    rcases List.append_eq_append_iff.mp h with ⟨e, rfl, he⟩ | ⟨e, rfl, he⟩
    · rw [closing_cut hw' he, List.append_nil]
    · rw [closing_cut hw he, List.append_nil]
  subst hsame
  exact ⟨rfl, List.append_cancel_left (List.append_cancel_left h)⟩

/-- **A block comment runs from its opening mark to the first closing mark behind it.** -/
theorem matchAt?_blockComment :
    blockComment.matchAt? b t = some m ↔ IsBlock m.text ∧ m.captured = none ∧ m.text <+: t := by
  constructor
  · intro h
    obtain ⟨d, hd, ht, hcap⟩ := matchAt?_eq_some h
    obtain ⟨x, r, hx, hblock, rfl⟩ := mem_blockComment.mp hd
    obtain rfl : m.text = x := List.append_cancel_right (ht.symm.trans hx)
    exact ⟨hblock, hcap, ⟨r, ht.symm⟩⟩
  · rintro ⟨hblock, hcap, r, rfl⟩
    have hmem : (⟨some '/', r, none⟩ : Cursor) ∈ blockComment.ends ⟨b, m.text ++ r, none⟩ :=
      mem_blockComment.mpr ⟨m.text, r, rfl, hblock, rfl⟩
    rw [matchAt?_of_unique rfl hmem]
    · simp [← hcap]
    · intro e he
      obtain ⟨x, r', hx, hblock', rfl⟩ := mem_blockComment.mp he
      obtain ⟨-, rfl⟩ := isBlock_unique hblock hblock' hx
      rfl

/-- What stands before a block comment does not matter. -/
theorem blockComment_before (b b' : Option Char) (t : Text) :
    blockComment.matchAt? b t = blockComment.matchAt? b' t := by
  refine Option.ext fun m => ?_
  rw [matchAt?_blockComment, matchAt?_blockComment]

theorem IsBlock.last (h : IsBlock x) : ∃ x', x = x' ++ ['/'] := by
  obtain ⟨w, rfl, -⟩ := h
  exact ⟨"/*".toList ++ (w ++ ['*']), by simp⟩

end SolidityKit.Shape
