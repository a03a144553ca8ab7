/-
Lines of a text, and what they say.

Merging works on whole texts, but what a reader sees in an artifact are its lines without the blanks
around them.  `contentLines` is that view: the lines of a text that are not blank, trimmed.  It is
what trimming a text keeps, and it is additive over a line feed, so that a merge can be followed line
by line although the program never cuts its buffer before the imports are compared.
-/
import SolidityKit.Text.Lines
import SolidityKit.Proofs.Text.Trim
import Mathlib.Data.List.Forall2

namespace SolidityKit.Text

/-! ### Cutting and joining -/

section

variable {α : Type} {sep : α}

theorem joinWith_cons (piece : List α) {pieces : List (List α)} (h : pieces ≠ []) :
    joinWith sep (piece :: pieces) = piece ++ sep :: joinWith sep pieces := by
  cases pieces with
  | nil => exact absurd rfl h
  | cons _ _ => rfl

theorem joinWith_append {ps qs : List (List α)} (hp : ps ≠ []) (hq : qs ≠ []) :
    joinWith sep (ps ++ qs) = joinWith sep ps ++ sep :: joinWith sep qs := by
  induction ps with
  | nil => exact absurd rfl hp
  | cons p ps ih =>
      cases ps with
      | nil => exact joinWith_cons p hq
      | cons p' ps =>
          rw [List.cons_append, joinWith_cons p (by simp), ih (by simp),
            joinWith_cons p (List.cons_ne_nil p' ps)]
          simp

variable [DecidableEq α]

theorem splitAt_append (a b : List α) :
    splitAt sep (a ++ sep :: b) = splitAt sep a ++ splitAt sep b := by
  induction a with
  | nil => simp [splitAt]
  | cons c rest ih =>
      by_cases hc : c = sep
      · simp [splitAt, hc, ih]
      · simp only [List.cons_append, splitAt, if_neg hc, ih]
        cases hs : splitAt sep rest with
        | nil => exact absurd hs (splitAt_ne_nil _ _)
        | cons piece pieces => rfl

theorem splitAt_of_notMem {a : List α} (h : sep ∉ a) : splitAt sep a = [a] := by
  induction a with
  | nil => rfl
  | cons c rest ih =>
      have hc : c ≠ sep := fun hc => h (by simp [hc])
      simp [splitAt, hc, ih fun hm => h (by simp [hm])]

theorem notMem_of_mem_splitAt {t piece : List α} (h : piece ∈ splitAt sep t) : sep ∉ piece := by
  induction t generalizing piece with
  | nil => simp_all [splitAt]
  | cons c rest ih =>
      unfold splitAt at h
      split at h
      · rcases List.mem_cons.mp h with rfl | h
        · simp
        · exact ih h
      · next hc =>
        cases hs : splitAt sep rest with
        | nil => exact absurd hs (splitAt_ne_nil _ _)
        | cons first pieces =>
            rw [hs] at h ih
            rcases List.mem_cons.mp h with rfl | h
            · have hfirst : sep ∉ first := ih (by simp)
              simp [hfirst, Ne.symm hc]
            · exact ih (by simp [h])

/-- Joining and cutting again gives the pieces back, if none of them holds the separator. -/
theorem splitAt_joinWith {pieces : List (List α)} (hne : pieces ≠ []) (h : ∀ p ∈ pieces, sep ∉ p) :
    splitAt sep (joinWith sep pieces) = pieces := by
  induction pieces with
  | nil => exact absurd rfl hne
  | cons piece pieces ih =>
      have hpiece : sep ∉ piece := h piece (by simp)
      cases pieces with
      | nil => exact splitAt_of_notMem hpiece
      | cons next more =>
          rw [joinWith_cons piece (by simp), splitAt_append, splitAt_of_notMem hpiece,
            ih (by simp) fun p hp => h p (by simp [hp])]
          rfl

theorem cut?_append {a : List α} (h : sep ∉ a) (b : List α) : cut? sep (a ++ sep :: b) = some (a, b) := by
  induction a with
  | nil => simp [cut?]
  | cons c rest ih =>
      simp only [List.mem_cons, not_or] at h
      rw [List.cons_append, cut?, if_neg (Ne.symm h.1), ih h.2]
      rfl

theorem cut?_of_notMem {t : List α} (h : sep ∉ t) : cut? sep t = none := by
  induction t with
  | nil => rfl
  | cons c rest ih =>
      simp only [List.mem_cons, not_or] at h
      rw [cut?, if_neg (Ne.symm h.1), ih h.2]
      rfl

/-- A text is cut at the first of the separators in it, and is not cut only if there is none. -/
theorem cut?_cases (sep : α) (t : List α) :
    cut? sep t = none ∧ sep ∉ t ∨ ∃ a b, cut? sep t = some (a, b) ∧ t = a ++ sep :: b ∧ sep ∉ a := by
  by_cases h : sep ∈ t
  · obtain ⟨a, b, rfl, ha⟩ := List.eq_append_cons_of_mem h
    exact Or.inr ⟨a, b, cut?_append ha b, rfl, ha⟩
  · exact Or.inl ⟨cut?_of_notMem h, h⟩

end

/-! ### Lines -/

theorem lines_ne_nil (t : Text) : lines t ≠ [] := splitAt_ne_nil _ _

theorem lines_append (a b : Text) : lines (a ++ '\n' :: b) = lines a ++ lines b :=
  splitAt_append a b

theorem lines_of_notMem {a : Text} (h : '\n' ∉ a) : lines a = [a] := splitAt_of_notMem h

theorem notMem_of_mem_lines {t line : Text} (h : line ∈ lines t) : '\n' ∉ line :=
  notMem_of_mem_splitAt h

theorem lines_joinWith {ls : List Text} (hne : ls ≠ []) (h : ∀ line ∈ ls, '\n' ∉ line) :
    lines (joinWith '\n' ls) = ls := splitAt_joinWith hne h

theorem joinWith_lines (t : Text) : joinWith '\n' (lines t) = t := joinWith_splitAt '\n' t

/-- A character before a text joins its first line, or makes a line of its own end. -/
theorem lines_cons (c : Char) (t : Text) :
    ∃ first more, lines t = first :: more ∧
      lines (c :: t) = if c = '\n' then [] :: first :: more else (c :: first) :: more := by
  cases hs : lines t with
  | nil => exact absurd hs (lines_ne_nil t)
  | cons first more =>
      refine ⟨first, more, rfl, ?_⟩
      unfold lines at hs ⊢
      unfold splitAt
      rw [hs]

/-- A character after a text joins its last line, or opens an empty one. -/
theorem lines_concat (t : Text) (c : Char) :
    ∃ front last, lines t = front ++ [last] ∧
      lines (t ++ [c]) = if c = '\n' then front ++ [last, []] else front ++ [last ++ [c]] := by
  obtain ⟨front, last, hs⟩ : ∃ front last, lines t = front ++ [last] :=
    ⟨_, _, (List.dropLast_append_getLast (lines_ne_nil t)).symm⟩
  refine ⟨front, last, hs, ?_⟩
  split
  · next hc =>
    rw [hc, lines_append, hs]
    simp [lines]
  · next hc =>
    have hlast : '\n' ∉ last := notMem_of_mem_lines (by rw [hs]; simp)
    have hfront : ∀ line ∈ front, '\n' ∉ line := fun line hl =>
      notMem_of_mem_lines (by rw [hs]; simp [hl])
    have hcons : joinWith '\n' (front ++ [last ++ [c]]) = t ++ [c] := by
      rw [← joinWith_lines t, hs]
      cases front with
      | nil => rfl
      | cons f front =>
          rw [joinWith_append (by simp) (by simp), joinWith_append (by simp) (by simp)]
          simp [joinWith]
    rw [← hcons]
    refine lines_joinWith (by simp) ?_
    intro line hl
    rcases List.mem_append.mp hl with hl | hl
    · exact hfront line hl
    · rw [List.mem_singleton.mp hl]
      simp [hlast, Ne.symm hc]

/-! ### Words in a text -/

theorem containsText_iff {α : Type} [BEq α] [LawfulBEq α] {w t : List α} :
    containsText w t = true ↔ w <:+: t := by
  induction t with
  | nil => simp [containsText]
  | cons c t ih => rw [containsText, Bool.or_eq_true, List.isPrefixOf_iff_prefix, ih, List.infix_cons_iff]

/-- Whether a text holds a word can be computed. -/
theorem absent_of_containsText {α : Type} [BEq α] [LawfulBEq α] {w t : List α} (h : containsText w t = false) :
    ¬ w <:+: t := by
  rw [← containsText_iff, h]
  simp

/-! ### The end of a line

A text that begins where a line ends is empty or begins with the line feed; whatever is put before it
belongs to the line that ends there.
-/

/-- The places at which a line ends. -/
def AtLineEnd (t : Text) : Prop := t = [] ∨ ∃ r, t = '\n' :: r

/-- The first line of a text and what follows it. -/
theorem exists_line (t : Text) : ∃ line r, t = line ++ r ∧ '\n' ∉ line ∧ AtLineEnd r := by
  induction t with
  | nil => exact ⟨[], [], rfl, by simp, Or.inl rfl⟩
  | cons c t ih =>
      by_cases hc : c = '\n'
      · exact ⟨[], c :: t, rfl, by simp, Or.inr ⟨t, by rw [hc]⟩⟩
      · obtain ⟨line, r, rfl, hline, hr⟩ := ih
        exact ⟨c :: line, r, rfl, by simp [hline, Ne.symm hc], hr⟩

/-- A text can be cut at the end of its first line in one way only. -/
theorem line_cut {line line' r r' : Text} (hline : '\n' ∉ line) (hline' : '\n' ∉ line')
    (hr : AtLineEnd r) (hr' : AtLineEnd r') (h : line ++ r = line' ++ r') : line = line' ∧ r = r' := by
  rcases List.append_eq_append_iff.mp h with ⟨e, rfl, rfl⟩ | ⟨e, rfl, rfl⟩
  · cases e with
    | nil => simp
    | cons c e =>
        rcases hr with hr | ⟨t, ht⟩
        · simp at hr
        · rw [(List.cons.inj ht).1] at hline'
          simp at hline'
  · cases e with
    | nil => simp
    | cons c e =>
        rcases hr' with hr' | ⟨t, ht⟩
        · simp at hr'
        · rw [(List.cons.inj ht).1] at hline
          simp at hline

/-- A word without a line feed that begins a text stands within its first line. -/
theorem prefix_line {w line r : Text} (hw : '\n' ∉ w) (hr : AtLineEnd r) (h : w <+: line ++ r) :
    w <+: line := by
  rcases List.prefix_or_prefix_of_prefix h (List.prefix_append line r) with hpre | ⟨e, rfl⟩
  · exact hpre
  · -- what is left of the word would begin with the line feed
    have he : e <+: r := (List.prefix_append_right_inj line).mp h
    cases e with
    | nil => simp
    | cons c e =>
        rcases hr with rfl | ⟨r', rfl⟩
        · simp at he
        · obtain rfl : c = '\n' := (List.cons_prefix_cons.mp he).1
          simp at hw

theorem joinWith_cons_atLineEnd (line : Text) (ls : List Text) :
    ∃ r, joinWith '\n' (line :: ls) = line ++ r ∧ AtLineEnd r := by
  cases ls with
  | nil => exact ⟨[], by simp [joinWith], Or.inl rfl⟩
  | cons next more => exact ⟨_, joinWith_cons line (List.cons_ne_nil _ _), Or.inr ⟨_, rfl⟩⟩

/-- Without the blanks in front, lines that are not all blank begin with one of them. -/
theorem trimLeft_joinWith {ls : List Text} (h : isBlank (joinWith '\n' ls) = false) :
    ∃ line ∈ ls, ∃ r, trimLeft (joinWith '\n' ls) = trimLeft line ++ r ∧ AtLineEnd r := by
  induction ls with
  | nil => simp [joinWith] at h
  | cons line ls ih =>
      cases hblank : isBlank line with
      | false =>
          obtain ⟨r, hjoin, hr⟩ := joinWith_cons_atLineEnd line ls
          exact ⟨line, by simp, r, by rw [hjoin, trimLeft_append hblank], hr⟩
      | true =>
          have hbreak : isBlank (line ++ ['\n']) = true := by simp [hblank]
          have hne : ls ≠ [] := by
            rintro rfl
            rw [show joinWith '\n' [line] = line from rfl, hblank] at h
            simp at h
          rw [joinWith_cons line hne, show ∀ v : Text, line ++ '\n' :: v = line ++ ['\n'] ++ v by simp] at h ⊢
          rw [isBlank_append, hbreak, Bool.true_and] at h
          rw [trimLeft_append_blank hbreak]
          obtain ⟨line', hl, hrest⟩ := ih h
          exact ⟨line', by simp [hl], hrest⟩

theorem lines_append_of_atLineEnd {line r : Text} (hline : '\n' ∉ line) (hr : AtLineEnd r) :
    lines (line ++ r) = line :: (lines r).tail := by
  rcases hr with rfl | ⟨r, rfl⟩
  · rw [List.append_nil, lines_of_notMem hline]
    rfl
  · rw [lines_append, lines_of_notMem hline]
    have := lines_append [] r
    rw [List.nil_append] at this
    rw [this]
    rfl

/-! ### Lines that are not blank -/

/-- The lines that are not blank. -/
def nonBlank (ls : List Text) : List Text := ls.filter fun line => !isBlank line

@[simp] theorem nonBlank_nil : nonBlank [] = [] := rfl

@[simp] theorem nonBlank_append (a b : List Text) :
    nonBlank (a ++ b) = nonBlank a ++ nonBlank b := by simp [nonBlank]

theorem nonBlank_cons_blank {line : Text} (h : isBlank line = true) (ls : List Text) :
    nonBlank (line :: ls) = nonBlank ls := by simp [nonBlank, h]

theorem nonBlank_cons {line : Text} (h : isBlank line = false) (ls : List Text) :
    nonBlank (line :: ls) = line :: nonBlank ls := by simp [nonBlank, h]

theorem mem_nonBlank {line : Text} {ls : List Text} :
    line ∈ nonBlank ls ↔ line ∈ ls ∧ isBlank line = false := by simp [nonBlank]

theorem nonBlank_lines_append (a b : Text) :
    nonBlank (lines (a ++ '\n' :: b)) = nonBlank (lines a) ++ nonBlank (lines b) := by
  rw [lines_append, nonBlank_append]

theorem nonBlank_lines_joinWith {ls : List Text} (h : ∀ line ∈ ls, '\n' ∉ line) :
    nonBlank (lines (joinWith '\n' ls)) = nonBlank ls := by
  by_cases hne : ls = []
  · rw [hne]
    rfl
  · rw [lines_joinWith hne h]

theorem isBlank_joinWith {ls : List Text} : isBlank (joinWith '\n' ls) = true ↔ nonBlank ls = [] := by
  induction ls with
  | nil => simp [joinWith]
  | cons line more ih =>
      by_cases hmore : more = []
      · subst hmore
        cases hb : isBlank line <;> simp [joinWith, nonBlank, hb]
      · rw [joinWith_cons line hmore, isBlank_append, isBlank_cons, isBlank_newline, Bool.true_and,
          Bool.and_eq_true, ih]
        cases hb : isBlank line with
        | false => simp [nonBlank_cons hb]
        | true => simp [nonBlank_cons_blank hb]

theorem nonBlank_lines_eq_nil_iff {t : Text} : nonBlank (lines t) = [] ↔ isBlank t = true := by
  rw [← isBlank_joinWith, joinWith_lines]

theorem nonBlank_lines_of_isBlank {t : Text} (h : isBlank t = true) : nonBlank (lines t) = [] :=
  nonBlank_lines_eq_nil_iff.mpr h

/-- An empty line at the end says nothing. -/
theorem nonBlank_closed (ls : List Text) : nonBlank (ls ++ [[]]) = nonBlank ls := by
  rw [nonBlank_append, nonBlank_cons_blank isBlank_nil, nonBlank_nil, List.append_nil]

theorem nonBlank_lines_at {line r : Text} (hline : '\n' ∉ line) (hr : AtLineEnd r) :
    nonBlank (lines (line ++ r)) = nonBlank [line] ++ nonBlank (lines r) := by
  have hblank : nonBlank (lines r) = nonBlank (lines r).tail := by
    rcases hr with rfl | ⟨r, rfl⟩
    · rfl
    · rw [show '\n' :: r = [] ++ '\n' :: r from rfl, lines_append]
      exact nonBlank_cons_blank rfl _
  rw [lines_append_of_atLineEnd hline hr, hblank, ← nonBlank_append]
  rfl

/-- Blanks at the end of a line add no line that is not blank. -/
theorem nonBlank_lines_blank {w r : Text} (hw : isBlank w = true) (hr : AtLineEnd r) :
    nonBlank (lines (w ++ r)) = nonBlank (lines r) := by
  rcases hr with rfl | ⟨r, rfl⟩
  · rw [List.append_nil, nonBlank_lines_of_isBlank hw]
    rfl
  · rw [nonBlank_lines_append, nonBlank_lines_of_isBlank hw, List.nil_append,
      show '\n' :: r = [] ++ '\n' :: r from rfl, lines_append]
    exact (nonBlank_cons_blank rfl _).symm

/-! ### What the lines say -/

/-- The lines of a text that are not blank, without the blanks around them. -/
def contentLines (t : Text) : List Text := (nonBlank (lines t)).map trim

/-- A line that comes from another one by trimming at its ends. -/
structure TrimmedFrom (line whole : Text) : Prop where
  /-- The line is a part of the other. -/
  part : line <:+: whole
  /-- Both say the same. -/
  trim_eq : trim line = trim whole

theorem TrimmedFrom.refl (line : Text) : TrimmedFrom line line := ⟨List.infix_rfl, rfl⟩

theorem TrimmedFrom.trans {a b c : Text} (hab : TrimmedFrom a b) (hbc : TrimmedFrom b c) :
    TrimmedFrom a c := ⟨hab.part.trans hbc.part, hab.trim_eq.trans hbc.trim_eq⟩

/-- A trimmed line has nothing left to trim. -/
theorem TrimmedFrom.eq {line whole : Text} (h : TrimmedFrom line whole) (hw : Trimmed whole) :
    line = whole := by
  obtain ⟨u, v, hline, -, -⟩ := trim_split line
  rw [h.trim_eq, hw.trim_eq] at hline
  refine h.part.eq_of_length_le ?_
  rw [hline]
  simp only [List.length_append]
  omega

theorem forall₂_trans {α β γ : Type} {R : α → β → Prop} {S : β → γ → Prop} {T : α → γ → Prop}
    (h : ∀ a b c, R a b → S b c → T a c) {as : List α} {bs : List β} {cs : List γ}
    (hab : List.Forall₂ R as bs) (hbc : List.Forall₂ S bs cs) : List.Forall₂ T as cs := by
  induction hab generalizing cs with
  | nil =>
      cases hbc
      exact .nil
  | cons hr _ ih =>
      cases hbc with
      | cons hs hbc => exact .cons (h _ _ _ hr hs) (ih hbc)

/-- One text has the lines of another, except for blanks around them and blank lines. -/
def Tidied (t whole : Text) : Prop :=
  List.Forall₂ TrimmedFrom (nonBlank (lines t)) (nonBlank (lines whole))

theorem Tidied.of_eq {t whole : Text} (h : nonBlank (lines t) = nonBlank (lines whole)) :
    Tidied t whole := by
  rw [Tidied, h]
  exact List.forall₂_same.mpr fun line _ => .refl line

theorem Tidied.trans {a b c : Text} (hab : Tidied a b) (hbc : Tidied b c) : Tidied a c :=
  forall₂_trans (fun _ _ _ h h' => h.trans h') hab hbc

theorem Tidied.content {t whole : Text} (h : Tidied t whole) : contentLines t = contentLines whole := by
  have hmap := List.Forall₂.imp (fun _ _ => TrimmedFrom.trim_eq) h
  rw [← List.forall₂_map_right_iff (f := trim), ← List.forall₂_map_left_iff] at hmap
  exact List.forall₂_eq_eq_eq ▸ hmap

/-- Two texts whose lines differ in one line, which says the same in both. -/
theorem Tidied.of_line {t whole : Text} (front back : List Text) {line line' : Text}
    (ht : lines t = front ++ line :: back) (hwhole : lines whole = front ++ line' :: back)
    (h : TrimmedFrom line line') : Tidied t whole := by
  have hblank : isBlank line = isBlank line' := by
    rw [Bool.eq_iff_iff, ← trim_eq_nil_iff, ← trim_eq_nil_iff, h.trim_eq]
  have hsame : ∀ ls, List.Forall₂ TrimmedFrom ls ls := fun ls =>
    List.forall₂_same.mpr fun line _ => .refl line
  unfold Tidied
  rw [ht, hwhole, nonBlank_append, nonBlank_append]
  refine List.rel_append (hsame _) ?_
  cases hb : isBlank line with
  | true =>
      rw [nonBlank_cons_blank hb, nonBlank_cons_blank (hblank ▸ hb)]
      exact hsame _
  | false =>
      rw [nonBlank_cons hb, nonBlank_cons (hblank ▸ hb)]
      exact .cons h (hsame _)

theorem tidied_append_blank {u : Text} (hu : isBlank u = true) (t : Text) : Tidied t (u ++ t) := by
  induction u with
  | nil => exact .of_eq rfl
  | cons c u ih =>
      simp only [isBlank_cons, Bool.and_eq_true] at hu
      refine (ih hu.2).trans ?_
      obtain ⟨first, more, hs, hc⟩ := lines_cons c (u ++ t)
      by_cases hn : c = '\n'
      · rw [if_pos hn] at hc
        refine .of_eq ?_
        rw [List.cons_append, hc, hs]
        exact (nonBlank_cons_blank rfl _).symm
      · rw [if_neg hn] at hc
        refine .of_line [] _ hs hc ⟨⟨[c], [], by simp⟩, ?_⟩
        have := trim_between (u := [c]) (v := []) (by simp [hu.1]) rfl first
        simpa using this.symm

theorem tidied_blank_append {v : Text} (hv : isBlank v = true) (t : Text) : Tidied t (t ++ v) := by
  induction v using List.reverseRecOn with
  | nil => exact .of_eq (by rw [List.append_nil])
  | append_singleton v c ih =>
      simp only [isBlank_append, isBlank_cons, isBlank_nil, Bool.and_true, Bool.and_eq_true] at hv
      refine (ih hv.1).trans ?_
      rw [← List.append_assoc]
      obtain ⟨front, last, hs, hc⟩ := lines_concat (t ++ v) c
      by_cases hn : c = '\n'
      · rw [if_pos hn] at hc
        refine .of_eq ?_
        rw [hc, hs, nonBlank_append, nonBlank_append]
        congr 1
      · rw [if_neg hn] at hc
        refine .of_line front [] hs hc ⟨⟨[], [c], by simp⟩, ?_⟩
        have := trim_between (u := []) (v := [c]) rfl (by simp [hv.2]) last
        simpa using this.symm

/-- **Trimming a text trims its lines at most.** -/
theorem tidied_trim (t : Text) : Tidied (trim t) t := by
  obtain ⟨u, v, ht, hu, hv⟩ := trim_split t
  have h := (tidied_append_blank hu (trim t)).trans (tidied_blank_append hv (u ++ trim t))
  rwa [← ht] at h

theorem contentLines_trim (t : Text) : contentLines (trim t) = contentLines t :=
  (tidied_trim t).content

/-- Above a last line that ends with a character, only blanks in front are trimmed away. -/
theorem trim_joinWith_break {s : Text} {c : Char} (hs : s.getLast? = some c)
    (hc : SolidityKit.isBlank c = false) (ls : List Text) :
    ∃ u, isBlank u = true ∧ joinWith '\n' (ls ++ [s]) = u ++ trim (joinWith '\n' (ls ++ [s, []])) := by
  have hlast : (joinWith '\n' (ls ++ [s])).getLast? = some c := by
    have hne : s ≠ [] := by
      rintro rfl
      simp at hs
    by_cases hls : ls = []
    · rw [hls]
      exact hs
    · rw [joinWith_append hls (List.cons_ne_nil _ _), List.getLast?_append_of_ne_nil _ (List.cons_ne_nil _ _),
        show '\n' :: joinWith '\n' [s] = ['\n'] ++ s from rfl, List.getLast?_append_of_ne_nil _ hne]
      exact hs
  have hbreak : joinWith '\n' (ls ++ [s, []]) = [] ++ joinWith '\n' (ls ++ [s]) ++ ['\n'] := by
    rw [show ls ++ [s, []] = (ls ++ [s]) ++ [[]] by simp, joinWith_append (by simp) (by simp)]
    rfl
  rw [hbreak, trim_between rfl (by decide)]
  obtain ⟨u, v, hsplit, hu, hv⟩ := trim_split (joinWith '\n' (ls ++ [s]))
  refine ⟨u, hu, ?_⟩
  rcases List.eq_nil_or_concat' v with rfl | ⟨v', x, rfl⟩
  · rw [List.append_nil] at hsplit
    exact hsplit
  · rw [hsplit, ← List.append_assoc, List.getLast?_concat] at hlast
    cases hlast
    rw [isBlank_iff.mp hv c (by simp)] at hc
    simp at hc

/-! ### Unifying line ends -/

theorem unifyLineEnds_append {a : Text} (h : '\r' ∉ a) (r : Text) :
    unifyLineEnds (a ++ r) = a ++ unifyLineEnds r := by
  induction a with
  | nil => rfl
  | cons c a ih =>
      simp only [List.mem_cons, not_or] at h
      rw [List.cons_append, unifyLineEnds, ih h.2, if_neg (Ne.symm h.1)]
      · rfl
      · rintro r' rfl
        exact absurd rfl h.1

/-- Blanks stay blanks, although a carriage return at their end may join the line feed behind it. -/
theorem unifyLineEnds_blank {w : Text} (hw : isBlank w = true) (r : Text) :
    ∃ w', unifyLineEnds (w ++ r) = w' ++ unifyLineEnds r ∧ isBlank w' = true := by
  induction w using unifyLineEnds.induct with
  | case1 => exact ⟨[], rfl, rfl⟩
  | case2 rest ih =>
      simp only [isBlank_cons, Bool.and_eq_true] at hw
      obtain ⟨w', hw', hblank⟩ := ih hw.2.2
      exact ⟨'\n' :: w', by rw [List.cons_append, List.cons_append, unifyLineEnds, hw']; rfl, by simp [hblank]⟩
  | case3 c rest hpair ih =>
      simp only [isBlank_cons, Bool.and_eq_true] at hw
      obtain ⟨w', hw', hblank⟩ := ih hw.2
      by_cases hjoin : c = '\r' ∧ ∃ t, rest ++ r = '\n' :: t
      · obtain ⟨rfl, t, ht⟩ := hjoin
        cases rest with
        | nil =>
            rw [List.nil_append] at ht
            exact ⟨[], by rw [ht]; simp [unifyLineEnds], rfl⟩
        | cons x rest =>
            obtain ⟨rfl, -⟩ := List.cons.inj ht
            exact absurd rfl (hpair rest rfl)
      · refine ⟨(if c = '\r' then '\n' else c) :: w', ?_, ?_⟩
        · rw [List.cons_append, unifyLineEnds, hw']
          · rfl
          · intro t hc ht
            exact hjoin ⟨hc, t, ht⟩
        · by_cases hc : c = '\r' <;> simp [hc, hw.1, hblank]

theorem atLineEnd_unifyLineEnds {r : Text} (hr : AtLineEnd r) : AtLineEnd (unifyLineEnds r) := by
  rcases hr with rfl | ⟨t, rfl⟩
  · exact Or.inl rfl
  · exact Or.inr ⟨unifyLineEnds t, by simp [unifyLineEnds]⟩

/-! ### Line breaks of all kinds -/

/-- A text within one line, whatever counts as a line break. -/
def Unbroken (t : Text) : Prop := ∀ c ∈ t, isLineBreak c = false

instance (t : Text) : Decidable (Unbroken t) := List.decidableBAll (fun c => isLineBreak c = false) t

theorem Unbroken.append {s t : Text} (hs : Unbroken s) (ht : Unbroken t) : Unbroken (s ++ t) := fun c hc =>
  (List.mem_append.mp hc).elim (hs c) (ht c)

theorem breakLines_newline (rest : Text) : breakLines ('\n' :: rest) = [] :: breakLines rest := by
  rw [breakLines.eq_def]
  split
  · next h => cases h
  · next h => exact absurd (List.cons.inj h).1 (by decide)
  · next h =>
    cases h
    rw [if_pos (by decide)]

theorem breakLines_cons {c : Char} {rest line : Text} {more : List Text} (hc : isLineBreak c = false)
    (hne : rest ≠ []) (h : breakLines rest = line :: more) : breakLines (c :: rest) = (c :: line) :: more := by
  obtain ⟨d, rest', rfl⟩ := List.exists_cons_of_ne_nil hne
  rw [breakLines.eq_def]
  split
  · next heq => cases heq
  · next heq =>
    rw [(List.cons.inj heq).1] at hc
    cases hc
  · next heq =>
    cases heq
    rw [if_neg (by simp [hc]), h]

/-- A line that ends in a line feed is cut off as it is. -/
theorem breakLines_append {line : Text} (h : Unbroken line) (rest : Text) :
    breakLines (line ++ '\n' :: rest) = line :: breakLines rest := by
  induction line with
  | nil => exact breakLines_newline rest
  | cons c line ih =>
      exact breakLines_cons (h c List.mem_cons_self) (by simp) (ih fun x hx => h x (List.mem_cons_of_mem c hx))

theorem breakLines_unbroken {line : Text} (h : Unbroken line) (hne : line ≠ []) : breakLines line = [line] := by
  induction line with
  | nil => exact absurd rfl hne
  | cons c line ih =>
      have hc := h c List.mem_cons_self
      by_cases hline : line = []
      · rw [hline, breakLines, if_neg (by simp [hc])]
        exact fun _ _ => by simp
      · exact breakLines_cons hc hline (ih (fun x hx => h x (List.mem_cons_of_mem c hx)) hline)

/-- Lines between line feeds are found again, except for an empty one at the end. -/
theorem breakLines_joinWith {ls : List Text} (h : ∀ line ∈ ls, Unbroken line) :
    breakLines (joinWith '\n' ls) = ls ∨ breakLines (joinWith '\n' ls) ++ [[]] = ls := by
  induction ls with
  | nil => exact Or.inl rfl
  | cons line ls ih =>
      have hline := h line List.mem_cons_self
      by_cases hls : ls = []
      · rw [hls]
        by_cases hne : line = []
        · rw [hne]
          exact Or.inr rfl
        · exact Or.inl (breakLines_unbroken hline hne)
      · rw [joinWith_cons line hls, breakLines_append hline]
        exact (ih fun l hl => h l (List.mem_cons_of_mem line hl)).imp (congrArg (line :: ·))
          (congrArg (line :: ·))

/-! ### Texts one behind the other -/

theorem breakLines_crlf (rest : Text) : breakLines ('\r' :: '\n' :: rest) = [] :: breakLines rest := by
  rw [breakLines]

theorem breakLines_break {c : Char} (hc : isLineBreak c = true) {rest : Text}
    (hpair : ∀ more, c = '\r' → rest = '\n' :: more → False) :
    breakLines (c :: rest) = [] :: breakLines rest := by
  rw [breakLines.eq_def]
  split
  · next h => cases h
  · next h =>
    obtain ⟨hr, hn⟩ := List.cons.inj h
    exact (hpair _ hr hn).elim
  · next h =>
    cases h
    rw [if_pos hc]

theorem breakLines_single {c : Char} (hc : isLineBreak c = false) : breakLines [c] = [[c]] :=
  breakLines_unbroken (fun x hx => List.mem_singleton.mp hx ▸ hc) (by simp)

theorem breakLines_ne_nil {t : Text} (h : t ≠ []) : breakLines t ≠ [] := by
  induction t using breakLines.induct with
  | case1 => exact absurd rfl h
  | case2 rest => simp [breakLines_crlf]
  | case3 c rest hpair hc => simp [breakLines_break hc hpair]
  | case4 c hc => simp [breakLines_single (Bool.eq_false_iff.mpr hc)]
  | case5 c rest hpair hc hnone hne ih => exact absurd hnone (ih hne)
  | case6 c rest hpair hc line more hlines hne =>
      simp [breakLines_cons (Bool.eq_false_iff.mpr hc) hne hlines]

/--
A line feed between two texts keeps their lines apart.  It ends the last line of the first text, and makes an
empty one if that is ended already, unless it joins a carriage return.
-/
theorem breakLines_join (a b : Text) :
    breakLines (a ++ '\n' :: b) = breakLines a ++ breakLines b ∨
      breakLines (a ++ '\n' :: b) = breakLines a ++ [] :: breakLines b := by
  induction a using breakLines.induct with
  | case1 => exact Or.inr (breakLines_newline b)
  | case2 rest ih =>
      rw [List.cons_append, List.cons_append, breakLines_crlf, breakLines_crlf]
      exact ih.imp (congrArg ([] :: ·)) (congrArg ([] :: ·))
  | case3 c rest hpair hc ih =>
      by_cases hjoin : c = '\r' ∧ rest = []
      · obtain ⟨rfl, rfl⟩ := hjoin
        exact Or.inl (breakLines_crlf b)
      · rw [List.cons_append, breakLines_break hc hpair, breakLines_break hc]
        · exact ih.imp (congrArg ([] :: ·)) (congrArg ([] :: ·))
        · intro more hr hn
          cases rest with
          | nil => exact hjoin ⟨hr, rfl⟩
          | cons x rest => exact hpair rest hr (by rw [(List.cons.inj hn).1])
  | case4 c hc =>
      have hc := Bool.eq_false_iff.mpr hc
      left
      rw [breakLines_single hc]
      exact breakLines_cons hc (List.cons_ne_nil _ _) (breakLines_newline b)
  | case5 c rest hpair hc hnone hne => exact absurd hnone (breakLines_ne_nil hne)
  | case6 c rest hpair hc line more hlines hne ih =>
      have hc := Bool.eq_false_iff.mpr hc
      have hne' : rest ++ '\n' :: b ≠ [] := by simp
      rw [hlines] at ih
      rw [breakLines_cons hc hne hlines, List.cons_append]
      refine ih.imp (fun h => ?_) (fun h => ?_)
      · exact breakLines_cons hc hne' h
      · exact breakLines_cons hc hne' h

end SolidityKit.Text
