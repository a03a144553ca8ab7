/-
What trimming leaves.

`dropRightWhile` is written by recursion from the left, so that the program needs no second pass; here
it is tied to the library's `rdropWhile`, and trimming is characterised once and for all: a text is
its trimmed middle with blanks on either side (`trim_split`), the middle neither begins nor ends with a
blank (`trimmed_trim`), and these two facts determine it (`trim_eq`).
-/
import SolidityKit.Text.Blank
import Mathlib.Data.List.DropRight

namespace SolidityKit.Text

variable {α : Type}

theorem dropRightWhile_eq_rdropWhile (drop : α → Bool) (t : List α) :
    dropRightWhile drop t = t.rdropWhile drop := by
  have hcons : ∀ (c : α) (l : List α), List.rdropWhile drop (c :: l) =
      if l.rdropWhile drop = [] then (if drop c then [] else [c]) else c :: l.rdropWhile drop := by
    intro c l
    induction l using List.reverseRecOn with
    | nil => simp [List.rdropWhile_singleton]
    | append_singleton l x ih =>
        rw [← List.cons_append, List.rdropWhile_concat, List.rdropWhile_concat, ih]
        by_cases hx : drop x = true
        · simp [hx]
        · simp [hx]
  induction t with
  | nil => simp [dropRightWhile]
  | cons c rest ih =>
      rw [hcons, dropRightWhile, ih]
      split
      · next h => rw [if_pos h]
      · next h => rw [if_neg h]

/-! ### Blank texts -/

@[simp] theorem isBlank_newline : SolidityKit.isBlank '\n' = true := by decide

variable [Blanks α]

@[simp] theorem isBlank_nil : isBlank ([] : List α) = true := rfl

@[simp] theorem isBlank_cons (c : α) (t : List α) :
    isBlank (c :: t) = (SolidityKit.isBlank c && isBlank t) := rfl

@[simp] theorem isBlank_append (a b : List α) : isBlank (a ++ b) = (isBlank a && isBlank b) := by
  simp [isBlank]

theorem isBlank_iff {t : List α} : isBlank t = true ↔ ∀ c ∈ t, SolidityKit.isBlank c = true := by
  simp [isBlank]

/-- A word that ends in no blank does not reach into blanks. -/
theorem prefix_append_blank {x s v : List α} {c : α} (hc : SolidityKit.isBlank c = false)
    (hv : isBlank v = true) :
    x ++ [c] <+: s ++ v ↔ x ++ [c] <+: s := by
  constructor
  · intro hpre
    rcases List.prefix_or_prefix_of_prefix hpre (List.prefix_append s v) with hpre' | ⟨e, he⟩
    · exact hpre'
    · rcases List.eq_nil_or_concat' e with rfl | ⟨e', d, rfl⟩
      · exact ⟨[], by rw [List.append_nil] at he ⊢; exact he.symm⟩
      · rw [← List.append_assoc] at he
        obtain rfl : d = c := (List.cons.inj (List.append_inj' he rfl).2).1
        rw [← he, List.append_assoc, List.prefix_append_right_inj] at hpre
        rw [isBlank_iff.mp hv d (hpre.mem (by simp))] at hc
        exact absurd hc (by decide)
  · exact fun hpre => hpre.trans (List.prefix_append s v)

/-! ### Trimmed texts -/

/-- A text that neither begins nor ends with a blank. -/
structure Trimmed (t : List α) : Prop where
  /-- The first character, if there is one, is not blank. -/
  head : ∀ c, t.head? = some c → SolidityKit.isBlank c = false
  /-- The last character, if there is one, is not blank. -/
  last : ∀ c, t.getLast? = some c → SolidityKit.isBlank c = false

theorem trimmed_nil : Trimmed ([] : List α) := ⟨by simp, by simp⟩

/-- A text with two characters at its ends that are not blank is trimmed. -/
theorem Trimmed.of_ends {c d : α} (hc : SolidityKit.isBlank c = false)
    (hd : SolidityKit.isBlank d = false) (t : List α) : Trimmed (c :: (t ++ [d])) := by
  refine ⟨?_, ?_⟩
  · intro x hx
    cases hx
    exact hc
  · intro x hx
    rw [← List.cons_append, List.getLast?_concat] at hx
    cases hx
    exact hd

/-- Two trimmed texts with a character between them that is not blank; only the second may be empty. -/
theorem Trimmed.append {a b : List α} {c : α} (ha : Trimmed a) (hne : a ≠ [])
    (hc : SolidityKit.isBlank c = false) (hb : Trimmed b) : Trimmed (a ++ c :: b) := by
  refine ⟨?_, ?_⟩
  · intro x hx
    rw [List.head?_append_of_ne_nil _ hne] at hx
    exact ha.head x hx
  · intro x hx
    rw [List.getLast?_append_of_ne_nil _ (List.cons_ne_nil c b)] at hx
    cases b with
    | nil =>
        cases hx
        exact hc
    | cons d b => exact hb.last x (by rwa [List.getLast?_cons_cons] at hx)

/-- A trimmed text does not begin with blanks. -/
theorem Trimmed.eq_nil_of_blank_append {u r : List α} (h : Trimmed (u ++ r)) (hu : isBlank u = true) :
    u = [] := by
  cases u with
  | nil => rfl
  | cons c u =>
      have hc := h.head c rfl
      rw [isBlank_iff.mp hu c List.mem_cons_self] at hc
      cases hc

/-- A trimmed text does not end with blanks. -/
theorem Trimmed.eq_nil_of_append_blank {r v : List α} (h : Trimmed (r ++ v)) (hv : isBlank v = true) :
    v = [] := by
  cases v using List.reverseRecOn with
  | nil => rfl
  | append_singleton v c =>
      have hc := h.last c (by rw [← List.append_assoc, List.getLast?_concat])
      rw [isBlank_iff.mp hv c (by simp)] at hc
      cases hc

theorem trimLeft_append_blank {u : List α} (hu : isBlank u = true) (t : List α) :
    trimLeft (u ++ t) = trimLeft t := by
  rw [isBlank_iff] at hu
  exact List.dropWhile_append_of_pos hu

theorem trimLeft_append {a : List α} (ha : isBlank a = false) (b : List α) :
    trimLeft (a ++ b) = trimLeft a ++ b := by
  have hne : ¬ (a.dropWhile SolidityKit.isBlank).isEmpty = true := by
    rw [List.isEmpty_iff, List.dropWhile_eq_nil_iff]
    rw [Bool.eq_false_iff, Ne, isBlank_iff] at ha
    exact ha
  unfold trimLeft
  rw [List.dropWhile_append, if_neg hne]

theorem trimRight_append_blank {v : List α} (hv : isBlank v = true) (t : List α) :
    trimRight (t ++ v) = trimRight t := by
  induction v using List.reverseRecOn with
  | nil => rw [List.append_nil]
  | append_singleton v c ih =>
      simp only [isBlank_append, isBlank_cons, isBlank_nil, Bool.and_true, Bool.and_eq_true] at hv
      rw [← ih hv.1]
      unfold trimRight
      rw [dropRightWhile_eq_rdropWhile, dropRightWhile_eq_rdropWhile, ← List.append_assoc,
        List.rdropWhile_concat_pos _ _ _ hv.2]

/-- Only the end of a text is trimmed on the right. -/
theorem trimRight_append {b : List α} (hb : isBlank b = false) (a : List α) :
    trimRight (a ++ b) = a ++ trimRight b := by
  induction b using List.reverseRecOn with
  | nil => cases hb
  | append_singleton b c ih =>
      unfold trimRight at *
      rw [dropRightWhile_eq_rdropWhile, dropRightWhile_eq_rdropWhile] at *
      rw [← List.append_assoc]
      cases hc : SolidityKit.isBlank c with
      | true =>
          rw [List.rdropWhile_concat_pos _ _ _ hc, List.rdropWhile_concat_pos _ _ _ hc,
            ih (by simpa [hc] using hb)]
      | false =>
          have hstop : ¬ SolidityKit.isBlank c = true := by simp [hc]
          rw [List.rdropWhile_concat_neg _ _ _ hstop, List.rdropWhile_concat_neg _ _ _ hstop, List.append_assoc]

/-- **The middle of a text between blanks is what trimming leaves.** -/
theorem trim_eq {u m v : List α} (hu : isBlank u = true) (hm : Trimmed m) (hv : isBlank v = true) :
    trim (u ++ m ++ v) = m := by
  unfold trim
  rw [List.append_assoc, trimLeft_append_blank hu]
  cases m with
  | nil =>
      rw [List.nil_append, ← List.append_nil v, trimLeft_append_blank hv]
      rfl
  | cons c m =>
      have hleft : trimLeft (c :: m ++ v) = c :: m ++ v := by
        unfold trimLeft
        rw [List.cons_append, List.dropWhile_cons, if_neg (by simp [hm.head c rfl])]
      rw [hleft, trimRight_append_blank hv]
      unfold trimRight
      rw [dropRightWhile_eq_rdropWhile, List.rdropWhile_eq_self_iff]
      intro hne
      simp [hm.last _ (List.getLast?_eq_getLast_of_ne_nil hne)]

/-- A character that is not blank stops the trimming from the right. -/
theorem trimRight_append_cons {c : α} (hc : SolidityKit.isBlank c = false) (a b : List α) :
    trimRight (a ++ c :: b) = a ++ c :: trimRight b := by
  have hcons : trimRight (c :: b) = c :: trimRight b := by
    unfold trimRight
    rw [dropRightWhile]
    cases dropRightWhile SolidityKit.isBlank b with
    | nil => simp [hc]
    | cons d rest => rfl
  rw [trimRight_append (by simp [hc]), hcons]

/-- The text does not end with a blank. -/
def NoBlankEnd (t : List α) : Prop := ∀ c, t.getLast? = some c → SolidityKit.isBlank c = false

theorem NoBlankEnd.append {a b : List α} (ha : NoBlankEnd a) (hb : NoBlankEnd b) : NoBlankEnd (a ++ b) := by
  intro c hc
  rw [List.getLast?_append] at hc
  rcases Option.or_eq_some_iff.mp hc with hc | ⟨-, hc⟩
  · exact hb c hc
  · exact ha c hc

theorem NoBlankEnd.of_append {a b : List α} (h : NoBlankEnd (a ++ b)) : NoBlankEnd b := by
  intro c hc
  refine h c ?_
  rw [List.getLast?_append, hc]
  rfl

theorem trimRight_eq_self_iff {t : List α} : trimRight t = t ↔ NoBlankEnd t := by
  unfold trimRight NoBlankEnd
  rw [dropRightWhile_eq_rdropWhile, List.rdropWhile_eq_self_iff]
  cases t using List.reverseRecOn with
  | nil => simp
  | append_singleton t c => simp

theorem trimRight_prefix (t : List α) : trimRight t <+: t := by
  unfold trimRight
  rw [dropRightWhile_eq_rdropWhile]
  exact List.rdropWhile_prefix _ _

/-- Trimming begins at the end, if the text does not begin with a blank. -/
theorem trim_cons {c : α} (hc : SolidityKit.isBlank c = false) (t : List α) :
    trim (c :: t) = trimRight (c :: t) := by
  unfold trim trimLeft
  rw [List.dropWhile_cons, if_neg (by simp [hc])]

theorem Trimmed.trimLeft_eq {m : List α} (hm : Trimmed m) : trimLeft m = m := by
  cases m with
  | nil => rfl
  | cons c m =>
      unfold trimLeft
      rw [List.dropWhile_cons, if_neg (by simp [hm.head c rfl])]

theorem Trimmed.trim_eq {m : List α} (hm : Trimmed m) : trim m = m := by
  simpa using Text.trim_eq isBlank_nil hm isBlank_nil

/-- Nothing but blanks is trimmed away. -/
theorem trim_split (t : List α) :
    ∃ u v, t = u ++ trim t ++ v ∧ isBlank u = true ∧ isBlank v = true := by
  refine ⟨t.takeWhile SolidityKit.isBlank, (trimLeft t).rtakeWhile SolidityKit.isBlank, ?_, ?_, ?_⟩
  · unfold trim trimRight
    rw [dropRightWhile_eq_rdropWhile, List.append_assoc, List.rdropWhile_append_rtakeWhile]
    exact List.takeWhile_append_dropWhile.symm
  · exact isBlank_iff.mpr fun c hc => List.mem_takeWhile_imp hc
  · exact isBlank_iff.mpr fun c hc => List.mem_rtakeWhile_imp hc

theorem trimmed_trim (t : List α) : Trimmed (trim t) := by
  have hlast : trim t = (trimLeft t).rdropWhile SolidityKit.isBlank :=
    dropRightWhile_eq_rdropWhile _ _
  refine ⟨?_, ?_⟩
  · intro c hc
    have hpre : trim t <+: trimLeft t := by
      rw [hlast]
      exact List.rdropWhile_prefix _ _
    obtain ⟨v, hv⟩ := hpre
    have hhead : (trimLeft t).head? = some c := by
      rw [← hv, List.head?_append, hc]
      rfl
    have := List.head?_dropWhile_not SolidityKit.isBlank t
    unfold trimLeft at hhead
    rw [hhead] at this
    simpa using this
  · intro c hc
    rw [hlast] at hc
    have hne : (trimLeft t).rdropWhile SolidityKit.isBlank ≠ [] := by
      intro h
      rw [h] at hc
      simp at hc
    have := List.rdropWhile_last_not _ _ hne
    rw [List.getLast?_eq_getLast_of_ne_nil hne] at hc
    cases hc
    simpa using this

/-- Around a trimmed text only blanks at the far ends are trimmed away. -/
theorem trim_around {d : List α} (hd : Trimmed d) (hne : d ≠ []) (a b : List α) :
    ∃ u a' b' v, a = u ++ a' ∧ b = b' ++ v ∧ isBlank u = true ∧ isBlank v = true ∧
      trim (a ++ (d ++ b)) = a' ++ (d ++ b') := by
  obtain ⟨u, a', rfl, hu, hhead⟩ : ∃ u a', a = u ++ a' ∧ isBlank u = true ∧
      ∀ c, a'.head? = some c → SolidityKit.isBlank c = false := by
    refine ⟨a.takeWhile SolidityKit.isBlank, a.dropWhile SolidityKit.isBlank,
      List.takeWhile_append_dropWhile.symm, isBlank_iff.mpr fun c hc => List.mem_takeWhile_imp hc,
        fun c hc => ?_⟩
    have := List.head?_dropWhile_not SolidityKit.isBlank a
    rw [hc] at this
    simpa using this
  obtain ⟨b', v, rfl, hv, hlast⟩ : ∃ b' v, b = b' ++ v ∧ isBlank v = true ∧
      ∀ c, b'.getLast? = some c → SolidityKit.isBlank c = false := by
    refine ⟨b.rdropWhile SolidityKit.isBlank, b.rtakeWhile SolidityKit.isBlank,
      List.rdropWhile_append_rtakeWhile.symm, isBlank_iff.mpr fun c hc => List.mem_rtakeWhile_imp hc,
        fun c hc => ?_⟩
    have hne : b.rdropWhile SolidityKit.isBlank ≠ [] := by
      intro h
      rw [h] at hc
      simp at hc
    rw [List.getLast?_eq_getLast_of_ne_nil hne] at hc
    cases hc
    simpa using List.rdropWhile_last_not _ _ hne
  refine ⟨u, a', b', v, rfl, rfl, hu, hv, ?_⟩
  have hmiddle : Trimmed (a' ++ (d ++ b')) := by
    refine ⟨?_, ?_⟩
    · intro c hc
      cases a' with
      | nil => exact hd.head c (by rwa [List.nil_append, List.head?_append_of_ne_nil _ hne] at hc)
      | cons x a' => exact hhead c hc
    · intro c hc
      by_cases hb : b' = []
      · rw [hb, List.append_nil, List.getLast?_append_of_ne_nil _ hne] at hc
        exact hd.last c hc
      · rw [← List.append_assoc, List.getLast?_append_of_ne_nil _ hb] at hc
        exact hlast c hc
  rw [← trim_eq hu hmiddle hv]
  simp only [List.append_assoc]

@[simp] theorem trim_eq_nil_iff {t : List α} : trim t = [] ↔ isBlank t = true := by
  constructor
  · intro h
    obtain ⟨u, v, ht, hu, hv⟩ := trim_split t
    rw [ht, h]
    simp [hu, hv]
  · intro h
    simpa using trim_eq h trimmed_nil isBlank_nil

/-- Blanks on either side of a text do not change what trimming leaves. -/
theorem trim_between {u v : List α} (hu : isBlank u = true) (hv : isBlank v = true) (t : List α) :
    trim (u ++ t ++ v) = trim t := by
  obtain ⟨u', v', ht, hu', hv'⟩ := trim_split t
  have h := trim_eq (u := u ++ u') (v := v' ++ v) (by simp [hu, hu']) (trimmed_trim t)
    (by simp [hv, hv'])
  rw [← h]
  congr 1
  conv_lhs => rw [ht]
  simp

/-- Trimming leaves a word at the start of a text where it is. -/
theorem trim_of_prefix {w t : List α} (hw : w.any SolidityKit.isBlank = false) (hne : w ≠ []) (h : w <+: t) :
    w <+: trim t ∧ trim t <+: t := by
  obtain ⟨u, v, ht, hu, hv⟩ := trim_split t
  obtain rfl : u = [] := by
    cases u with
    | nil => rfl
    | cons c u =>
        cases w with
        | nil => exact absurd rfl hne
        | cons x w =>
            rw [ht] at h
            obtain ⟨rfl, -⟩ := List.cons_prefix_cons.mp h
            exact absurd (isBlank_iff.mp hu x (by simp)) (List.any_eq_false.mp hw x (by simp))
  rw [List.nil_append] at ht
  refine ⟨?_, ⟨v, ht.symm⟩⟩
  rw [ht] at h
  rcases List.prefix_or_prefix_of_prefix h (List.prefix_append (trim t) v) with hpre | ⟨e, rfl⟩
  · exact hpre
  · -- the word would go on into the blanks
    have hev : e <+: v := (List.prefix_append_right_inj _).mp h
    cases e with
    | nil => simp
    | cons c e =>
        exact absurd (isBlank_iff.mp hv c (hev.mem (by simp))) (List.any_eq_false.mp hw c (by simp))

/-- Blanks in front are trimmed away anyway. -/
theorem trim_trimLeft (t : List α) : trim (trimLeft t) = trim t := by
  have hblank : isBlank (t.takeWhile SolidityKit.isBlank) = true :=
    isBlank_iff.mpr fun c hc => List.mem_takeWhile_imp hc
  have h := trim_between hblank isBlank_nil (trimLeft t)
  rw [List.append_nil] at h
  rw [← h]
  congr 1
  exact List.takeWhile_append_dropWhile

end SolidityKit.Text
