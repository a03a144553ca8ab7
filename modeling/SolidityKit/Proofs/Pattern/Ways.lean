/-
The ways in which a pattern can match, read as statements about texts.

`Pattern.ends` lists cursors.  A proof about a search wants to hear instead which text was read: this
file says, for each kind of pattern the library uses, which texts lead from one cursor to another.
Preference does not show in these statements, and most shapes do not need it, because all their ways of
matching at a place end at the same place; `matchAt?_of_unique` is for those.  For the few that do need
it, `run_many_eq_some` says what greed means: the longest run of the class that the rest of the pattern
accepts.
-/
import SolidityKit.Pattern
import SolidityKit.Proofs.Text.Lines

namespace SolidityKit

/-- The character before the place that follows a text. -/
def lastOf (before : Option Char) (w : Text) : Option Char := w.getLast?.or before

@[simp] theorem lastOf_nil (b : Option Char) : lastOf b [] = b := rfl

@[simp] theorem lastOf_cons (b : Option Char) (c : Char) (w : Text) :
    lastOf b (c :: w) = lastOf (some c) w := by
  cases w with
  | nil => rfl
  | cons d w => simp [lastOf, List.getLast?_eq_getLast_of_ne_nil]

@[simp] theorem lastOf_append (b : Option Char) (u v : Text) :
    lastOf b (u ++ v) = lastOf (lastOf b u) v := by
  induction u generalizing b with
  | nil => rfl
  | cons c u ih => simp [ih]

namespace Pattern

variable {α : Type} {b : Option Char} {t : Text} {cap : Option Text} {d : Cursor}

/-! ### One way for each kind of pattern -/

theorem mem_ends_empty {c : Cursor} : d ∈ empty.ends c ↔ d = c := by simp [ends]

theorem mem_ends_seq {p q : Pattern} {c : Cursor} :
    d ∈ (seq p q).ends c ↔ ∃ e ∈ p.ends c, d ∈ q.ends e := by simp [ends]

theorem mem_ends_either {p q : Pattern} {c : Cursor} :
    d ∈ (either p q).ends c ↔ d ∈ p.ends c ∨ d ∈ q.ends c := by simp [ends]

theorem mem_ends_optional {p : Pattern} {c : Cursor} :
    d ∈ (optional p).ends c ↔ d ∈ p.ends c ∨ d = c := by
  rw [optional, mem_ends_either, mem_ends_empty]

theorem mem_ends_inOrder_nil {c : Cursor} : d ∈ (inOrder []).ends c ↔ d = c := mem_ends_empty

theorem mem_ends_inOrder_cons {p : Pattern} {ps : List Pattern} {c : Cursor} :
    d ∈ (inOrder (p :: ps)).ends c ↔ ∃ e ∈ p.ends c, d ∈ (inOrder ps).ends e := mem_ends_seq

theorem mem_ends_inOrder_append {ps qs : List Pattern} {c : Cursor} :
    d ∈ (inOrder (ps ++ qs)).ends c ↔ ∃ e ∈ (inOrder ps).ends c, d ∈ (inOrder qs).ends e := by
  induction ps generalizing c with
  | nil => simp [mem_ends_inOrder_nil]
  | cons p ps ih =>
      simp only [List.cons_append, mem_ends_inOrder_cons, ih]
      constructor
      · rintro ⟨e, he, f, hf, hd⟩
        exact ⟨f, ⟨e, he, hf⟩, hd⟩
      · rintro ⟨f, ⟨e, he, hf⟩, hd⟩
        exact ⟨e, he, f, hf, hd⟩

theorem mem_ends_lineStart :
    d ∈ lineStart.ends ⟨b, t, cap⟩ ↔ (b = none ∨ b = some '\n') ∧ d = ⟨b, t, cap⟩ := by
  by_cases h : b = none ∨ b = some '\n' <;> simp [ends, Cursor.atLineStart, h]

theorem mem_ends_lineEnd :
    d ∈ lineEnd.ends ⟨b, t, cap⟩ ↔ Text.AtLineEnd t ∧ d = ⟨b, t, cap⟩ := by
  cases t with
  | nil => simp [ends, Cursor.atLineEnd, Text.AtLineEnd]
  | cons c t => by_cases h : c = '\n' <;> simp [ends, Cursor.atLineEnd, Text.AtLineEnd, h]

theorem mem_ends_one {accepts : Char → Bool} :
    d ∈ (one accepts).ends ⟨b, t, cap⟩ ↔
      ∃ x r, t = x :: r ∧ accepts x = true ∧ d = ⟨some x, r, cap⟩ := by
  cases t with
  | nil => simp [ends, Cursor.step?]
  | cons y t =>
      have hstep : (one accepts).ends ⟨b, y :: t, cap⟩ =
          if accepts y = true then [⟨some y, t, cap⟩] else [] := by
        by_cases h : accepts y = true <;> simp [ends, Cursor.step?, h]
      rw [hstep]
      by_cases h : accepts y = true
      · rw [if_pos h, List.mem_singleton]
        constructor
        · rintro rfl
          exact ⟨y, t, rfl, h, rfl⟩
        · rintro ⟨x, r, ht, -, rfl⟩
          cases ht
          rfl
      · rw [if_neg h]
        simp [h]

theorem mem_ends_one_eq {x : Char} :
    d ∈ (one (· == x)).ends ⟨b, t, cap⟩ ↔ ∃ r, t = x :: r ∧ d = ⟨some x, r, cap⟩ := by
  rw [mem_ends_one]
  constructor
  · rintro ⟨y, r, rfl, hy, rfl⟩
    cases eq_of_beq hy
    exact ⟨r, rfl, rfl⟩
  · rintro ⟨r, rfl, rfl⟩
    exact ⟨x, r, rfl, beq_self_eq_true x, rfl⟩

theorem mem_ends_literal {w : Text} :
    d ∈ (literal w).ends ⟨b, t, cap⟩ ↔ ∃ r, t = w ++ r ∧ d = ⟨lastOf b w, r, cap⟩ := by
  induction w generalizing b t with
  | nil => exact mem_ends_empty.trans ⟨fun h => ⟨t, rfl, h⟩, by rintro ⟨r, rfl, h⟩; exact h⟩
  | cons x w ih =>
      rw [show literal (x :: w) = seq (one (· == x)) (literal w) from rfl, mem_ends_seq]
      constructor
      · rintro ⟨e, he, hd⟩
        obtain ⟨r, rfl, rfl⟩ := mem_ends_one_eq.mp he
        obtain ⟨r, rfl, rfl⟩ := ih.mp hd
        exact ⟨r, rfl, by rw [lastOf_cons]⟩
      · rintro ⟨r, rfl, rfl⟩
        exact ⟨_, mem_ends_one_eq.mpr ⟨w ++ r, rfl, rfl⟩,
          ih.mpr ⟨r, rfl, by rw [lastOf_cons]⟩⟩

/-- A sequence of classes reads one character of each. -/
theorem mem_ends_ones {classes : List (Char → Bool)} :
    d ∈ (inOrder (classes.map one)).ends ⟨b, t, cap⟩ ↔
      ∃ w r, t = w ++ r ∧ List.Forall₂ (fun accepts x => accepts x = true) classes w ∧
        d = ⟨lastOf b w, r, cap⟩ := by
  induction classes generalizing b t with
  | nil =>
      rw [List.map_nil, mem_ends_inOrder_nil]
      constructor
      · rintro rfl
        exact ⟨[], t, rfl, .nil, rfl⟩
      · rintro ⟨w, r, rfl, hw, rfl⟩
        cases hw
        rfl
  | cons accepts classes ih =>
      rw [List.map_cons, mem_ends_inOrder_cons]
      constructor
      · rintro ⟨e, he, hd⟩
        obtain ⟨x, r, rfl, hx, rfl⟩ := mem_ends_one.mp he
        obtain ⟨w, r, rfl, hw, rfl⟩ := ih.mp hd
        exact ⟨x :: w, r, rfl, .cons hx hw, by rw [lastOf_cons]⟩
      · rintro ⟨w, r, rfl, hw, rfl⟩
        cases hw with
        | cons hx hw =>
            exact ⟨_, mem_ends_one.mpr ⟨_, _, rfl, hx, rfl⟩,
              ih.mpr ⟨_, r, rfl, hw, by rw [lastOf_cons]⟩⟩

theorem mem_ends_capture {p : Pattern} {c : Cursor} :
    d ∈ (capture p).ends c ↔ ∃ e ∈ p.ends c, d = { e with captured := some (c.upTo e) } := by
  simp [ends, eq_comm]

theorem skip?_eq_some {w : Text} :
    Cursor.skip? w ⟨b, t, cap⟩ = some d ↔ ∃ r, t = w ++ r ∧ d = ⟨lastOf b w, r, cap⟩ := by
  induction w generalizing b t with
  | nil => simp [Cursor.skip?, eq_comm]
  | cons x w ih =>
      cases t with
      | nil => simp [Cursor.skip?, Cursor.step?]
      | cons y t =>
          by_cases h : y = x
          · simp [Cursor.skip?, Cursor.step?, h, ih]
          · simp [Cursor.skip?, Cursor.step?, h]

theorem mem_ends_again {w : Text} :
    d ∈ again.ends ⟨b, t, some w⟩ ↔ ∃ r, t = w ++ r ∧ d = ⟨lastOf b w, r, some w⟩ := by
  rw [← skip?_eq_some]
  simp [ends]

/-! ### Repetition of one class

The bound on the number of repetitions is the length of the text, which no run of a class exceeds.
-/

variable {accepts : Char → Bool}

/-- Every character of a text is in a class. -/
def AllIn (accepts : Char → Bool) (w : Text) : Prop := ∀ x ∈ w, accepts x = true

theorem allIn_nil : AllIn accepts [] := by simp [AllIn]

theorem allIn_cons {x : Char} {w : Text} :
    AllIn accepts (x :: w) ↔ accepts x = true ∧ AllIn accepts w := by simp [AllIn]

theorem mem_manyEnds {n : Nat} :
    d ∈ manyEnds (one accepts).ends n ⟨b, t, cap⟩ ↔
      ∃ w r, t = w ++ r ∧ w.length ≤ n ∧ AllIn accepts w ∧ d = ⟨lastOf b w, r, cap⟩ := by
  induction n generalizing b t with
  | zero =>
      constructor
      · intro h
        exact ⟨[], t, rfl, Nat.le_refl 0, allIn_nil, by simpa [manyEnds] using h⟩
      · rintro ⟨w, r, rfl, hw, -, rfl⟩
        cases List.length_eq_zero_iff.mp (Nat.le_zero.mp hw)
        simp [manyEnds]
  | succ n ih =>
      simp only [manyEnds, List.mem_append, List.mem_flatMap, List.mem_singleton]
      constructor
      · rintro (⟨e, he, hd⟩ | rfl)
        · obtain ⟨x, r, rfl, hx, rfl⟩ := mem_ends_one.mp he
          obtain ⟨w, r, rfl, hn, hw, rfl⟩ := ih.mp hd
          exact ⟨x :: w, r, rfl, by simpa using hn, allIn_cons.mpr ⟨hx, hw⟩, by rw [lastOf_cons]⟩
        · exact ⟨[], t, rfl, Nat.zero_le _, allIn_nil, rfl⟩
      · rintro ⟨w, r, rfl, hn, hw, rfl⟩
        cases w with
        | nil => exact Or.inr rfl
        | cons x w =>
            obtain ⟨hx, hw⟩ := allIn_cons.mp hw
            exact Or.inl ⟨_, mem_ends_one.mpr ⟨x, _, rfl, hx, rfl⟩,
              ih.mpr ⟨w, r, rfl, by simpa using hn, hw, by rw [lastOf_cons]⟩⟩

theorem mem_manyLazyEnds {step : Cursor → List Cursor} {n : Nat} {c : Cursor} :
    d ∈ manyLazyEnds step n c ↔ d ∈ manyEnds step n c := by
  induction n generalizing c with
  | zero => simp [manyLazyEnds, manyEnds]
  | succ n ih => simp [manyLazyEnds, manyEnds, ih, or_comm]

theorem mem_ends_many :
    d ∈ (many (one accepts)).ends ⟨b, t, cap⟩ ↔
      ∃ w r, t = w ++ r ∧ AllIn accepts w ∧ d = ⟨lastOf b w, r, cap⟩ := by
  rw [ends, mem_manyEnds]
  constructor
  · rintro ⟨w, r, ht, -, hw, hd⟩
    exact ⟨w, r, ht, hw, hd⟩
  · rintro ⟨w, r, rfl, hw, hd⟩
    exact ⟨w, r, rfl, by simp, hw, hd⟩

/-- A lazy repetition has the same ways of matching as a greedy one. -/
theorem mem_ends_manyLazy :
    d ∈ (manyLazy (one accepts)).ends ⟨b, t, cap⟩ ↔
      ∃ w r, t = w ++ r ∧ AllIn accepts w ∧ d = ⟨lastOf b w, r, cap⟩ := by
  rw [← mem_ends_many, ends, ends, mem_manyLazyEnds]

theorem mem_ends_oneOrMore :
    d ∈ (oneOrMore (one accepts)).ends ⟨b, t, cap⟩ ↔
      ∃ w r, t = w ++ r ∧ w ≠ [] ∧ AllIn accepts w ∧ d = ⟨lastOf b w, r, cap⟩ := by
  rw [oneOrMore, mem_ends_seq]
  constructor
  · rintro ⟨e, he, hd⟩
    obtain ⟨x, r, rfl, hx, rfl⟩ := mem_ends_one.mp he
    obtain ⟨w, r, rfl, hw, rfl⟩ := mem_ends_many.mp hd
    exact ⟨x :: w, r, rfl, by simp, allIn_cons.mpr ⟨hx, hw⟩, by rw [lastOf_cons]⟩
  · rintro ⟨w, r, rfl, hne, hw, rfl⟩
    cases w with
    | nil => exact absurd rfl hne
    | cons x w =>
        obtain ⟨hx, hw⟩ := allIn_cons.mp hw
        exact ⟨_, mem_ends_one.mpr ⟨x, _, rfl, hx, rfl⟩,
          mem_ends_many.mpr ⟨w, r, rfl, hw, by rw [lastOf_cons]⟩⟩

/-! ### Greed -/

theorem run_seq (p q : Pattern) (c : Cursor) (k : Cursor → Option α) :
    (seq p q).run c k = p.run c fun d => q.run d k := rfl

theorem run_empty (c : Cursor) (k : Cursor → Option α) : empty.run c k = k c := rfl

/-- A run answers what its continuation says after one of the ways. -/
theorem run_eq_some {p : Pattern} {c : Cursor} {k : Cursor → Option α} {a : α}
    (h : p.run c k = some a) : ∃ d ∈ p.ends c, k d = some a := by
  rw [run_eq] at h
  exact List.exists_of_findSome?_eq_some h

theorem run_one_cons {x : Char} (hx : accepts x = true) (k : Cursor → Option α) :
    (one accepts).run ⟨b, x :: t, cap⟩ k = k ⟨some x, t, cap⟩ := by
  simp [run, Cursor.step?, hx]

theorem run_one_of_not {x : Char} (hx : accepts x ≠ true) (k : Cursor → Option α) :
    (one accepts).run ⟨b, x :: t, cap⟩ k = none := by
  simp [run, Cursor.step?, hx]

/-- The longest run of a class that a continuation accepts, and what the continuation says there. -/
def LongestRun (accepts : Char → Bool) (k : Cursor → Option α) (c : Cursor) (a : α) : Prop :=
  ∃ w r, c.rest = w ++ r ∧ AllIn accepts w ∧ k ⟨lastOf c.before w, r, c.captured⟩ = some a ∧
    ∀ v r', r = v ++ r' → v ≠ [] → AllIn accepts v →
      k ⟨lastOf c.before (w ++ v), r', c.captured⟩ = none

theorem manyRun_eq_some {k : Cursor → Option α} {a : α} {n : Nat} (hn : t.length ≤ n)
    (h : manyRun (one accepts).run n ⟨b, t, cap⟩ k = some a) :
    LongestRun accepts k ⟨b, t, cap⟩ a := by
  induction n generalizing b t with
  | zero =>
      obtain rfl : t = [] := List.length_eq_zero_iff.mp (Nat.le_zero.mp hn)
      refine ⟨[], [], rfl, allIn_nil, h, ?_⟩
      intro v r' hr hv
      simp only [List.nil_eq, List.append_eq_nil_iff] at hr
      exact absurd hr.1 hv
  | succ n ih =>
      rw [manyRun, Option.or_eq_some_iff] at h
      rcases h with h | ⟨hnone, hk⟩
      · cases t with
        | nil => simp [run, Cursor.step?] at h
        | cons x t =>
            by_cases hx : accepts x = true
            · rw [run_one_cons hx] at h
              obtain ⟨w, r, hr, hw, hk, hmax⟩ := ih (by simpa using hn) h
              refine ⟨x :: w, r, by simpa using hr, allIn_cons.mpr ⟨hx, hw⟩, by simpa using hk, ?_⟩
              intro v r' hr hv hall
              simpa using hmax v r' hr hv hall
            · rw [run_one_of_not hx] at h
              simp at h
      · refine ⟨[], t, rfl, allIn_nil, hk, ?_⟩
        rintro v r' rfl hv hall
        -- had a longer run been accepted, the first step would have led to it
        cases v with
        | nil => exact absurd rfl hv
        | cons x v =>
            obtain ⟨hx, hall⟩ := allIn_cons.mp hall
            rw [List.cons_append, run_one_cons hx, manyRun_eq (run_eq _),
              List.findSome?_eq_none_iff] at hnone
            refine hnone _ (mem_manyEnds.mpr ⟨v, r', rfl, ?_, hall, by simp⟩)
            simp at hn
            omega

/-- A greedy repetition ends after the longest run that the rest of the pattern accepts. -/
theorem run_many_eq_some {k : Cursor → Option α} {a : α} {c : Cursor}
    (h : (many (one accepts)).run c k = some a) : LongestRun accepts k c a :=
  manyRun_eq_some (Nat.le_refl _) h

/-! ### A match is a text that was read -/

/-- One cursor comes after another in the same text. -/
def Reads (c d : Cursor) : Prop := ∃ w, c.rest = w ++ d.rest ∧ d.before = lastOf c.before w

theorem Reads.refl (c : Cursor) : Reads c c := ⟨[], rfl, rfl⟩

theorem Reads.trans {c e d : Cursor} (hce : Reads c e) (hed : Reads e d) : Reads c d := by
  obtain ⟨u, hu, hub⟩ := hce
  obtain ⟨v, hv, hvb⟩ := hed
  exact ⟨u ++ v, by rw [hu, hv, List.append_assoc], by rw [hvb, hub, lastOf_append]⟩

theorem reads_of_mem_manyEnds {step : Cursor → List Cursor}
    (hstep : ∀ c d, d ∈ step c → Reads c d) {n : Nat} {c d : Cursor} (h : d ∈ manyEnds step n c) :
    Reads c d := by
  induction n generalizing c with
  | zero =>
      rw [List.mem_singleton.mp h]
      exact .refl c
  | succ n ih =>
      rw [manyEnds, List.mem_append, List.mem_flatMap, List.mem_singleton] at h
      rcases h with ⟨e, he, hd⟩ | rfl
      · exact (hstep c e he).trans (ih hd)
      · exact .refl d

/-- Whatever the pattern, each of its ways reads a text. -/
theorem reads_of_mem_ends {p : Pattern} {c d : Cursor} (h : d ∈ p.ends c) : Reads c d := by
  induction p generalizing c d with
  | empty =>
      cases mem_ends_empty.mp h
      exact .refl c
  | one accepts =>
      obtain ⟨x, r, ht, -, rfl⟩ := mem_ends_one.mp h
      exact ⟨[x], ht, rfl⟩
  | lineStart =>
      cases (mem_ends_lineStart.mp h).2
      exact .refl c
  | lineEnd =>
      cases (mem_ends_lineEnd.mp h).2
      exact .refl c
  | seq p q ihp ihq =>
      obtain ⟨e, he, hd⟩ := mem_ends_seq.mp h
      exact (ihp he).trans (ihq hd)
  | either p q ihp ihq =>
      rcases mem_ends_either.mp h with h | h
      · exact ihp h
      · exact ihq h
  | many p ih => exact reads_of_mem_manyEnds (fun _ _ h => ih h) h
  | manyLazy p ih => exact reads_of_mem_manyEnds (fun _ _ h => ih h) (mem_manyLazyEnds.mp h)
  | capture p ih =>
      obtain ⟨e, he, rfl⟩ := mem_ends_capture.mp h
      have hread : Reads c e := ih he
      exact hread
  | again =>
      obtain ⟨b, t, captured⟩ := c
      cases captured with
      | none => simp [ends] at h
      | some w =>
          obtain ⟨r, ht, rfl⟩ := mem_ends_again.mp h
          exact ⟨w, ht, rfl⟩

theorem upTo_of_rest {c d : Cursor} {w : Text} (h : c.rest = w ++ d.rest) : c.upTo d = w := by
  rw [Cursor.upTo, h]
  simp

variable {p : Pattern} {m : Match}

/-- A match is the text that one of the ways reads. -/
theorem matchAt?_eq_some (h : p.matchAt? b t = some m) :
    ∃ d ∈ p.ends ⟨b, t, none⟩, t = m.text ++ d.rest ∧ m.captured = d.captured := by
  rw [matchAt?_eq, Option.map_eq_some_iff] at h
  obtain ⟨d, hd, rfl⟩ := h
  have hmem := List.mem_of_mem_head? hd
  obtain ⟨w, hw, -⟩ := reads_of_mem_ends hmem
  refine ⟨d, hmem, ?_, rfl⟩
  simp only at hw ⊢
  rw [upTo_of_rest (d := d) hw, hw]

theorem matchAt?_eq_none : p.matchAt? b t = none ↔ ∀ d, d ∉ p.ends ⟨b, t, none⟩ := by
  rw [matchAt?_eq, Option.map_eq_none_iff, List.head?_eq_none_iff, List.eq_nil_iff_forall_not_mem]

theorem matchAt?_isSome (h : d ∈ p.ends ⟨b, t, none⟩) : ∃ m, p.matchAt? b t = some m := by
  rw [← Option.isSome_iff_exists, Option.isSome_iff_ne_none, Ne, matchAt?_eq_none]
  exact fun hnone => hnone d h

/-- Where all ways end at one place, the match ends there. -/
theorem matchAt?_of_unique {w : Text} (ht : t = w ++ d.rest) (h : d ∈ p.ends ⟨b, t, none⟩)
    (hunique : ∀ e ∈ p.ends ⟨b, t, none⟩, e = d) : p.matchAt? b t = some ⟨w, d.captured⟩ := by
  obtain ⟨m, hm⟩ := matchAt?_isSome h
  obtain ⟨e, he, htext, hcap⟩ := matchAt?_eq_some hm
  cases hunique e he
  rw [hm]
  have hw : m.text = w := List.append_cancel_right (htext.symm.trans ht)
  cases m
  simp_all

end Pattern

end SolidityKit
