/-
What the shapes match, as statements about texts.

Each shape gets one lemma that says which texts it reads, written out with the parts of the text in
order; nothing after this file opens a shape again.  Version directives have their match determined
outright (`matchAt?_versionDirective`): after the opening words the match runs to the next semicolon, whatever
stands between.  For file markers and blank runs, where greed decides, the match is described together with
what follows it.

Most of the time a proof only needs to know that a shape cannot match somewhere, and then it is enough
to know with which text each of its matches begins (`OpensWith`).
-/
import SolidityKit.Source.Shapes
import SolidityKit.Proofs.Pattern.Pieces
import Mathlib.Data.List.TakeWhile

namespace SolidityKit.Shape

open Pattern

variable {b : Option Char} {t r : Text} {cap : Option Text} {d : Cursor} {m : Match}

/-! ### Classes -/

theorem allIn_isBlank {w : Text} : AllIn isBlank w ↔ Text.isBlank w = true := by
  simp [AllIn, Text.isBlank]

theorem allIn_inLine {w : Text} : AllIn (· != '\n') w ↔ '\n' ∉ w := by
  constructor
  · intro h hm
    simpa using h _ hm
  · intro h x hx
    simp only [bne_iff_ne, ne_eq]
    rintro rfl
    exact h hx

theorem allIn_noneOf {cs : List Char} {w : Text} :
    AllIn (fun c => !cs.contains c) w ↔ ∀ c ∈ cs, c ∉ w := by
  constructor
  · intro h c hc hm
    simpa [hc] using h c hm
  · intro h x hx
    simp only [Bool.not_eq_eq_eq_not, Bool.not_true, List.contains_eq_mem, decide_eq_false_iff_not]
    exact fun hc => h x hc hx

/-- A run of a class ends where the class ends. -/
theorem allIn_cut {accepts : Char → Bool} {u w r r' : Text} {x y : Char} (hu : AllIn accepts u)
    (hw : AllIn accepts w) (hx : accepts x = false) (hy : accepts y = false)
    (h : u ++ x :: r = w ++ y :: r') : u = w ∧ x = y ∧ r = r' := by
  induction u generalizing w with
  | nil =>
      cases w with
      | nil => simpa using h
      | cons z w =>
          simp only [List.nil_append, List.cons_append, List.cons.injEq] at h
          rw [h.1, (allIn_cons.mp hw).1] at hx
          simp at hx
  | cons z u ih =>
      cases w with
      | nil =>
          simp only [List.nil_append, List.cons_append, List.cons.injEq] at h
          rw [← h.1, (allIn_cons.mp hu).1] at hy
          simp at hy
      | cons z' w =>
          simp only [List.cons_append, List.cons.injEq] at h
          obtain ⟨rfl, h⟩ := h
          obtain ⟨rfl, rfl, rfl⟩ := ih (allIn_cons.mp hu).2 (allIn_cons.mp hw).2 h
          exact ⟨rfl, rfl, rfl⟩

theorem cut_at {u w r r' : Text} {c : Char} (hu : c ∉ u) (hw : c ∉ w)
    (h : u ++ c :: r = w ++ c :: r') : u = w ∧ r = r' := by
  have hall : ∀ {v : Text}, c ∉ v → AllIn (· != c) v := by
    intro v hv x hx
    simp only [bne_iff_ne, ne_eq]
    rintro rfl
    exact hv hx
  obtain ⟨hl, -, hr⟩ := allIn_cut (hall hu) (hall hw) (by simp) (by simp) h
  exact ⟨hl, hr⟩

/-- A quote. -/
def IsQuote (c : Char) : Prop := c = '"' ∨ c = '\''

theorem mem_quote :
    d ∈ quote.ends ⟨b, t, cap⟩ ↔ ∃ q r, t = q :: r ∧ IsQuote q ∧ d = ⟨some q, r, cap⟩ := by
  simp [quote, mem_ends_one, IsQuote]

/-- A word in any mix of cases. -/
def SameLetters (word w : Text) : Prop := List.Forall₂ (fun small c => sameLetter small c = true) word w

theorem mem_anyCase {word : String} :
    d ∈ (anyCase word).ends ⟨b, t, cap⟩ ↔
      ∃ w r, t = w ++ r ∧ SameLetters word.toList w ∧ d = ⟨lastOf b w, r, cap⟩ := by
  have hones : anyCase word = inOrder ((word.toList.map sameLetter).map one) := by
    simp [anyCase, Function.comp_def]
  rw [hones, mem_ends_ones]
  simp only [SameLetters, List.forall₂_map_left_iff]

/-! ### Version directives -/

/-- The words that open a version directive. -/
def opening : Text := "pragma solidity ".toList

/-- A version directive: the opening words, a version, and a semicolon. -/
def IsDirective (d : Text) : Prop := ∃ w, d = opening ++ (w ++ [';']) ∧ w ≠ [] ∧ ';' ∉ w

theorem mem_versionDirective :
    d ∈ versionDirective.ends ⟨b, t, cap⟩ ↔
      ∃ w r, t = opening ++ (w ++ ';' :: r) ∧ w ≠ [] ∧ ';' ∉ w ∧ d = ⟨some ';', r, cap⟩ := by
  simp only [versionDirective, mem_ends_inOrder_cons, mem_ends_inOrder_nil, word, noneOf]
  constructor
  · rintro ⟨e, he, f, hf, g, hg, rfl⟩
    obtain ⟨r, rfl, rfl⟩ := mem_ends_literal.mp he
    obtain ⟨w, r, rfl, hne, hw, rfl⟩ := mem_ends_oneOrMore.mp hf
    obtain ⟨r, rfl, rfl⟩ := mem_ends_one_eq.mp hg
    exact ⟨w, r, rfl, hne, by simpa using allIn_noneOf.mp hw, rfl⟩
  · rintro ⟨w, r, rfl, hne, hw, rfl⟩
    refine ⟨_, mem_ends_literal.mpr ⟨_, rfl, rfl⟩, _, mem_ends_oneOrMore.mpr ⟨w, _, rfl, hne, ?_, rfl⟩,
      _, mem_ends_one_eq.mpr ⟨r, rfl, rfl⟩, rfl⟩
    exact allIn_noneOf.mpr (by simpa using hw)

/-- **A version directive runs from its opening words to the next semicolon.** -/
theorem matchAt?_versionDirective :
    versionDirective.matchAt? b t = some m ↔
      IsDirective m.text ∧ m.captured = none ∧ m.text <+: t := by
  constructor
  · intro h
    obtain ⟨d, hd, ht, hcap⟩ := matchAt?_eq_some h
    obtain ⟨w, r, rfl, hne, hw, rfl⟩ := mem_versionDirective.mp hd
    have htext : m.text = opening ++ (w ++ [';']) := by
      refine (List.append_left_inj r).mp ?_
      rw [← ht]
      simp
    exact ⟨⟨w, htext, hne, hw⟩, hcap, ⟨r, ht.symm⟩⟩
  · rintro ⟨⟨w, htext, hne, hw⟩, hcap, r, rfl⟩
    have hmem : (⟨some ';', r, none⟩ : Cursor) ∈ versionDirective.ends ⟨b, m.text ++ r, none⟩ :=
      mem_versionDirective.mpr ⟨w, r, by simp [htext], hne, hw, rfl⟩
    rw [matchAt?_of_unique rfl hmem]
    · simp [← hcap]
    · intro e he
      obtain ⟨w', r', ht, -, hw', rfl⟩ := mem_versionDirective.mp he
      rw [htext, List.append_assoc, List.append_cancel_left_eq, List.append_assoc,
        List.singleton_append] at ht
      obtain ⟨-, rfl⟩ := cut_at hw hw' ht
      rfl

/-! ### Licence lines, file markers and block comments -/

theorem mem_licenseLine (h : d ∈ licenseLine.ends ⟨b, t, cap⟩) :
    (b = none ∨ b = some '\n') ∧ ∃ u x r,
      t = "//".toList ++ (u ++ ("SPDX-License-Identifier:".toList ++ (x ++ r))) ∧
        Text.isBlank u = true ∧ '\n' ∉ x ∧ Text.AtLineEnd r ∧ d.rest = r := by
  simp only [licenseLine, mem_ends_inOrder_cons, mem_ends_inOrder_nil, word, blank, inLine] at h
  obtain ⟨e, he, f, hf, g, hg, i, hi, j, hj, k, hk, rfl⟩ := h
  obtain ⟨hb, rfl⟩ := mem_ends_lineStart.mp he
  obtain ⟨r, rfl, rfl⟩ := mem_ends_literal.mp hf
  obtain ⟨u, r, rfl, hu, rfl⟩ := mem_ends_many.mp hg
  obtain ⟨r, rfl, rfl⟩ := mem_ends_literal.mp hi
  obtain ⟨x, r, rfl, hx, rfl⟩ := mem_ends_many.mp hj
  obtain ⟨hr, rfl⟩ := mem_ends_lineEnd.mp hk
  exact ⟨hb, u, x, r, rfl, allIn_isBlank.mp hu, allIn_inLine.mp hx, hr, rfl⟩


theorem licenseLine_way {u x r : Text} (hb : b = none ∨ b = some '\n') (hu : Text.isBlank u = true)
    (hx : '\n' ∉ x) (hr : Text.AtLineEnd r) :
    ∃ e ∈ licenseLine.ends
        ⟨b, "//".toList ++ (u ++ ("SPDX-License-Identifier:".toList ++ (x ++ r))), cap⟩,
      e.rest = r := by
  simp only [licenseLine, mem_ends_inOrder_cons, mem_ends_inOrder_nil, word, blank, inLine]
  exact ⟨_, ⟨_, mem_ends_lineStart.mpr ⟨hb, rfl⟩, _, mem_ends_literal.mpr ⟨_, rfl, rfl⟩,
    _, mem_ends_many.mpr ⟨u, _, rfl, allIn_isBlank.mpr hu, rfl⟩, _, mem_ends_literal.mpr ⟨_, rfl, rfl⟩,
    _, mem_ends_many.mpr ⟨x, r, rfl, allIn_inLine.mpr hx, rfl⟩, _, mem_ends_lineEnd.mpr ⟨hr, rfl⟩, rfl⟩,
    rfl⟩

/-- A match of the file marker goes on to the end of the line. -/
theorem matchAt?_fileMarker (h : fileMarker.matchAt? b t = some m) :
    ∃ u k x r, m.text = "//".toList ++ (u ++ (k ++ x)) ∧ t = m.text ++ r ∧ Text.isBlank u = true ∧
      SameLetters "file:".toList k ∧ '\n' ∉ x ∧ Text.AtLineEnd r := by
  rw [matchAt?, Option.map_eq_some_iff] at h
  obtain ⟨d, hrun, rfl⟩ := h
  simp only [fileMarker, inOrder, List.foldr_cons, List.foldr_nil, run_seq, word, blank] at hrun
  obtain ⟨e, he, hrun⟩ := run_eq_some hrun
  obtain ⟨f, hf, hrun⟩ := run_eq_some hrun
  obtain ⟨g, hg, hrun⟩ := run_eq_some hrun
  obtain ⟨r, rfl, rfl⟩ := mem_ends_literal.mp he
  obtain ⟨u, r, rfl, hu, rfl⟩ := mem_ends_many.mp hf
  obtain ⟨k, r, rfl, hk, rfl⟩ := mem_anyCase.mp hg
  obtain ⟨x, r, hr, hx, hend, hmax⟩ := run_many_eq_some hrun
  simp only at hr
  subst hr
  simp only [run_empty, Option.some.injEq] at hend
  have htext : Cursor.upTo ⟨b, "//".toList ++ (u ++ (k ++ (x ++ r))), none⟩ d =
      "//".toList ++ (u ++ (k ++ x)) := upTo_of_rest (by simp [← hend])
  refine ⟨u, k, x, r, htext, by simp only [htext, List.append_assoc], allIn_isBlank.mp hu, hk,
    allIn_inLine.mp hx, ?_⟩
  -- a further character of the line would have been taken
  cases r with
  | nil => exact Or.inl rfl
  | cons c r =>
      by_cases hc : c = '\n'
      · exact Or.inr ⟨r, by rw [hc]⟩
      · have := hmax [c] r rfl (by simp) (allIn_inLine.mpr (by simpa using Ne.symm hc))
        simp [run_empty] at this

theorem fileMarker_way {u k r : Text} (hu : Text.isBlank u = true) (hk : SameLetters "file:".toList k) :
    ∃ e, e ∈ fileMarker.ends ⟨b, "//".toList ++ (u ++ (k ++ r)), cap⟩ := by
  simp only [fileMarker, mem_ends_inOrder_cons, mem_ends_inOrder_nil, word, blank, inLine]
  exact ⟨_, _, mem_ends_literal.mpr ⟨_, rfl, rfl⟩, _, mem_ends_many.mpr ⟨u, _, rfl, allIn_isBlank.mpr hu, rfl⟩,
    _, mem_anyCase.mpr ⟨k, r, rfl, hk, rfl⟩, _, mem_ends_many.mpr ⟨[], r, rfl, allIn_nil, rfl⟩, rfl⟩

/-! ### Blank runs -/

/-- A match of the blank run ends at the last line feed that blanks lead to. -/
theorem matchAt?_blankRun (h : blankRun.matchAt? b t = some m) :
    ∃ w r, m.text = '\n' :: (w ++ ['\n']) ∧ t = m.text ++ r ∧ Text.isBlank w = true ∧
      '\n' ∉ r.takeWhile isBlank := by
  rw [matchAt?, Option.map_eq_some_iff] at h
  obtain ⟨d, hrun, rfl⟩ := h
  simp only [blankRun, inOrder, List.foldr_cons, List.foldr_nil, run_seq, blank] at hrun
  obtain ⟨e, he, hrun⟩ := run_eq_some hrun
  obtain ⟨r, rfl, rfl⟩ := mem_ends_one_eq.mp he
  obtain ⟨w, r, hr, hw, hend, hmax⟩ := run_many_eq_some hrun
  simp only at hr
  subst hr
  obtain ⟨f, hf, hend⟩ := run_eq_some hend
  obtain ⟨r, rfl, rfl⟩ := mem_ends_one_eq.mp hf
  simp only [run_empty, Option.some.injEq] at hend
  have htext : Cursor.upTo ⟨b, '\n' :: (w ++ '\n' :: r), none⟩ d = '\n' :: (w ++ ['\n']) :=
    upTo_of_rest (by simp [← hend])
  refine ⟨w, r, htext, by simp [htext], allIn_isBlank.mp hw, ?_⟩
  -- a further line feed behind blanks would have been taken
  intro hm
  obtain ⟨u, v, huv⟩ := List.append_of_mem hm
  have hu : AllIn isBlank ('\n' :: u) := by
    refine allIn_cons.mpr ⟨rfl, fun x hx => ?_⟩
    have hx' : x ∈ r.takeWhile isBlank := by simp [huv, hx]
    exact List.mem_takeWhile_imp hx'
  obtain ⟨r', rfl⟩ : ∃ r', r = u ++ '\n' :: r' := by
    refine ⟨v ++ r.dropWhile isBlank, ?_⟩
    have := List.takeWhile_append_dropWhile (p := isBlank) (l := r)
    rw [huv] at this
    simpa using this.symm
  have := hmax ('\n' :: u) ('\n' :: r') rfl (by simp) hu
  simp [run, Cursor.step?] at this

theorem blankRun_way {w r : Text} (hw : Text.isBlank w = true) :
    ∃ e, e ∈ blankRun.ends ⟨b, '\n' :: (w ++ '\n' :: r), cap⟩ := by
  simp only [blankRun, mem_ends_inOrder_cons, mem_ends_inOrder_nil, blank]
  exact ⟨_, _, mem_ends_one_eq.mpr ⟨_, rfl, rfl⟩, _, mem_ends_many.mpr ⟨w, _, rfl, allIn_isBlank.mpr hw, rfl⟩,
    _, mem_ends_one_eq.mpr ⟨r, rfl, rfl⟩, rfl⟩

/-! ### The text a match begins with -/

theorem opensWith_versionDirective : OpensWith versionDirective opening := by
  intro b t m h
  obtain ⟨⟨w, hw, -⟩, -⟩ := matchAt?_versionDirective.mp h
  exact ⟨_, hw.symm⟩

theorem opensWith_fileMarker : OpensWith fileMarker "//".toList := by
  intro b t m h
  obtain ⟨u, k, x, r, hm, -⟩ := matchAt?_fileMarker h
  exact ⟨_, hm.symm⟩

theorem opensWith_licenseLine : OpensWith licenseLine "//".toList := by
  refine opensWith_of_ends fun b t d hd => ?_
  obtain ⟨-, u, x, r, rfl, -, -, -, hr⟩ := mem_licenseLine hd
  exact ⟨u ++ ("SPDX-License-Identifier:".toList ++ x), r, by simp, hr⟩

theorem opensWith_blockComment : OpensWith blockComment "/*".toList := by
  refine opensWith_of_ends fun b t d hd => ?_
  simp only [blockComment] at hd
  rw [mem_ends_inOrder_cons] at hd
  obtain ⟨e, he, hd⟩ := hd
  obtain ⟨r, rfl, rfl⟩ := mem_ends_literal.mp he
  obtain ⟨v, hv, -⟩ := reads_of_mem_ends hd
  exact ⟨v, d.rest, by simpa using hv, rfl⟩

end SolidityKit.Shape
