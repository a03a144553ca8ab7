/-
The parts of an address and their separators.

An address is taken apart from left to right, and each cut is made at the first separator there is.  `Spells`
says the same without a direction: the text is the parts with their separators between them, and no part holds
a separator that would have ended it earlier.  A text that has a host spells exactly the parts that it is taken
apart into (`spells_partsOf`, `partsOf_of_spells`), so that taking a text apart undoes putting parts together.
-/
import SolidityKit.Rpc.Url
import SolidityKit.Proofs.Results
import SolidityKit.Proofs.Text.Lines

namespace SolidityKit.Url

/-! ### Characters of a scheme -/

/-- What is true of the characters of ASCII is true of those that a scheme can have. -/
theorem forall_schemeChar {P : CodePoint → Prop}
    (h : ∀ n < 128, isSchemeChar (.char (Char.ofNat n)) = true → P (.char (Char.ofNat n))) {c : CodePoint}
    (hc : isSchemeChar c = true) : P c := by
  cases c with
  | surrogate half => cases hc
  | char c =>
      have hsmall : c.toNat < 128 := by
        simp only [isSchemeChar, isLetter, CodePoint.isChar, Bool.or_eq_true, Bool.and_eq_true,
          decide_eq_true_eq, beq_iff_eq] at hc
        rcases hc with (⟨-, h⟩ | ⟨-, h⟩) | ((⟨-, h⟩ | rfl) | rfl) | rfl
        · exact Nat.lt_of_le_of_lt h (by decide)
        · exact Nat.lt_of_le_of_lt h (by decide)
        · exact Nat.lt_of_le_of_lt h (by decide)
        · decide
        · decide
        · decide
      have hself : Char.ofNat c.toNat = c := Char.ofNat_toNat c
      exact hself ▸ h c.toNat hsmall (hself.symm ▸ hc)

theorem isSchemeChar_of_isLetter {c : CodePoint} (h : isLetter c = true) : isSchemeChar c = true := by
  simp [isSchemeChar, h]

/-- Whether the character is left in an address. -/
def isKept (c : CodePoint) : Bool := c != .char '\t' && c != .char '\r' && c != .char '\n'

/-- A character of a scheme is no separator, is not dropped, and has a small letter that is one as well. -/
structure OfScheme (c : CodePoint) : Prop where
  /-- It does not end the scheme. -/
  notColon : c ≠ .char ':'
  /-- It is not trimmed away. -/
  notBlank : isBlank c = false
  /-- It is not dropped at the start. -/
  notIdle : isIdle c = false
  /-- It is not dropped elsewhere. -/
  kept : isKept c = true
  /-- Its small letter may stand in a scheme. -/
  lower : isSchemeChar c.toLower = true
  /-- Its small letter is small. -/
  lowered : c.toLower.toLower = c.toLower

instance (c : CodePoint) : Decidable (OfScheme c) :=
  decidable_of_iff (c ≠ .char ':' ∧ isBlank c = false ∧ isIdle c = false ∧ isKept c = true ∧
    isSchemeChar c.toLower = true ∧
      c.toLower.toLower = c.toLower)
    ⟨fun ⟨h₁, h₂, h₃, h₄, h₅, h₆⟩ => ⟨h₁, h₂, h₃, h₄, h₅, h₆⟩, fun ⟨h₁, h₂, h₃, h₄, h₅, h₆⟩ =>
      ⟨h₁, h₂, h₃, h₄, h₅, h₆⟩⟩

theorem ofScheme {c : CodePoint} (h : isSchemeChar c = true) : OfScheme c :=
  forall_schemeChar (by decide) h

theorem isLetter_toLower {c : CodePoint} (h : isLetter c = true) : isLetter c.toLower = true := by
  have hall : isLetter c = true → isLetter c.toLower = true :=
    forall_schemeChar (P := fun c => isLetter c = true → isLetter c.toLower = true) (by decide)
      (isSchemeChar_of_isLetter h)
  exact hall h

/-- A text that is a scheme: a letter, and characters that may follow it. -/
def IsScheme (s : Points) : Prop := ∃ c more, s = c :: more ∧ isLetter c = true ∧ more.all isSchemeChar = true

theorem IsScheme.ofScheme {s : Points} (h : IsScheme s) {c : CodePoint} (hc : c ∈ s) : OfScheme c := by
  obtain ⟨first, more, rfl, hfirst, hmore⟩ := h
  rcases List.mem_cons.mp hc with rfl | hc
  · exact Url.ofScheme (isSchemeChar_of_isLetter hfirst)
  · exact Url.ofScheme (List.all_eq_true.mp hmore c hc)

theorem IsScheme.map_toLower {s : Points} (h : IsScheme s) : IsScheme (s.map CodePoint.toLower) := by
  obtain ⟨first, more, rfl, hfirst, hmore⟩ := h
  refine ⟨first.toLower, more.map CodePoint.toLower, rfl, isLetter_toLower hfirst, List.all_eq_true.mpr
    fun c hc => ?_⟩
  obtain ⟨d, hd, rfl⟩ := List.mem_map.mp hc
  exact (Url.ofScheme (List.all_eq_true.mp hmore d hd)).lower

theorem IsScheme.map_map_toLower {s : Points} (h : IsScheme s) :
    (s.map CodePoint.toLower).map CodePoint.toLower = s.map CodePoint.toLower := by
  rw [List.map_map]
  exact List.map_congr_left fun c hc => (h.ofScheme hc).lowered

/-! ### One cut -/

/-- What stands in front of the two slashes: nothing, or a scheme and a colon. -/
inductive Front : Points → Points → Prop
  /-- There is no scheme. -/
  | none : Front [] []
  /-- A scheme is taken in small letters. -/
  | some {s : Points} (hs : IsScheme s) : Front (s.map CodePoint.toLower) (s ++ [.char ':'])

/-- A part at the end with the mark before it; an empty one may go without. -/
inductive Tail (mark : CodePoint) : Points → Points → Prop
  /-- There is no mark. -/
  | none : Tail mark [] []
  /-- The part stands behind the mark. -/
  | some (part : Points) : Tail mark part (mark :: part)

theorem splitScheme_of_notLetter {c : CodePoint} (h : isLetter c = false) (t : Points) :
    splitScheme (c :: t) = ([], c :: t) := by
  unfold splitScheme
  rcases Text.cut?_cases (.char ':') (c :: t) with ⟨hcut, -⟩ | ⟨a, b, hcut, hab, -⟩
  · rw [hcut]
  · rw [hcut]
    cases a with
    | nil => rfl
    | cons d a =>
        obtain ⟨rfl, -⟩ := List.cons.inj hab
        simp [h]

theorem Front.splitScheme_eq {scheme front : Points} (h : Front scheme front) (rest : Points) :
    splitScheme (front ++ .char '/' :: rest) = (scheme, .char '/' :: rest) := by
  cases h with
  | none => exact splitScheme_of_notLetter (by decide) rest
  | @some s hs =>
      have hcolon : .char ':' ∉ s := fun hmem => (hs.ofScheme hmem).notColon rfl
      obtain ⟨c, more, rfl, hc, hmore⟩ := hs
      unfold splitScheme
      rw [List.append_assoc, List.singleton_append, Text.cut?_append hcolon]
      simp [hc, hmore]

theorem front_splitScheme (t : Points) :
    ∃ front, t = front ++ (splitScheme t).2 ∧ Front (splitScheme t).1 front := by
  rcases Text.cut?_cases (.char ':') t with ⟨hcut, -⟩ | ⟨a, b, hcut, rfl, -⟩
  · have hsplit : splitScheme t = ([], t) := by
      unfold splitScheme
      rw [hcut]
    rw [hsplit]
    exact ⟨[], rfl, .none⟩
  · unfold splitScheme
    rw [hcut]
    cases a with
    | nil => exact ⟨[], rfl, .none⟩
    | cons c more =>
        dsimp only
        split
        · next h =>
            rw [Bool.and_eq_true] at h
            exact ⟨c :: more ++ [.char ':'], by simp, .some ⟨c, more, rfl, h.1, h.2⟩⟩
        · exact ⟨[], rfl, .none⟩

theorem Tail.splitOff_eq {mark : CodePoint} {part tail : Points} (h : Tail mark part tail) {before : Points}
    (hbefore : mark ∉ before) : splitOff mark (before ++ tail) = (before, part) := by
  unfold splitOff
  cases h with
  | none => rw [List.append_nil, Text.cut?_of_notMem hbefore]; rfl
  | some part => rw [Text.cut?_append hbefore]; rfl

theorem tail_splitOff (mark : CodePoint) (t : Points) :
    mark ∉ (splitOff mark t).1 ∧ ∃ tail, t = (splitOff mark t).1 ++ tail ∧
      Tail mark (splitOff mark t).2 tail := by
  unfold splitOff
  rcases Text.cut?_cases mark t with ⟨hcut, hmem⟩ | ⟨a, b, hcut, rfl, ha⟩
  · rw [hcut]
    exact ⟨hmem, [], (List.append_nil t).symm, .none⟩
  · rw [hcut]
    exact ⟨ha, mark :: b, rfl, .some b⟩

/-- The text is empty, or begins with a character that ends a host. -/
def BehindHost (t : Points) : Prop := ∀ c, t.head? = some c → endsHost c = true

theorem splitHost_of_slashes {host rest : Points} (hhost : ∀ c ∈ host, endsHost c = false)
    (hrest : BehindHost rest) :
    splitHost (.char '/' :: .char '/' :: (host ++ rest)) = (host, rest) := by
  have hstop : rest.takeWhile (fun c => !endsHost c) = [] ∧ rest.dropWhile (fun c => !endsHost c) = rest := by
    cases rest with
    | nil => exact ⟨rfl, rfl⟩
    | cons c rest =>
        have hc : endsHost c = true := hrest c rfl
        simp [hc]
  have hall : ∀ c ∈ host, (!endsHost c) = true := fun c hc => by simp [hhost c hc]
  show (List.takeWhile _ (host ++ rest), List.dropWhile _ (host ++ rest)) = _
  rw [List.takeWhile_append_of_pos hall, List.dropWhile_append_of_pos hall, hstop.1, hstop.2, List.append_nil]

theorem slashes_of_splitHost {t : Points} (h : (splitHost t).1 ≠ []) :
    t = .char '/' :: .char '/' :: ((splitHost t).1 ++ (splitHost t).2) ∧
    (∀ c ∈ (splitHost t).1, endsHost c = false) ∧
      BehindHost (splitHost t).2 := by
  unfold splitHost at h ⊢
  split at h
  · next rest =>
      refine ⟨by rw [List.takeWhile_append_dropWhile], fun c hc => ?_, fun c hc => ?_⟩
      · simpa using List.mem_takeWhile_imp hc
      · have hnot := List.head?_dropWhile_not (fun c => !endsHost c) rest
        rw [hc] at hnot
        simpa using hnot
  · exact absurd rfl h

/-! ### All cuts -/

/-- What an address is taken apart into, as far as that does not depend on its host. -/
def partsOf (t : Points) : Url :=
  let (scheme, t) := splitScheme t
  let (host, t) := splitHost t
  let (t, fragment) := splitOff (.char '#') t
  let (path, query) := splitOff (.char '?') t
  { scheme, host, path, query, fragment }

/-- The text is the parts of the address with their separators, and in no part there is one that would
have ended it. -/
structure Spells (t : Points) (u : Url) : Prop where
  /-- The separators are between the parts. -/
  text : ∃ front query fragment, t = front ++ .char '/' :: .char '/' ::
    (u.host ++ (u.path ++ query ++ fragment)) ∧
    Front u.scheme front ∧ Tail (.char '?') u.query query ∧ Tail (.char '#') u.fragment fragment
  /-- Nothing in the host ends it. -/
  host : ∀ c ∈ u.host, endsHost c = false
  /-- Nor does the path. -/
  path : ∀ c ∈ u.path, c ≠ .char '?' ∧ c ≠ .char '#'
  /-- The path begins with a slash, if it is not empty. -/
  rooted : BehindHost u.path
  /-- The query does not hold the mark of the fragment. -/
  query : .char '#' ∉ u.query

theorem BehindHost.append {a b : Points} (ha : BehindHost a) (hb : BehindHost b) : BehindHost (a ++ b) := by
  intro c hc
  cases a with
  | nil => exact hb c hc
  | cons d a => exact ha c hc

theorem Tail.behindHost {mark : CodePoint} {part tail : Points} (h : Tail mark part tail)
    (hmark : endsHost mark = true) :
    BehindHost tail := by
  intro c hc
  cases h with
  | none => cases hc
  | some part =>
      cases hc
      exact hmark

theorem Tail.mem {mark c : CodePoint} {part tail : Points} (h : Tail mark part tail) (hc : c ∈ part) :
    c ∈ tail := by
  cases h with
  | none => exact hc
  | some part => exact List.mem_cons_of_mem _ hc

theorem Tail.notMem {mark other : CodePoint} {part tail : Points} (h : Tail mark part tail) (hne : other ≠ mark)
    (hpart : other ∉ part) : other ∉ tail := by
  cases h with
  | none => exact List.not_mem_nil
  | some part => simp [hne, hpart]

/-- **Taking a text apart gives the parts that it spells.** -/
theorem partsOf_of_spells {t : Points} {u : Url} (h : Spells t u) : partsOf t = u := by
  obtain ⟨front, query, fragment, rfl, hfront, hquery, hfragment⟩ := h.text
  have hrest : BehindHost (u.path ++ query ++ fragment) :=
    (h.rooted.append (hquery.behindHost (by decide))).append (hfragment.behindHost (by decide))
  have hfragmentMark : .char '#' ∉ u.path ++ query := by
    rw [List.mem_append, not_or]
    exact ⟨fun hmem => (h.path _ hmem).2 rfl, hquery.notMem (by decide) h.query⟩
  have hqueryMark : .char '?' ∉ u.path := fun hmem => (h.path _ hmem).1 rfl
  unfold partsOf
  rw [hfront.splitScheme_eq]
  dsimp only
  rw [splitHost_of_slashes h.host hrest]
  dsimp only
  rw [hfragment.splitOff_eq hfragmentMark]
  dsimp only
  rw [hquery.splitOff_eq hqueryMark]

/-- **A text with a host spells the parts that it is taken apart into.** -/
theorem spells_partsOf {t : Points} (h : (partsOf t).host ≠ []) : Spells t (partsOf t) := by
  obtain ⟨front, hfront, hscheme⟩ := front_splitScheme t
  obtain ⟨hslashes, hhost, hbehind⟩ := slashes_of_splitHost (t := (splitScheme t).2) h
  obtain ⟨hnumber, fragment, hfragment, hfragmentTail⟩ :=
    tail_splitOff (.char '#') (splitHost (splitScheme t).2).2
  obtain ⟨hquestion, query, hquery, hqueryTail⟩ :=
    tail_splitOff (.char '?') (splitOff (.char '#') (splitHost (splitScheme t).2).2).1
  -- before the first number sign there are the path and the query
  have hmiddle : (splitOff (.char '#') (splitHost (splitScheme t).2).2).1 = (partsOf t).path ++ query := hquery
  have hrest : (splitHost (splitScheme t).2).2 = (partsOf t).path ++ query ++ fragment := hmiddle ▸ hfragment
  rw [hmiddle] at hnumber
  rw [hrest] at hbehind
  refine ⟨⟨front, query, fragment, ?_, hscheme, hqueryTail, hfragmentTail⟩, hhost, fun c hc => ⟨?_, ?_⟩, ?_, ?_⟩
  · rw [← hrest]
    exact hslashes ▸ hfront
  · rintro rfl
    exact hquestion hc
  · rintro rfl
    exact hnumber (List.mem_append_left _ hc)
  · intro c hc
    refine hbehind c ?_
    rw [List.append_assoc, List.head?_append, hc]
    rfl
  · intro hmem
    exact hnumber (List.mem_append_right _ (hqueryTail.mem hmem))

end SolidityKit.Url
