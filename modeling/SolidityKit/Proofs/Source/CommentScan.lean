/-
Boilerplate comments by a plain scan.

`scanComments` goes over a text once and knows nothing of patterns.  Where an opening mark stands it looks for
the first closing mark behind it; if there is one, it takes the whole comment, drops or copies it, and goes on
behind it, and every other character it copies.  `removeBoilerplate_eq_scan` says that this is what the rule
for boilerplate comments does.

The two look at the same places.  A search takes a block comment wherever one can be read, and what can be read
there is `IsBlock`, which is determined by its first closing mark (`isBlock_iff_cutClosing?`).  So neither goes
on past the first closing mark, nor lets a comment begin within another, and an opening mark without a closing
one is text like any other.
-/
import SolidityKit.Proofs.Source.BlockComments
import SolidityKit.Source.Normalize
import Mathlib.Data.List.Infix

namespace SolidityKit.Source

open Pattern Shape

/-! ### Words in any mix of cases -/

/-- Whether a text begins with a word, in any mix of cases. -/
def beginsWithWord : (word t : Text) → Bool
  | [], _ => true
  | _ :: _, [] => false
  | small :: word, c :: t => sameLetter small c && beginsWithWord word t

/-- Whether a word stands anywhere in a text, in any mix of cases. -/
def mentions (word t : Text) : Bool := t.tails.any (beginsWithWord word)

theorem beginsWithWord_iff {word t : Text} :
    beginsWithWord word t = true ↔ ∃ w r, t = w ++ r ∧ SameLetters word w := by
  induction word generalizing t with
  | nil => simp [beginsWithWord, SameLetters]
  | cons small word ih =>
      cases t with
      | nil => simp [beginsWithWord, SameLetters]
      | cons c t =>
          rw [beginsWithWord, Bool.and_eq_true, ih]
          constructor
          · rintro ⟨hc, w, r, rfl, hw⟩
            exact ⟨c :: w, r, rfl, .cons hc hw⟩
          · rintro ⟨w, r, ht, hw⟩
            cases hw with
            | cons hc hw =>
                obtain ⟨rfl, rfl⟩ := List.cons.inj ht
                exact ⟨hc, _, r, rfl, hw⟩

/-- A pattern whose matches are never empty occurs where it can be read. -/
theorem occursIn_iff {p : Pattern} {t : Text} (hne : ∀ b r m, p.matchAt? b r = some m → m.text ≠ []) :
    p.occursIn t = true ↔ ∃ u v m, t = u ++ v ∧ p.matchAt? (lastOf none u) v = some m := by
  constructor
  · intro h
    obtain ⟨m, more, hall⟩ : ∃ m more, p.allMatches t = m :: more := by
      refine List.exists_cons_of_ne_nil fun hnil => ?_
      rw [occursIn_eq_false_iff.mpr hnil] at h
      cases h
    obtain ⟨a, r, rfl, hm, -⟩ := exists_first_match hall
    exact ⟨a, m.text ++ r, m, rfl, hm⟩
  · rintro ⟨u, v, m, rfl, hm⟩
    by_contra hno
    rw [Bool.not_eq_true, occursIn_eq_false_iff] at hno
    exact hne _ _ _ hm (text_eq_nil_of_no_match hno hm)

theorem exists_matchAt?_boilerplateWord {b : Option Char} {v : Text} :
    (∃ m, boilerplateWord.matchAt? b v = some m) ↔
      beginsWithWord "copyright".toList v = true ∨ beginsWithWord "file:".toList v = true := by
  rw [beginsWithWord_iff, beginsWithWord_iff]
  constructor
  · rintro ⟨m, hm⟩
    obtain ⟨d, hd, -, -⟩ := matchAt?_eq_some hm
    rcases mem_ends_either.mp hd with hd | hd
    · obtain ⟨w, r, hv, hw, -⟩ := mem_anyCase.mp hd
      exact Or.inl ⟨w, r, hv, hw⟩
    · obtain ⟨w, r, hv, hw, -⟩ := mem_anyCase.mp hd
      exact Or.inr ⟨w, r, hv, hw⟩
  · rintro (⟨w, r, hv, hw⟩ | ⟨w, r, hv, hw⟩)
    · exact matchAt?_isSome (mem_ends_either.mpr (Or.inl (mem_anyCase.mpr ⟨w, r, hv, hw, rfl⟩)))
    · exact matchAt?_isSome (mem_ends_either.mpr (Or.inr (mem_anyCase.mpr ⟨w, r, hv, hw, rfl⟩)))

theorem boilerplateWord_text_ne_nil {b : Option Char} {r : Text} {m : Match}
    (h : boilerplateWord.matchAt? b r = some m) : m.text ≠ [] := by
  have hword : ∀ {word : String} {d : Cursor}, word.toList ≠ [] → d ∈ (anyCase word).ends ⟨b, r, none⟩ →
      r = m.text ++ d.rest → m.text ≠ [] := by
    intro word d hne hd ht hnil
    obtain ⟨w, r', hr, hw, rfl⟩ := mem_anyCase.mp hd
    rw [hnil, List.nil_append] at ht
    have hwnil : w = [] := by
      rw [hr] at ht
      simpa using ht
    subst hwnil
    exact hne (List.forall₂_nil_right_iff.mp hw)
  obtain ⟨d, hd, ht, -⟩ := matchAt?_eq_some h
  rcases mem_ends_either.mp hd with hd | hd
  · exact hword (by decide) hd ht
  · exact hword (by decide) hd ht

/-- A block comment is boilerplate if it mentions one of two words. -/
theorem isBoilerplate_eq (t : Text) :
    Text.isBoilerplate t = (mentions "copyright".toList t || mentions "file:".toList t) := by
  rw [Bool.eq_iff_iff, Bool.or_eq_true, Text.isBoilerplate, occursIn_iff
    fun _ _ _ => boilerplateWord_text_ne_nil]
  unfold mentions
  simp only [List.any_eq_true, List.mem_tails]
  constructor
  · rintro ⟨u, v, m, rfl, hm⟩
    rcases exists_matchAt?_boilerplateWord.mp ⟨m, hm⟩ with h | h
    · exact Or.inl ⟨v, List.suffix_append u v, h⟩
    · exact Or.inr ⟨v, List.suffix_append u v, h⟩
  · rintro (⟨v, ⟨u, rfl⟩, h⟩ | ⟨v, ⟨u, rfl⟩, h⟩)
    · obtain ⟨m, hm⟩ := exists_matchAt?_boilerplateWord (b := lastOf none u).mpr (Or.inl h)
      exact ⟨u, v, m, rfl, hm⟩
    · obtain ⟨m, hm⟩ := exists_matchAt?_boilerplateWord (b := lastOf none u).mpr (Or.inr h)
      exact ⟨u, v, m, rfl, hm⟩

/-! ### The first closing mark -/

/-- The text up to and with its first closing mark, and what follows, if there is a closing mark. -/
def cutClosing? : Text → Option (Text × Text)
  | [] => none
  | '*' :: '/' :: rest => some (['*', '/'], rest)
  | c :: rest => (cutClosing? rest).map fun cut => (c :: cut.1, cut.2)

theorem cutClosing?_append {w : Text} (h : ¬ "*/".toList <:+: w ++ ['*']) (more : Text) :
    cutClosing? (w ++ "*/".toList ++ more) = some (w ++ "*/".toList, more) := by
  induction w with
  | nil => rfl
  | cons c w ih =>
      have hrest : ¬ "*/".toList <:+: w ++ ['*'] := fun hin => h (hin.trans (List.suffix_cons c _).isInfix)
      have hmark : ∀ rest, c = '*' → w ++ "*/".toList ++ more = '/' :: rest → False := by
        rintro rest rfl hslash
        refine h ⟨[], (w ++ ['*']).drop 1, ?_⟩
        cases w with
        | nil => simp at hslash
        | cons d w =>
            obtain rfl : d = '/' := (List.cons.inj hslash).1
            rfl
      rw [List.cons_append, List.cons_append, cutClosing?, ih hrest]
      · rfl
      · exact hmark

theorem cutClosing?_eq_some {t body more : Text} (h : cutClosing? t = some (body, more)) :
    t = body ++ more ∧ IsBlock ("/*".toList ++ body) := by
  induction t using cutClosing?.induct generalizing body with
  | case1 => cases h
  | case2 rest =>
      cases h
      exact ⟨rfl, [], rfl, by decide⟩
  | case3 c rest hmark ih =>
      rw [cutClosing?] at h
      · obtain ⟨⟨front, back⟩, hcut, hpair⟩ := Option.map_eq_some_iff.mp h
        obtain ⟨rfl, rfl⟩ := Prod.mk.inj hpair
        obtain ⟨rfl, w, hw, hclosing⟩ := ih hcut
        obtain rfl : front = w ++ "*/".toList := List.append_cancel_left hw
        refine ⟨rfl, c :: w, rfl, fun hin => ?_⟩
        rw [List.cons_append] at hin
        rcases List.infix_cons_iff.mp hin with hpre | hin
        · -- a mark at the front would have been taken
          obtain ⟨rfl, hslash⟩ := List.cons_prefix_cons.mp hpre
          cases w with
          | nil => exact absurd hslash (by decide)
          | cons d w =>
              obtain rfl : '/' = d := (List.cons_prefix_cons.mp hslash).1
              exact hmark _ rfl rfl
        · exact hclosing hin
      · exact hmark

/-- **What can be read as a block comment ends at the first closing mark behind its opening mark.** -/
theorem isBlock_iff_cutClosing? {x r : Text} :
    IsBlock x ∧ x <+: r ↔ ∃ body more, x = "/*".toList ++ body ∧ r = "/*".toList ++ (body ++ more) ∧
      cutClosing? (body ++ more) = some (body, more) := by
  constructor
  · rintro ⟨⟨w, rfl, hw⟩, more, rfl⟩
    exact ⟨w ++ "*/".toList, more, rfl, by simp, cutClosing?_append hw more⟩
  · rintro ⟨body, more, rfl, rfl, hcut⟩
    exact ⟨(cutClosing?_eq_some hcut).2, more, by simp⟩

theorem length_cutClosing? {t body more : Text} (h : cutClosing? t = some (body, more)) :
    more.length ≤ t.length := by
  rw [(cutClosing?_eq_some h).1, List.length_append]
  exact Nat.le_add_left _ _

/-! ### The scan -/

/-- Whether a comment is one to drop. -/
def isNotice (comment : Text) : Bool := mentions "copyright".toList comment || mentions "file:".toList comment

/-- Goes over a text from left to right, drops the comments that are notices, and copies everything else; with
how many comments were dropped. -/
def scanComments : Text → Text × Nat
  | [] => ([], 0)
  | '/' :: '*' :: rest =>
    match _h : cutClosing? rest with
    | some (body, more) =>
      let comment := '/' :: '*' :: body
      let (kept, dropped) := scanComments more
      if isNotice comment then (kept, dropped + 1) else (comment ++ kept, dropped)
    | none =>
      let (kept, dropped) := scanComments ('*' :: rest)
      ('/' :: kept, dropped)
  | c :: rest =>
    let (kept, dropped) := scanComments rest
    (c :: kept, dropped)
termination_by t => t.length
decreasing_by
  · have := length_cutClosing? _h
    simp only [List.length_cons]
    omega
  · simp
  · simp

theorem scanComments_comment {body more : Text} (h : cutClosing? (body ++ more) = some (body, more)) :
    scanComments ("/*".toList ++ body ++ more) =
      if isNotice ("/*".toList ++ body) then ((scanComments more).1, (scanComments more).2 + 1)
      else ("/*".toList ++ body ++ (scanComments more).1, (scanComments more).2) := by
  show scanComments ('/' :: '*' :: (body ++ more)) = _
  rw [scanComments]
  split
  · next body' more' hcut =>
      cases hcut.symm.trans h
      rfl
  · next hcut => cases hcut.symm.trans h

theorem scanComments_copy {c : Char} {t : Text}
    (h : ∀ rest, c :: t = "/*".toList ++ rest → cutClosing? rest = none) :
    scanComments (c :: t) = (c :: (scanComments t).1, (scanComments t).2) := by
  rw [scanComments.eq_def]
  split
  · next heq => cases heq
  · next rest heq =>
      obtain ⟨rfl, rfl⟩ := List.cons.inj heq
      split
      · next body more hcut => cases (h rest rfl).symm.trans hcut
      · rfl
  · next c' rest _ heq =>
      obtain ⟨rfl, rfl⟩ := List.cons.inj heq
      rfl

/-- What is left of pieces without some of the matches, and how many those are. -/
def dropHits (drops : Match → Bool) (ps : List Piece) : Text × Nat :=
  (ps.flatMap fun
    | .plain c => [c]
    | .hit m => if drops m then [] else m.text, (ps.filterMap Piece.match?).countP drops)

section DropHits

variable {drops : Match → Bool} {ps : List Piece} {m : Match}

theorem dropHits_plain (c : Char) :
    dropHits drops (.plain c :: ps) = (c :: (dropHits drops ps).1, (dropHits drops ps).2) := rfl

theorem dropHits_hit (m : Match) : dropHits drops (.hit m :: ps) =
    if drops m then ((dropHits drops ps).1, (dropHits drops ps).2 + 1)
    else (m.text ++ (dropHits drops ps).1, (dropHits drops ps).2) := by
  by_cases h : drops m <;> simp [dropHits, h, Piece.match?]

end DropHits

/-- **Removing boilerplate comments is one scan of the text.** -/
theorem removeBoilerplate_eq_scan (t : Text) : removeBoilerplate t = scanComments t := by
  show dropHits (fun m => Text.isBoilerplate m.text) (blockComment.piecesFrom 0 none t) = _
  refine piecesFrom_induction blockComment
    (motive := fun _ t ps => dropHits (fun m => Text.isBoilerplate m.text) ps = scanComments t) ?_ ?_ ?_ none t
  · intro b
    rw [scanComments]
    rfl
  · intro b c t hmiss ih
    rw [dropHits_plain, ih, scanComments_copy]
    intro rest hrest
    rw [hrest] at hmiss
    cases hcut : cutClosing? rest with
    | none => rfl
    | some cut =>
        obtain ⟨body, more⟩ := cut
        obtain ⟨rfl, hblock⟩ := cutClosing?_eq_some hcut
        -- a comment could be read here, and so the search would have taken it
        have hm := hmiss ⟨"/*".toList ++ body, none⟩ (matchAt?_blockComment.mpr ⟨hblock, rfl, more, by simp⟩)
        simp at hm
  · intro b m t hne hm ih
    obtain ⟨hblock, -, -⟩ := matchAt?_blockComment.mp hm
    obtain ⟨body, more, hx, hr, hcut⟩ := isBlock_iff_cutClosing?.mp ⟨hblock, List.prefix_append m.text t⟩
    obtain rfl : t = more := by
      rw [hx] at hr
      simpa using hr
    rw [dropHits_hit, ih, isBoilerplate_eq, hx, scanComments_comment hcut]
    rfl

end SolidityKit.Source
