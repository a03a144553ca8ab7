/-
Removing the matches of a pattern, line by line.

A step of normalising works on a whole text: it cuts it into pieces and drops the matches, or all but the
first.  Where each match covers one line, perhaps with blank lines behind it, the step does to the list of
lines what `keepFirstLine` does to any list.  `LineWise` says so for a text whose lines that are not blank
show given things, and `lineWise_pieces` is the one induction behind all steps: on the length of the text,
because a match may take several lines at once.

What a line shows is a parameter `Shows`, so that a line may lose the blanks around it between two steps.
-/
import SolidityKit.Source.Merge
import SolidityKit.Proofs.Source.BlankRuns

namespace SolidityKit.Source

open Pattern Shape

/-! ### Keeping the first match -/

theorem keepFirst_plain (kept : Bool) (w : Text) (ps : List Piece) :
    keepFirst kept (w.map Piece.plain ++ ps) = w ++ keepFirst kept ps := by
  induction w with
  | nil => rfl
  | cons c w ih => simp [keepFirst, ih]

theorem keepFirst_true (ps : List Piece) :
    keepFirst true ps = ps.flatMap fun
      | .plain c => [c]
      | .hit _ => [] := by
  induction ps with
  | nil => rfl
  | cons piece ps ih => cases piece <;> simp [keepFirst, ih]

theorem removeAll_eq (p : Pattern) (t : Text) : (removeAll p t).1 = keepFirst true (p.pieces t) := by
  rw [keepFirst_true]
  rfl

/-- Keeps the first thing that is a hit, unless one was kept before, and drops the others. -/
def keepFirstLine {α : Type} (hit : α → Bool) : (kept : Bool) → List α → List α
  | _, [] => []
  | kept, a :: more =>
    if hit a then (if kept then keepFirstLine hit true more else a :: keepFirstLine hit true more)
    else a :: keepFirstLine hit kept more

theorem keepFirstLine_true {α : Type} (hit : α → Bool) (as : List α) :
    keepFirstLine hit true as = as.filter fun a => !hit a := by
  induction as with
  | nil => rfl
  | cons a as ih => cases h : hit a <;> simp [keepFirstLine, h, ih]

theorem keepFirstLine_sublist {α : Type} (hit : α → Bool) (kept : Bool) (as : List α) :
    (keepFirstLine hit kept as).Sublist as := by
  induction as generalizing kept with
  | nil => exact .slnil
  | cons a as ih =>
      unfold keepFirstLine
      cases hit a with
      | false => exact (ih kept).cons_cons a
      | true =>
          cases kept with
          | false => exact (ih true).cons_cons a
          | true => exact (ih true).cons a

/-- Keeping the first hit twice is keeping it once. -/
theorem keepFirstLine_keepFirstLine {α : Type} (hit : α → Bool) (kept : Bool) (as : List α) :
    keepFirstLine hit kept (keepFirstLine hit false as) = keepFirstLine hit kept as := by
  induction as with
  | nil => rfl
  | cons a as ih =>
      cases h : hit a with
      | false => simp [keepFirstLine, h, ih]
      | true =>
          have hrest : keepFirstLine hit true (keepFirstLine hit true as) = keepFirstLine hit true as := by
            simp [keepFirstLine_true]
          cases kept <;> simp [keepFirstLine, h, hrest]

theorem keepFirstLine_append {α : Type} (hit : α → Bool) (kept : Bool) (as bs : List α) :
    keepFirstLine hit kept (as ++ bs) =
      keepFirstLine hit kept as ++ keepFirstLine hit (kept || as.any hit) bs := by
  induction as generalizing kept with
  | nil => simp [keepFirstLine]
  | cons a as ih => cases h : hit a <;> cases kept <;> simp [keepFirstLine, h, ih]

/-- The first hit is the same after keeping the first hit only. -/
theorem find?_keepFirstLine {α : Type} (hit : α → Bool) (as : List α) :
    (keepFirstLine hit false as).find? hit = as.find? hit := by
  induction as with
  | nil => rfl
  | cons a as ih => cases h : hit a <;> simp [keepFirstLine, h, ih]

/-- Things that are no hits are all kept. -/
theorem filter_keepFirstLine {α : Type} {hit q : α → Bool} (h : ∀ a, hit a = true → q a = false) (kept : Bool)
    (as : List α) : (keepFirstLine hit kept as).filter q = as.filter q := by
  induction as generalizing kept with
  | nil => rfl
  | cons a as ih =>
      cases hit' : hit a with
      | false => simp [keepFirstLine, hit', List.filter_cons, ih]
      | true => cases kept <;> simp [keepFirstLine, hit', ih, h a hit']

/-! ### Lines and matches -/

/-- Wherever the line stands, it is a match, together with blanks behind it up to another line end. -/
def Hits (p : Pattern) (line : Text) : Prop :=
  ∀ b r, (b = none ∨ b = some '\n') → Text.AtLineEnd r →
    ∃ w r' cap, r = w ++ r' ∧ Text.isBlank w = true ∧ Text.AtLineEnd r' ∧
      p.matchAt? b (line ++ r) = some ⟨line ++ w, cap⟩

theorem hits_of_text {p : Pattern} {line : Text}
    (h : ∀ b r, (b = none ∨ b = some '\n') → Text.AtLineEnd r → ∃ m w r', p.matchAt? b (line ++ r) = some m ∧
      m.text = line ++ w ∧ r = w ++ r' ∧ Text.isBlank w = true ∧ Text.AtLineEnd r') : Hits p line := by
  intro b r hb hr
  obtain ⟨m, w, r', hm, htext, hrest, hw, hr'⟩ := h b r hb hr
  exact ⟨w, r', m.captured, hrest, hw, hr', by rw [hm, ← htext]⟩

/-- Wherever the line stands, no match starts in it. -/
def Misses (p : Pattern) (line : Text) : Prop := ∀ r, Text.AtLineEnd r → NoneStarts p line r

variable {α : Type} {p : Pattern} {Shows : Text → α → Prop} {hit : α → Bool}

/-- The lines of a text show given things. -/
def LinesShow (Shows : Text → α → Prop) (t : Text) (as : List α) : Prop :=
  List.Forall₂ Shows (Text.nonBlank (Text.lines t)) as

/-- Pieces that treat a text line by line. -/
structure LineWise (Shows : Text → α → Prop) (hit : α → Bool) (as : List α) (ps : List Piece) : Prop where
  /-- What is kept shows what is kept of the lines. -/
  kept : ∀ kept, LinesShow Shows (keepFirst kept ps) (keepFirstLine hit kept as)
  /-- The matches are the lines that are hits, with blanks behind them. -/
  hits : List.Forall₂ (fun m a => ∃ line w, Shows line a ∧ Text.isBlank w = true ∧ m.text = line ++ w)
    (ps.filterMap Piece.match?) (as.filter hit)

/-- Without a hit there is no match. -/
theorem LineWise.allMatches_eq_nil {as : List α} {t : Text} (h : LineWise Shows hit as (p.pieces t))
    (has : as.filter hit = []) : p.allMatches t = [] := by
  have hhits := h.hits
  rw [has] at hhits
  exact List.forall₂_nil_right_iff.mp hhits

/-- The first match is the first hit. -/
theorem LineWise.first?_eq_some {as : List α} {t : Text} (h : LineWise Shows hit as (p.pieces t)) {a : α}
    (ha : as.find? hit = some a) :
    ∃ m line w, p.first? t = some m ∧ Shows line a ∧ Text.isBlank w = true ∧ m.text = line ++ w := by
  have hhits := h.hits
  rw [← List.head?_filter, List.head?_eq_some_iff] at ha
  obtain ⟨rest, hrest⟩ := ha
  rw [hrest, List.forall₂_cons_right_iff] at hhits
  obtain ⟨m, ms, ⟨line, w, hshow, hw, hm⟩, -, hms⟩ := hhits
  refine ⟨m, line, w, ?_, hshow, hw, hm⟩
  rw [first?, allMatches, hms]
  rfl

theorem linesShow_at {line r : Text} (hline : '\n' ∉ line) (hr : Text.AtLineEnd r) {as as' : List α}
    (h : List.Forall₂ Shows (Text.nonBlank [line]) as) (h' : LinesShow Shows r as') :
    LinesShow Shows (line ++ r) (as ++ as') := by
  unfold LinesShow
  rw [Text.nonBlank_lines_at hline hr]
  exact List.rel_append h h'

theorem linesShow_break {t : Text} {as : List α} :
    LinesShow Shows ('\n' :: t) as ↔ LinesShow Shows t as := by
  unfold LinesShow
  rw [show '\n' :: t = [] ++ '\n' :: t from rfl, Text.nonBlank_lines_append]
  rfl

theorem linesShow_blank {w r : Text} (hw : Text.isBlank w = true) (hr : Text.AtLineEnd r) {as : List α} :
    LinesShow Shows (w ++ r) as ↔ LinesShow Shows r as := by
  unfold LinesShow
  rw [Text.nonBlank_lines_blank hw hr]

/-- Pieces that treat a text line by line, and whose text begins at the end of a line. -/
structure LineWiseFromEnd (Shows : Text → α → Prop) (hit : α → Bool) (as : List α) (ps : List Piece) : Prop
    extends LineWise Shows hit as ps where
  /-- Whatever is kept begins at the end of a line. -/
  atEnd : ∀ kept, Text.AtLineEnd (keepFirst kept ps)

/-- A line without a match, before pieces that begin at its end. -/
theorem LineWiseFromEnd.cons_miss {line : Text} {as : List α} {ps : List Piece}
    (h : LineWiseFromEnd Shows hit as ps) (hline : '\n' ∉ line) {a : α} (hmiss : hit a = false)
    (hnb : Text.isBlank line = false) (hshow : Shows line a) :
    LineWise Shows hit (a :: as) (line.map Piece.plain ++ ps) := by
  refine ⟨?_, ?_⟩
  · intro kept
    have hkeep : keepFirstLine hit kept (a :: as) = [a] ++ keepFirstLine hit kept as := by
      simp [keepFirstLine, hmiss]
    rw [keepFirst_plain, hkeep]
    refine linesShow_at hline (h.atEnd kept) ?_ (h.kept kept)
    rw [Text.nonBlank_cons hnb]
    exact .cons hshow .nil
  · rw [List.filterMap_append, filterMap_match?_plain, List.nil_append,
      List.filter_cons_of_neg (by simp [hmiss])]
    exact h.hits

/-- A blank line before pieces that begin at its end. -/
theorem LineWiseFromEnd.cons_blank {line : Text} {as : List α} {ps : List Piece}
    (h : LineWiseFromEnd Shows hit as ps) (hblank : Text.isBlank line = true) :
    LineWise Shows hit as (line.map Piece.plain ++ ps) := by
  refine ⟨?_, ?_⟩
  · intro kept
    rw [keepFirst_plain, linesShow_blank hblank (h.atEnd kept)]
    exact h.kept kept
  · rw [List.filterMap_append, filterMap_match?_plain, List.nil_append]
    exact h.hits

/-- A line that is a match, with blanks behind it, before pieces that begin at the end of a line. -/
theorem LineWiseFromEnd.cons_hit {line w : Text} {as : List α} {ps : List Piece} {m : Match}
    (h : LineWiseFromEnd Shows hit as ps) (hline : '\n' ∉ line) {a : α} (hhit : hit a = true)
    (hnb : Text.isBlank line = false) (hshow : Shows line a) (hw : Text.isBlank w = true)
    (hend : w = [] ∨ ∃ w', w = '\n' :: w') (hm : m.text = line ++ w) :
    LineWise Shows hit (a :: as) (.hit m :: ps) := by
  refine ⟨?_, ?_⟩
  · intro kept
    cases kept with
    | true =>
        rw [keepFirst, keepFirstLine, if_pos hhit, if_pos rfl]
        exact h.kept true
    | false =>
        have hat : Text.AtLineEnd (w ++ keepFirst true ps) := by
          rcases hend with rfl | ⟨w', rfl⟩
          · exact h.atEnd true
          · exact Or.inr ⟨w' ++ keepFirst true ps, rfl⟩
        rw [keepFirst, keepFirstLine, if_pos hhit, if_neg (by simp), hm, List.append_assoc]
        have hfirst : List.Forall₂ Shows (Text.nonBlank [line]) [a] := by
          rw [Text.nonBlank_cons hnb]
          exact .cons hshow .nil
        refine linesShow_at hline hat hfirst ?_
        rw [linesShow_blank hw (h.atEnd true)]
        exact h.kept true
  · rw [List.filter_cons_of_pos hhit, List.filterMap_cons]
    exact .cons ⟨line, w, hshow, hw, hm⟩ h.hits

/-- From the end of a line on, the pieces are those of the next line behind a line feed. -/
theorem lineWise_atLineEnd (hblank : ∀ v r, Text.isBlank v = true → NoneStarts p v r) {r : Text}
    (hr : Text.AtLineEnd r) {as : List α} (h : LinesShow Shows r as)
    (ih : ∀ t, r = '\n' :: t → LinesShow Shows t as → LineWise Shows hit as (p.piecesFrom 0 (some '\n') t))
    (b : Option Char) : LineWiseFromEnd Shows hit as (p.piecesFrom 0 b r) := by
  rcases hr with rfl | ⟨t, rfl⟩
  · obtain rfl : as = [] := by
      cases h
      rfl
    exact ⟨⟨fun _ => h, .nil⟩, fun _ => Or.inl rfl⟩
  · have hpieces : p.piecesFrom 0 b ('\n' :: t) = .plain '\n' :: p.piecesFrom 0 (some '\n') t :=
      piecesFrom_plain (u := ['\n']) (hblank ['\n'] t (by decide))
    rw [hpieces]
    have hrest := ih t rfl (linesShow_break.mp h)
    exact ⟨⟨fun kept => linesShow_break.mpr (hrest.kept kept), hrest.hits⟩, fun kept => Or.inr ⟨_, rfl⟩⟩

/-- **A search whose matches cover lines treats a text line by line.** -/
theorem lineWise_pieces (hblank : ∀ v r, Text.isBlank v = true → NoneStarts p v r)
    (hshow : ∀ line a, Shows line a → if hit a then Hits p line else Misses p line)
    (t : Text) {b : Option Char} (hb : b = none ∨ b = some '\n') {as : List α}
    (h : LinesShow Shows t as) : LineWise Shows hit as (p.piecesFrom 0 b t) := by
  induction hn : t.length using Nat.strongRecOn generalizing t b as with
  | _ n ih =>
      subst hn
      obtain ⟨line, r, rfl, hline, hr⟩ := Text.exists_line t
      have hrest : ∀ {r' : Text}, Text.AtLineEnd r' → r'.length ≤ r.length → ∀ {as' : List α},
          LinesShow Shows r' as' → ∀ b', LineWiseFromEnd Shows hit as' (p.piecesFrom 0 b' r') := by
        intro r' hr' hle as' has' b'
        refine lineWise_atLineEnd hblank hr' has' (fun t ht has => ?_) b'
        refine ih t.length ?_ t (Or.inr rfl) has rfl
        rw [List.length_append]
        rw [ht, List.length_cons] at hle
        omega
      cases hnb : Text.isBlank line with
      | true =>
          rw [linesShow_blank hnb hr] at h
          rw [piecesFrom_plain (hblank line r hnb)]
          exact (hrest hr (Nat.le_refl _) h _).cons_blank hnb
      | false =>
          unfold LinesShow at h
          rw [Text.nonBlank_lines_at hline hr, Text.nonBlank_cons hnb] at h
          cases h with
          | @cons _ a _ as' hline' has' =>
              have hcase := hshow line a hline'
              cases hhit : hit a with
              | false =>
                  rw [if_neg (by simp [hhit])] at hcase
                  rw [piecesFrom_plain (hcase r hr)]
                  exact (hrest hr (Nat.le_refl _) has' _).cons_miss hline hhit hnb hline'
              | true =>
                  rw [if_pos hhit] at hcase
                  obtain ⟨w, r', cap, rfl, hw, hr', hm⟩ := hcase b r hb hr
                  have has : LinesShow Shows r' as' := (linesShow_blank hw hr').mp has'
                  have hend : w = [] ∨ ∃ w', w = '\n' :: w' := by
                    cases w with
                    | nil => exact Or.inl rfl
                    | cons c w =>
                        rcases hr with hr | ⟨t, ht⟩
                        · simp at hr
                        · exact Or.inr ⟨w, by rw [(List.cons.inj ht).1]⟩
                  have hne : line ++ w ≠ [] := by
                    intro hnil
                    rw [(List.append_eq_nil_iff.mp hnil).1] at hnb
                    simp at hnb
                  rw [← List.append_assoc] at hm ⊢
                  rw [piecesFrom_hit (m := ⟨line ++ w, cap⟩) hm hne]
                  exact (hrest hr' (by simp) has _).cons_hit hline hhit hnb hline' hw hend rfl

end SolidityKit.Source
