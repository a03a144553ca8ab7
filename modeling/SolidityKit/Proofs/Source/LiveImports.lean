/-
Live imports of a text.

An import statement counts for the compiler only if it is no comment: it must lie outside all block
comments, and no two slashes may stand before it on its line.  Statements and comments are looked for by
two searches that know nothing of each other, so whether a statement is live is a matter of where the
matches of both stand in the text.

A text may be cut wherever neither search has a match across the cut, if no slashes before the cut matter
behind it; each half then has the live imports it has on its own (`liveImports_append`).  Blanks at the ends do
not matter (`liveImports_trim`).
-/
import SolidityKit.Proofs.Pattern.Spans
import SolidityKit.Proofs.Text.Lines
import SolidityKit.Proofs.Source.BlockComments
import SolidityKit.Proofs.Source.OpenImports
import Mathlib.Data.List.DropRight

namespace SolidityKit.Source

open Pattern Shape

/-! ### Live imports -/

/-- Whether a stretch of the text, given by its two ends, lies outside all block comments. -/
def outsideComments (t : Text) (start stop : Nat) : Bool :=
  (blockComment.spans t).all fun comment => decide (stop ≤ comment.1) || decide (comment.2.1 ≤ start)

/-- Whether a character is none of those that end a line. -/
def withinLine (c : Char) : Bool := c != '\n' && c != '\r'

/-- Whether two slashes stand before the place on its line. -/
def behindSlashes (t : Text) (start : Nat) : Bool :=
  Text.containsText "//".toList ((t.take start).rtakeWhile withinLine)

/-- The path that an import statement gives, if the path is external and the statement is live. -/
def livePath? (t : Text) (statement : Nat × Nat × Match) : Option Text :=
  if outsideComments t statement.1 statement.2.1 && !behindSlashes t statement.1 then
    statement.2.2.captured.filter (!Text.isRelativeTarget ·)
  else none

/-- The external paths that live import statements give, in order. -/
def liveImports (t : Text) : List Text := (importStatement.spans t).filterMap (livePath? t)

/-! ### Cutting a text -/

section Cut

variable {u v t : Text} {start stop : Nat}

/-- Neither an import statement nor a block comment reaches across the cut. -/
structure CutsAt (u v : Text) : Prop where
  /-- Import statements. -/
  imports : NoneCrosses importStatement u v
  /-- Block comments. -/
  comments : NoneCrosses blockComment u v

theorem CutsAt.outsideComments_left (h : CutsAt u v) (hstop : stop ≤ u.length) :
    outsideComments (u ++ v) start stop = outsideComments u start stop := by
  have hright : ((blockComment.spans v).map (shift u.length)).all
      (fun comment => decide (stop ≤ comment.1) || decide (comment.2.1 ≤ start)) = true := by
    rw [List.all_eq_true]
    intro comment hcomment
    obtain ⟨comment, -, rfl⟩ := List.mem_map.mp hcomment
    have hle : stop ≤ (shift u.length comment).1 := Nat.le_trans hstop (Nat.le_add_right _ _)
    simp [hle]
  rw [outsideComments, spans_append blockComment_before h.comments, List.all_append, hright, Bool.and_true,
    outsideComments]

theorem CutsAt.outsideComments_right (h : CutsAt u v) :
    outsideComments (u ++ v) (u.length + start) (u.length + stop) = outsideComments v start stop := by
  have hleft : (blockComment.spans u).all (fun comment =>
      decide (u.length + stop ≤ comment.1) || decide (comment.2.1 ≤ u.length + start)) = true := by
    rw [List.all_eq_true]
    intro comment hcomment
    have hle : comment.2.1 ≤ u.length + start := Nat.le_trans (spans_bounds hcomment).2 (Nat.le_add_right _ _)
    simp [hle]
  rw [outsideComments, spans_append blockComment_before h.comments, List.all_append, hleft, Bool.true_and,
    List.all_map, outsideComments]
  congr 1
  funext comment
  simp [shift]

theorem behindSlashes_left (hstart : start ≤ u.length) :
    behindSlashes (u ++ v) start = behindSlashes u start := by
  rw [behindSlashes, behindSlashes, List.take_append_of_le_length hstart]

/-- **A text that is cut has the live imports of its halves**, if no slashes before the cut matter behind it. -/
theorem liveImports_append (h : CutsAt u v) (hslashes : ∀ statement ∈ importStatement.spans v,
      behindSlashes (u ++ v) (u.length + statement.1) = behindSlashes v statement.1) :
    liveImports (u ++ v) = liveImports u ++ liveImports v := by
  rw [liveImports, spans_append importStatement_before h.imports, List.filterMap_append, List.filterMap_map]
  congr 1
  · refine List.filterMap_congr fun statement hstatement => ?_
    obtain ⟨hle, hlength⟩ := spans_bounds hstatement
    rw [livePath?, livePath?, h.outsideComments_left hlength, behindSlashes_left (Nat.le_trans hle hlength)]
  · refine List.filterMap_congr fun statement hstatement => ?_
    have hcomments : outsideComments (u ++ v) (u.length + statement.1) (u.length + statement.2.1) =
        outsideComments v statement.1 statement.2.1 := h.outsideComments_right
    simp only [Function.comp_apply, livePath?, shift, hcomments, hslashes statement hstatement]

/-! ### Blanks and line feeds -/

/-- The words that begin an import or a comment begin with no blank. -/
theorem noneStarts_blank_both (hu : Text.isBlank u = true) (v : Text) :
    NoneStarts importStatement u v ∧ NoneStarts blockComment u v := by
  have himport : OpensWith importStatement ('i' :: "mport".toList) := opensWith_importStatement
  have hcomment : OpensWith blockComment ('/' :: ['*']) := opensWith_blockComment
  exact ⟨noneStarts_blank himport (by decide) hu v, noneStarts_blank hcomment (by decide) hu v⟩

theorem liveImports_of_isBlank (hu : Text.isBlank u = true) : liveImports u = [] := by
  rw [liveImports, spans_of_noneStarts (noneStarts_blank_both hu []).1, List.filterMap_nil]

/-- A text may be cut behind blanks. -/
theorem cutsAt_blank_left (hu : Text.isBlank u = true) (v : Text) : CutsAt u v := by
  have hnone : ∀ {p : Pattern}, NoneStarts p u v → NoneStarts p u [] → NoneCrosses p u v := by
    intro p hv hnil s hs hsuf b
    have hends := hnil s hs hsuf b
    rw [List.append_nil] at hends
    rw [hv s hs hsuf b, hends]
  obtain ⟨himport, hcomment⟩ := noneStarts_blank_both hu v
  obtain ⟨himport', hcomment'⟩ := noneStarts_blank_both hu []
  exact ⟨hnone himport himport', hnone hcomment hcomment'⟩

/-- A text may be cut before blanks: an import and a block comment end in another character. -/
theorem cutsAt_blank_right (u : Text) (hv : Text.isBlank v = true) : CutsAt u v := by
  refine ⟨noneCrosses_importStatement hv, fun s _ _ b => Option.ext fun m => ?_⟩
  rw [matchAt?_blockComment, matchAt?_blockComment]
  refine and_congr_right fun hblock => and_congr_right fun _ => ?_
  obtain ⟨x', hx'⟩ := hblock.last
  rw [hx']
  exact Text.prefix_append_blank (by decide) hv

/-- The end of a text within which all characters are accepted, for a text in two halves. -/
theorem rtakeWhile_append (p : Char → Bool) (u v : Text) :
    (u ++ v).rtakeWhile p = (if v.all p then u.rtakeWhile p else []) ++ v.rtakeWhile p := by
  induction v using List.reverseRecOn with
  | nil => simp
  | append_singleton v c ih =>
      rw [← List.append_assoc, List.rtakeWhile_concat, List.rtakeWhile_concat, ih]
      by_cases hc : p c = true
      · simp [hc]
      · simp [hc]

/-- Behind a line feed, slashes do not matter. -/
theorem behindSlashes_break (u v : Text) (start : Nat) :
    behindSlashes (u ++ ['\n'] ++ v) ((u ++ ['\n']).length + start) = behindSlashes v start := by
  have hnone : (u ++ ['\n']).rtakeWhile withinLine = [] := List.rtakeWhile_concat_neg _ _ _ (by decide)
  rw [behindSlashes, behindSlashes, List.take_length_add_append, rtakeWhile_append, hnone, ite_self,
    List.nil_append]

/-- Blanks before a text hold no slashes. -/
theorem behindSlashes_blank (hu : Text.isBlank u = true) (v : Text) (start : Nat) :
    behindSlashes (u ++ v) (u.length + start) = behindSlashes v start := by
  have hblank : ∀ w x : Text, (∀ c ∈ w, isBlank c = true) →
      Text.containsText "//".toList (w ++ x) = Text.containsText "//".toList x := by
    intro w x hw
    induction w with
    | nil => rfl
    | cons c w ih =>
        have hc : '/' ≠ c := by
          rintro rfl
          exact absurd (hw '/' (by simp)) (by decide)
        rw [← ih fun d hd => hw d (by simp [hd]), Bool.eq_iff_iff, Text.containsText_iff, Text.containsText_iff,
          List.cons_append, List.infix_cons_iff]
        exact or_iff_right fun hpre => hc (List.cons_prefix_cons.mp hpre).1
  rw [behindSlashes, behindSlashes, List.take_length_add_append, rtakeWhile_append]
  refine hblank _ _ fun c hc => Text.isBlank_iff.mp hu c ?_
  split at hc
  · exact (List.rtakeWhile_suffix _ _).mem hc
  · simp at hc

theorem liveImports_append_blank (u : Text) (hv : Text.isBlank v = true) :
    liveImports (u ++ v) = liveImports u := by
  have hnone : importStatement.spans v = [] := spans_of_noneStarts (noneStarts_blank_both hv []).1
  rw [liveImports_append (cutsAt_blank_right u hv) (by simp [hnone]), liveImports_of_isBlank hv,
    List.append_nil]

/-- **Blanks around a text do not change its live imports.** -/
theorem liveImports_trim (t : Text) : liveImports (Text.trim t) = liveImports t := by
  obtain ⟨u, v, ht, hu, hv⟩ := Text.trim_split t
  conv_rhs => rw [ht]
  rw [liveImports_append_blank _ hv,
    liveImports_append (cutsAt_blank_left hu _) fun statement _ => behindSlashes_blank hu _ statement.1,
    liveImports_of_isBlank hu, List.nil_append]

end Cut

end SolidityKit.Source
