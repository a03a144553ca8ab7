/-
Tracefiles one behind the other.

A line feed between two tracefiles keeps their lines apart, whatever the last line of the first one ends with
(`Text.breakLines_join`); it may add an empty line, which is no entry.  If the first one ends with the end of a
record, nothing that was begun is left over, and the next record is begun afresh (`recordsFrom_seam`).  So the
records of the whole are those of the parts (`read_joined`), and sums over all records are sums over the parts.
-/
import SolidityKit.Proofs.Coverage.UnfinishedRecords
import SolidityKit.Proofs.Results
import Mathlib

namespace SolidityKit.Coverage

/-! ### Lines at a seam -/

/-- The lines of a tracefile that are not blank, without the blanks around them. -/
def trimmedLines (t : Text) : List Text := ((Text.breakLines t).map Text.trim).filter (· ≠ [])

/-- The last line that is not blank ends a record. -/
def Ended (t : Text) : Prop := (trimmedLines t).getLast? = some "end_of_record".toList

instance (t : Text) : Decidable (Ended t) := inferInstanceAs (Decidable (_ = _))

theorem trimmedLines_join (a b : Text) : trimmedLines (a ++ '\n' :: b) = trimmedLines a ++ trimmedLines b := by
  unfold trimmedLines
  rcases Text.breakLines_join a b with h | h
  · rw [h, List.map_append, List.filter_append]
  · rw [h, List.map_append, List.filter_append, List.map_cons, List.filter_cons_of_neg (by decide)]

theorem trimmedLines_joinWith (ts : List Text) :
    trimmedLines (Text.joinWith '\n' ts) = ts.flatMap trimmedLines := by
  induction ts with
  | nil => rfl
  | cons t ts ih =>
      by_cases hts : ts = []
      · rw [hts, List.flatMap_singleton]
        rfl
      · rw [Text.joinWith_cons t hts, trimmedLines_join, ih, List.flatMap_cons]

theorem Entry.ofLine?_trim (l : Text) : ofLine? (Text.trim l) = ofLine? l := by
  rw [ofLine?, ofLine?, (Text.trimmed_trim l).trim_eq]

theorem Entry.ofLine?_blank {l : Text} (h : Text.trim l = []) : ofLine? l = none := by
  rw [ofLine?, h]
  rfl

/-- Blank lines are no entries, and neither are blanks around a line. -/
theorem entriesOf_eq (t : Text) : entriesOf t = (trimmedLines t).filterMap Entry.ofLine? := by
  unfold entriesOf trimmedLines
  induction Text.breakLines t with
  | nil => rfl
  | cons l ls ih =>
      rw [List.filterMap_cons, List.map_cons]
      by_cases hblank : Text.trim l = []
      · rw [Entry.ofLine?_blank hblank, List.filter_cons_of_neg (by simpa using hblank), ih]
      · rw [List.filter_cons_of_pos (by simpa using hblank), List.filterMap_cons, Entry.ofLine?_trim, ih]

theorem entriesOf_joinWith (ts : List Text) : entriesOf (Text.joinWith '\n' ts) = ts.flatMap entriesOf := by
  rw [entriesOf_eq, trimmedLines_joinWith, List.filterMap_flatMap]
  exact congrArg (ts.flatMap ·) (funext fun t => (entriesOf_eq t).symm)

/-! ### Records at a seam -/

theorem Ended.entriesOf_eq {t : Text} (h : Ended t) : ∃ es, entriesOf t = es ++ [Entry.endOfRecord] := by
  obtain ⟨front, hfront⟩ := List.getLast?_eq_some_iff.mp h
  refine ⟨front.filterMap Entry.ofLine?, ?_⟩
  rw [Coverage.entriesOf_eq, hfront, List.filterMap_append]
  rfl

/-- Behind the end of a record the next one is begun afresh, whatever stands before it. -/
theorem recordsFrom_seam (current : Record) (es more : List Entry) :
    recordsFrom current (es ++ [.endOfRecord] ++ more) =
      recordsFrom current (es ++ [.endOfRecord]) ++ recordsFrom {} more := by
  induction es generalizing current with
  | nil => rfl
  | cons e es ih =>
      cases e with
      | endOfRecord => exact congrArg (current :: ·) (ih {})
      | _ => exact ih _

/-- The records of a tracefile, if it has any. -/
def recordsOf (t : Text) : List Record := recordsFrom {} (entriesOf t)

theorem recordsFrom_joined {ts : List Text} (h : ∀ t ∈ ts, Ended t) :
    recordsFrom {} (ts.flatMap entriesOf) = ts.flatMap recordsOf := by
  induction ts with
  | nil => rfl
  | cons t ts ih =>
      obtain ⟨es, hes⟩ := (h t List.mem_cons_self).entriesOf_eq
      rw [List.flatMap_cons, List.flatMap_cons, hes, recordsFrom_seam,
        ih fun t ht => h t (List.mem_cons_of_mem _ ht), recordsOf, hes]

theorem recordsFrom_ne_nil (current : Record) (es : List Entry) :
    recordsFrom current (es ++ [.endOfRecord]) ≠ [] := by
  induction es generalizing current with
  | nil => simp [recordsFrom]
  | cons e es ih =>
      cases e with
      | endOfRecord => exact List.cons_ne_nil _ _
      | _ => exact ih _

theorem read_eq {t : Text} (h : recordsOf t ≠ []) : read t = .ok (recordsOf t) := by
  unfold read records?
  unfold recordsOf at h ⊢
  cases hrs : recordsFrom {} (entriesOf t) with
  | nil => exact absurd hrs h
  | cons r rs => rfl

theorem Ended.recordsOf_ne_nil {t : Text} (h : Ended t) : recordsOf t ≠ [] := by
  obtain ⟨es, hes⟩ := h.entriesOf_eq
  rw [recordsOf, hes]
  exact recordsFrom_ne_nil {} es

theorem Ended.read_eq {t : Text} (h : Ended t) : read t = .ok (recordsOf t) :=
  Coverage.read_eq h.recordsOf_ne_nil

theorem read_joinWith {ts : List Text} (hne : ts ≠ []) (h : ∀ t ∈ ts, Ended t) :
    read (Text.joinWith '\n' ts) = .ok (ts.map recordsOf).flatten := by
  have hrecords : recordsOf (Text.joinWith '\n' ts) = (ts.map recordsOf).flatten := by
    rw [recordsOf, entriesOf_joinWith, recordsFrom_joined h, List.flatMap_def]
  rw [← hrecords]
  refine Coverage.read_eq ?_
  obtain ⟨t, ht⟩ := List.exists_mem_of_ne_nil ts hne
  rw [hrecords, Ne, List.flatten_eq_nil_iff]
  exact fun hnil => (h t ht).recordsOf_ne_nil (hnil _ (List.mem_map_of_mem ht))

/-! ### Sums -/

/-- What a summary counts. -/
inductive Category where
  | lines
  | functions
  | branches
  | statements

namespace Category

/-- What a record has of a category, and how much of it was reached. -/
def counts : Category → Record → Int × Int
  | lines, r => (r.lines.found, r.lines.hit)
  | functions, r => (r.functions.found, r.functions.hit)
  | branches, r => (r.branches.found, r.branches.hit)
  | statements, r => (r.branches.found, r.branches.hit)

/-- The tally of a category. -/
def tally : Category → Summary → Tally
  | lines, s => s.lines
  | functions, s => s.functions
  | branches, s => s.branches
  | statements, s => s.statements

/-- How much there is of a category in records. -/
def total (c : Category) (rs : List Record) : Int := (rs.map fun r => (c.counts r).1).sum

/-- How much of a category was reached in records. -/
def covered (c : Category) (rs : List Record) : Int := (rs.map fun r => (c.counts r).2).sum

variable (c : Category)

theorem total_flatten (rss : List (List Record)) : c.total rss.flatten = (rss.map c.total).sum := by
  unfold total
  rw [List.map_flatten, List.sum_flatten, List.map_map]
  rfl

theorem covered_flatten (rss : List (List Record)) : c.covered rss.flatten = (rss.map c.covered).sum := by
  unfold covered
  rw [List.map_flatten, List.sum_flatten, List.map_map]
  rfl

end Category

theorem sum_eq (ns : List Int) : sum ns = ns.sum := rfl

theorem tally_eq_ok {found hit : List Int} {t : Tally} (h : tally found hit = .ok t) :
    t.total = found.sum ∧ t.covered = hit.sum := by
  obtain ⟨p, -, h⟩ := bind_eq_ok_iff.mp h
  cases h
  exact ⟨rfl, rfl⟩

/-- A tally depends on the sums alone. -/
theorem tally_congr {found hit found' hit' : List Int} (hfound : found.sum = found'.sum)
    (hhit : hit.sum = hit'.sum) :
    tally found hit = tally found' hit' := by
  unfold tally
  rw [sum_eq, sum_eq, sum_eq, sum_eq, hfound, hhit]

theorem summarize_tally {rs : List Record} {s : Summary} (h : summarize rs = .ok s) (c : Category) :
    (c.tally s).total = c.total rs ∧ (c.tally s).covered = c.covered rs := by
  obtain ⟨lines, hlines, h⟩ := bind_eq_ok_iff.mp h
  obtain ⟨functions, hfunctions, h⟩ := bind_eq_ok_iff.mp h
  obtain ⟨branches, hbranches, h⟩ := bind_eq_ok_iff.mp h
  cases h
  cases c with
  | lines => exact tally_eq_ok hlines
  | functions => exact tally_eq_ok hfunctions
  | branches => exact tally_eq_ok hbranches
  | statements => exact tally_eq_ok hbranches

/-- A summary depends on the sums of the categories alone, faults included. -/
theorem summarize_congr {rs rs' : List Record}
    (h : ∀ c : Category, c.total rs = c.total rs' ∧ c.covered rs = c.covered rs') :
    summarize rs = summarize rs' := by
  have hlines : tally (rs.map (·.lines.found)) (rs.map (·.lines.hit)) =
      tally (rs'.map (·.lines.found)) (rs'.map (·.lines.hit)) := tally_congr (h .lines).1 (h .lines).2
  have hfunctions : tally (rs.map (·.functions.found)) (rs.map (·.functions.hit)) =
      tally (rs'.map (·.functions.found)) (rs'.map (·.functions.hit)) :=
    tally_congr (h .functions).1 (h .functions).2
  have hbranches : tally (rs.map (·.branches.found)) (rs.map (·.branches.hit)) =
      tally (rs'.map (·.branches.found)) (rs'.map (·.branches.hit)) :=
    tally_congr (h .branches).1 (h .branches).2
  unfold summarize
  rw [hlines, hfunctions, hbranches]

theorem sum_tallies {rss : List (List Record)} {ss : List Summary}
    (h : List.Forall₂ (fun rs s => summarize rs = .ok s) rss ss) (c : Category) :
    (rss.map c.total).sum = (ss.map fun s => (c.tally s).total).sum ∧
      (rss.map c.covered).sum = (ss.map fun s => (c.tally s).covered).sum := by
  induction h with
  | nil => exact ⟨rfl, rfl⟩
  | cons hs _ ih =>
      obtain ⟨htotal, hcovered⟩ := summarize_tally hs c
      simp only [List.map_cons, List.sum_cons, ih.1, ih.2, htotal, hcovered, and_self]

theorem summarize_perm {rs rs' : List Record} (h : rs.Perm rs') : summarize rs = summarize rs' :=
  summarize_congr fun _ => ⟨(h.map _).sum_eq, (h.map _).sum_eq⟩

/--
**Tracefiles can be put one behind the other.**

If each of them ends with the end of a record, the whole is read as the records of all of them in order.  So
what a summary of the whole counts is the sum of what it counts in the parts, and the order of the parts does
not matter, not even for the fault if there is no summary.  Statements are counted as branches.
-/
theorem read_joined {ts : List Text} (hne : ts ≠ []) (hended : ∀ t ∈ ts, Ended t) :
    ∃ rss, List.Forall₂ (fun t rs => read t = .ok rs) ts rss ∧ read (Text.joinWith '\n' ts) = .ok rss.flatten ∧
      (∀ s, summarize rss.flatten = .ok s →
        (∀ c : Category, (c.tally s).total = (rss.map c.total).sum ∧
          (c.tally s).covered = (rss.map c.covered).sum) ∧
        (∀ ss, List.Forall₂ (fun rs s => summarize rs = .ok s) rss ss → ∀ c : Category,
          (c.tally s).total = (ss.map fun s => (c.tally s).total).sum ∧
            (c.tally s).covered = (ss.map fun s => (c.tally s).covered).sum) ∧
        Category.statements.tally s = Category.branches.tally s) ∧
      ∀ ts', ts'.Perm ts → ∃ rs, read (Text.joinWith '\n' ts') = .ok rs ∧
        summarize rs = summarize rss.flatten := by
  refine ⟨ts.map recordsOf, ?_, read_joinWith hne hended, ?_, ?_⟩
  · rw [List.forall₂_map_right_iff]
    exact List.forall₂_same.mpr fun t ht => (hended t ht).read_eq
  · intro s hs
    have hcounts (c : Category) : (c.tally s).total = ((ts.map recordsOf).map c.total).sum ∧
        (c.tally s).covered = ((ts.map recordsOf).map c.covered).sum := by
      rw [← c.total_flatten, ← c.covered_flatten]
      exact summarize_tally hs c
    refine ⟨hcounts, fun ss hss c => ?_, rfl⟩
    rw [← (sum_tallies hss c).1, ← (sum_tallies hss c).2]
    exact hcounts c
  · intro ts' hperm
    have hne' : ts' ≠ [] := fun h => hne (by rw [h] at hperm; exact hperm.symm.eq_nil)
    refine ⟨_, read_joinWith hne' fun t ht => hended t (hperm.mem_iff.mp ht), ?_⟩
    exact summarize_perm (hperm.map recordsOf).flatten

/-- Two parts, the first with a carriage return at its end and the second with a blank line behind it. -/
def twoParts : List Text :=
  ["SF:a\nLF:3\nLH:1\nend_of_record\r".toList, "SF:b\nLF:4\nLH:4\nend_of_record\n \n".toList]

/-- The records of the two parts. -/
def twoRecords : List Record :=
  [{ file := "a".toList, lines := { found := 3, hit := 1 } },
    { file := "b".toList, lines := { found := 4, hit := 4 } }]

theorem read_joined_twoParts :
    (twoParts ≠ [] ∧ ∀ t ∈ twoParts, Ended t) ∧
      read (Text.joinWith '\n' twoParts) = .ok twoRecords ∧
      ∃ s, summarize twoRecords = .ok s ∧ s.lines.total = 3 + 4 ∧ s.lines.covered = 1 + 4 := by
  have hne : twoParts ≠ [] := by decide
  have hended : ∀ t ∈ twoParts, Ended t := by decide
  obtain ⟨rss, hparts, hwhole, hsummary, -⟩ := read_joined hne hended
  have hfirst : read twoParts[0] = .ok [twoRecords[0]] := by decide
  have hsecond : read twoParts[1] = .ok [twoRecords[1]] := by decide
  obtain _ | ⟨hfirst', _ | ⟨hsecond', ⟨⟩⟩⟩ := hparts
  cases hfirst'.symm.trans hfirst
  cases hsecond'.symm.trans hsecond
  have hok : (summarize twoRecords).isOk = true := by decide +kernel
  cases hs : summarize twoRecords with
  | error f =>
      rw [hs] at hok
      cases hok
  | ok s => exact ⟨⟨hne, hended⟩, hwhole, s, rfl, (hsummary s hs).1 .lines⟩

end SolidityKit.Coverage
