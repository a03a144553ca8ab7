/-
Reading back the records of a tracefile.

A record can be told in many orders: entries of different keys do not get in each other's way, except that a
function has to be there before its hits can be counted (`add_comm`).  `Rearranges` allows just that, and
entries that are rearranged lead to the same record (`Rearranges.foldl_eq`): whatever comes first in one list
can be moved to the front of the other.  So it is enough to follow the entries in the order of
`Record.entries`, where each function is told once and each count finds its own function, since no two have the
same name (`foldl_body`).

Together with the lines of entries this is `records?_padded`; what the library prints itself is the case
`records?_print`.
-/
import SolidityKit.Proofs.Coverage.EntryLines
import Mathlib.Data.List.Forall2

namespace SolidityKit.Coverage

/-! ### Counting the hits of functions -/

/-- A function that has not been counted yet. -/
def FunctionDetail.uncounted (d : FunctionDetail) : FunctionDetail := { d with hit := 0 }

theorem setHit_append {name : Text} {before : List FunctionDetail} (h : name ∉ before.map (·.name)) (hit : Int)
    (ds : List FunctionDetail) : setHit name hit (before ++ ds) = before ++ setHit name hit ds := by
  induction before with
  | nil => rfl
  | cons d before ih =>
      simp only [List.map_cons, List.mem_cons, not_or] at h
      rw [List.cons_append, setHit, if_neg (Ne.symm h.1), ih h.2]
      rfl

/-- Each count finds its own function. -/
theorem foldl_setHit (before ds : List FunctionDetail) (h : ((before ++ ds).map (·.name)).Nodup) :
    ds.foldl (fun acc d => setHit d.name d.hit acc) (before ++ ds.map .uncounted) = before ++ ds := by
  induction ds generalizing before with
  | nil => rfl
  | cons d ds ih =>
      have hbefore : d.name ∉ before.map (·.name) := by
        rw [List.map_append, List.nodup_append] at h
        exact fun hmem => h.2.2 _ hmem _ (by simp) rfl
      have hhead : setHit d.name d.hit ((d :: ds).map .uncounted) = d :: ds.map .uncounted := by
        simp [setHit, FunctionDetail.uncounted]
      rw [List.foldl_cons, setHit_append hbefore, hhead, List.append_cons,
        ih (before ++ [d]) (by simpa using h)]
      simp

namespace Record

/-! ### The entries of a record, in order -/

/-- The entries of a record up to its end. -/
def body (r : Record) : List Entry :=
  [Entry.title r.title, Entry.file r.file]
    ++ r.functions.details.map (fun d => Entry.function d.line d.name)
    ++ r.functions.details.map (fun d => Entry.functionHit d.hit d.name)
    ++ [Entry.functionsFound r.functions.found, Entry.functionsHit r.functions.hit]
    ++ r.lines.details.map Entry.line
    ++ [Entry.linesFound r.lines.found, Entry.linesHit r.lines.hit]
    ++ r.branches.details.map Entry.branch
    ++ [Entry.branchesFound r.branches.found, Entry.branchesHit r.branches.hit]

theorem entries_eq (r : Record) : r.entries = r.body ++ [Entry.endOfRecord] := by simp [entries, body]

theorem foldl_functions (ds : List FunctionDetail) (r : Record) :
    (ds.map fun d => Entry.function d.line d.name).foldl add r =
      { r with functions := { r.functions with details := r.functions.details ++ ds.map .uncounted } } := by
  induction ds generalizing r with
  | nil => simp
  | cons d ds ih =>
      rw [List.map_cons, List.foldl_cons, ih]
      simp [add, FunctionDetail.uncounted]

theorem foldl_functionHits (ds : List FunctionDetail) (r : Record) :
    (ds.map fun d => Entry.functionHit d.hit d.name).foldl add r =
      { r with functions := { r.functions with
        details := ds.foldl (fun acc d => setHit d.name d.hit acc) r.functions.details } } := by
  induction ds generalizing r with
  | nil => rfl
  | cons d ds ih =>
      rw [List.map_cons, List.foldl_cons, ih]
      rfl

theorem foldl_lines (ds : List LineDetail) (r : Record) :
    (ds.map Entry.line).foldl add r =
      { r with lines := { r.lines with details := r.lines.details ++ ds } } := by
  induction ds generalizing r with
  | nil => simp
  | cons d ds ih =>
      rw [List.map_cons, List.foldl_cons, ih]
      simp [add]

theorem foldl_branches (ds : List BranchDetail) (r : Record) :
    (ds.map Entry.branch).foldl add r =
      { r with branches := { r.branches with details := r.branches.details ++ ds } } := by
  induction ds generalizing r with
  | nil => simp
  | cons d ds ih =>
      rw [List.map_cons, List.foldl_cons, ih]
      simp [add]

/-- A record whose entries can be printed, and whose functions have different names. -/
structure Printable (r : Record) : Prop where
  /-- Names are names, and numbers can be written. -/
  entries : ∀ e ∈ r.entries, e.Printable
  /-- No two functions have the same name. -/
  distinct : (r.functions.details.map (·.name)).Nodup

/-- The entries of a record, in order, lead to the record. -/
theorem foldl_body {r : Record} (h : (r.functions.details.map (·.name)).Nodup) : r.body.foldl add {} = r := by
  have hcounted := foldl_setHit [] r.functions.details h
  rw [List.nil_append, List.nil_append] at hcounted
  unfold body
  simp only [List.foldl_append, List.foldl_cons, List.foldl_nil, foldl_functions, foldl_functionHits,
    foldl_lines, foldl_branches]
  simp [add, hcounted]

end Record

/-! ### Other orders -/

/-- The second is the entry of a function, and the first counts the hits of one. -/
def Entry.Ahead (a b : Entry) : Prop := a.key = "FNDA" ∧ b.key = "FN"

instance (a b : Entry) : Decidable (a.Ahead b) := inferInstanceAs (Decidable (_ ∧ _))

/-- Entries of different keys can change places, except for a function and a count. -/
theorem Record.add_comm (r : Record) {a b : Entry} (hkey : a.key ≠ b.key) (hab : ¬ a.Ahead b)
    (hba : ¬ b.Ahead a) :
    (r.add a).add b = (r.add b).add a := by
  cases a <;> cases b <;>
    first | rfl | exact absurd rfl hkey | exact absurd ⟨rfl, rfl⟩ hab | exact absurd ⟨rfl, rfl⟩ hba

/-- The same entries up to the end of a record, in another order of keys. -/
structure Rearranges (es told : List Entry) : Prop where
  /-- The entries of each key are the same, in the same order. -/
  same : ∀ key ∈ Entry.keys, es.filter (·.key = key) = told.filter (·.key = key)
  /-- All functions stand before the first count. -/
  functionsFirst : es.Pairwise fun a b => ¬ a.Ahead b
  /-- The record does not end before. -/
  unfinished : Entry.endOfRecord ∉ es

section Order

/-- What can change places with all that stands before it can be moved to the front. -/
theorem foldl_moveFront {σ : Type} {f : σ → Entry → σ} {e : Entry} {before : List Entry}
    (h : ∀ x ∈ before, ∀ s, f (f s x) e = f (f s e) x) (after : List Entry) (s : σ) :
    (before ++ e :: after).foldl f s = (before ++ after).foldl f (f s e) := by
  induction before generalizing s with
  | nil => rfl
  | cons x before ih =>
      rw [List.cons_append, List.foldl_cons, ih fun y hy => h y (List.mem_cons_of_mem x hy),
        h x List.mem_cons_self, List.cons_append, List.foldl_cons]

theorem filter_key_cons (e : Entry) (es : List Entry) (key : String) : (e :: es).filter (·.key = key) =
    if e.key = key then e :: es.filter (·.key = key) else es.filter (·.key = key) := by
  by_cases h : e.key = key <;> simp [h]

variable {es told : List Entry} {e : Entry}

theorem Rearranges.subset (h : Rearranges es told) : es ⊆ told := by
  intro x hx
  have hne : x ≠ .endOfRecord := fun heq => h.unfinished (heq ▸ hx)
  have hmem : x ∈ es.filter (·.key = x.key) := List.mem_filter.mpr ⟨hx, by simp⟩
  rw [h.same x.key (Entry.key_mem_keys hne)] at hmem
  exact (List.mem_filter.mp hmem).1

/-- The first of the entries told stands behind entries of other keys only. -/
theorem Rearranges.split (h : Rearranges es (e :: told)) (he : e ≠ .endOfRecord) :
    ∃ before after, es = before ++ e :: after ∧ (∀ x ∈ before, x.key ≠ e.key) ∧
      Rearranges (before ++ after) told := by
  have hown := h.same e.key (Entry.key_mem_keys he)
  rw [filter_key_cons, if_pos rfl] at hown
  obtain ⟨before, after, rfl, hbefore, -, hafter⟩ := List.filter_eq_cons_iff.mp hown
  have hother : ∀ x ∈ before, x.key ≠ e.key := fun x hx => by simpa using hbefore x hx
  refine ⟨before, after, rfl, hother, fun key hkey => ?_, ?_, ?_⟩
  · have hsame := h.same key hkey
    rw [List.filter_append, filter_key_cons, filter_key_cons] at hsame
    rw [List.filter_append]
    by_cases hk : e.key = key
    · have hnone : before.filter (·.key = key) = [] := by
        rw [List.filter_eq_nil_iff]
        intro x hx
        simpa [← hk] using hother x hx
      rw [if_pos hk, if_pos hk, hnone] at hsame
      rw [hnone]
      exact (List.cons.inj hsame).2
    · rwa [if_neg hk, if_neg hk] at hsame
  · exact h.functionsFirst.sublist (List.Sublist.append_left (List.sublist_cons_self e after) before)
  · exact fun hmem => h.unfinished
      ((List.Sublist.append_left (List.sublist_cons_self e after) before).subset hmem)

/-- **Entries that are rearranged lead to the same record.** -/
theorem Rearranges.foldl_eq (h : Rearranges es told) (hfirst : told.Pairwise fun a b => ¬ a.Ahead b)
    (hend : Entry.endOfRecord ∉ told) (r : Record) : es.foldl Record.add r = told.foldl Record.add r := by
  induction told generalizing es r with
  | nil => rw [List.subset_nil.mp h.subset]
  | cons e told ih =>
      obtain ⟨hlater, hfirst⟩ := List.pairwise_cons.mp hfirst
      simp only [List.mem_cons, not_or] at hend
      obtain ⟨before, after, rfl, hkeys, hrest⟩ := h.split (Ne.symm hend.1)
      have hcomm : ∀ x ∈ before, ∀ s : Record, (s.add x).add e = (s.add e).add x := by
        intro x hx s
        refine s.add_comm (hkeys x hx) ?_ ?_
        · exact (List.pairwise_append.mp h.functionsFirst).2.2 x hx e List.mem_cons_self
        · -- what stands before in the one list comes later in the other
          exact hlater x (hrest.subset (List.mem_append_left after hx))
      rw [foldl_moveFront hcomm, List.foldl_cons]
      exact ih hrest hfirst hend.2 (r.add e)

end Order

/-! ### Whole tracefiles -/

/-- Entries that tell a record, up to its end. -/
def Tells (r : Record) (es : List Entry) : Prop := Rearranges es r.body

theorem functionsFirst_append {front back : List Entry} (hfront : ∀ e ∈ front, e.key ≠ "FNDA")
    (hback : ∀ e ∈ back, e.key ≠ "FN") : (front ++ back).Pairwise fun a b => ¬ a.Ahead b :=
  List.pairwise_append.mpr ⟨List.pairwise_of_forall_mem_list fun a ha _ _ h => hfront a ha h.1,
    List.pairwise_of_forall_mem_list fun _ _ b hb h => hback b hb h.2, fun a ha _ _ h => hfront a ha h.1⟩

namespace Record

theorem body_functionsFirst (r : Record) : r.body.Pairwise fun a b => ¬ a.Ahead b := by
  unfold body
  simp only [List.append_assoc]
  rw [← List.append_assoc]
  refine functionsFirst_append (fun e he hkey => ?_) (fun e he hkey => ?_)
  · cases e with
    | functionHit hit name => simp at he
    | _ => simp [Entry.key] at hkey
  · cases e with
    | function line name => simp at he
    | _ => simp [Entry.key] at hkey

theorem body_unfinished (r : Record) : Entry.endOfRecord ∉ r.body := by simp [body]

/-- The order of `Record.entries` is one of the orders that tell a record. -/
theorem tells_body (r : Record) : Tells r r.body := ⟨fun _ _ => rfl, r.body_functionsFirst, r.body_unfinished⟩

end Record

variable {r : Record} {es : List Entry}

theorem Tells.foldl_eq (h : Tells r es) (hr : r.Printable) : es.foldl Record.add {} = r :=
  (Rearranges.foldl_eq h r.body_functionsFirst r.body_unfinished {}).trans (Record.foldl_body hr.distinct)

theorem Tells.printable (h : Tells r es) (hr : r.Printable) : ∀ e ∈ es ++ [.endOfRecord], e.Printable := by
  intro e he
  by_cases hend : e = .endOfRecord
  · rw [hend]
    trivial
  · have hes : e ∈ es := by simpa [hend] using he
    refine hr.entries e ?_
    rw [Record.entries_eq]
    exact List.mem_append_left _ (Rearranges.subset h hes)

/-- The end of a record completes it, and the next one is begun afresh. -/
theorem recordsFrom_append (h : Entry.endOfRecord ∉ es) (current : Record) (more : List Entry) :
    recordsFrom current (es ++ [.endOfRecord] ++ more) = es.foldl Record.add current ::
      recordsFrom {} more := by
  induction es generalizing current with
  | nil => rfl
  | cons e es ih =>
      simp only [List.mem_cons, not_or] at h
      rw [List.cons_append, List.cons_append, recordsFrom, ih h.2]
      · rfl
      · exact Ne.symm h.1

theorem recordsFrom_told {rs : List Record} {ess : List (List Entry)} (hrs : ∀ r ∈ rs, r.Printable)
    (hess : List.Forall₂ Tells rs ess) : recordsFrom {} (ess.flatMap (· ++ [.endOfRecord])) = rs := by
  induction hess with
  | nil => rfl
  | cons htold _ ih =>
      rw [List.flatMap_cons, recordsFrom_append htold.unfinished, htold.foldl_eq (hrs _ List.mem_cons_self),
        ih fun r hr => hrs r (List.mem_cons_of_mem _ hr)]

theorem printable_told {rs : List Record} {ess : List (List Entry)} (hrs : ∀ r ∈ rs, r.Printable)
    (hess : List.Forall₂ Tells rs ess) : ∀ e ∈ ess.flatMap (· ++ [.endOfRecord]), e.Printable := by
  induction hess with
  | nil => simp
  | cons htold _ ih =>
      intro e he
      rw [List.flatMap_cons, List.mem_append] at he
      rcases he with he | he
      · exact htold.printable (hrs _ List.mem_cons_self) e he
      · exact ih (fun r hr => hrs r (List.mem_cons_of_mem _ hr)) e he

theorem records?_told {rs : List Record} (hne : rs ≠ []) (hrs : ∀ r ∈ rs, r.Printable) {ess : List (List Entry)}
    (hess : List.Forall₂ Tells rs ess) {t : Text} (ht : entriesOf t = ess.flatMap (· ++ [.endOfRecord])) :
    records? t = some rs := by
  unfold records?
  rw [ht, recordsFrom_told hrs hess]
  cases rs with
  | nil => exact absurd rfl hne
  | cons r rs => rfl

/-- Printing records and reading them again leads back to them. -/
theorem records?_print {rs : List Record} (hne : rs ≠ []) (hrs : ∀ r ∈ rs, r.Printable) :
    records? (print rs) = some rs := by
  have htold : List.Forall₂ Tells rs (rs.map Record.body) :=
    List.forall₂_map_right_iff.mpr (List.forall₂_same.mpr fun r _ => r.tells_body)
  have hentries : rs.flatMap Record.entries = (rs.map Record.body).flatMap (· ++ [.endOfRecord]) := by
    rw [List.flatMap_map]
    exact congrArg (rs.flatMap ·) (funext Record.entries_eq)
  have hprinted : Padded ((rs.map Record.body).flatMap (· ++ [.endOfRecord]))
      ((rs.flatMap Record.entries).map Entry.toLine ++ [[]]) := by
    rw [← hentries, ← List.append_nil (rs.flatMap Record.entries), List.map_append]
    refine .append ?_ (.of_idle fun l hl => ?_)
    · simpa using Padded.of_entries (rs.flatMap Record.entries)
    · rw [List.mem_singleton.mp hl]
      exact ⟨.blank rfl, by decide⟩
  unfold print
  rw [printEntries_eq]
  exact records?_told hne hrs htold (entriesOf_padded (printable_told hrs htold) hprinted)

/--
**A tracefile gives back the records that it was written for.**

The lines are those of the entries of one record after the other, each followed by the end of the record, and
idle lines may stand anywhere between them.  The entries of a record may come in any order of keys in which no
function is counted before all are told.
-/
theorem records?_padded {rs : List Record} (hne : rs ≠ []) (hrs : ∀ r ∈ rs, r.Printable)
    {ess : List (List Entry)}
    (hess : List.Forall₂ Tells rs ess) {ls : List Text} (hls : Padded (ess.flatMap (· ++ [.endOfRecord])) ls) :
    records? (Text.joinWith '\n' ls) = some rs :=
  records?_told hne hrs hess (entriesOf_padded (printable_told hrs hess) hls)

/-- The first source of the sample has functions, lines and branches, and a name with a comma and a colon. -/
def sampleRecord : Record where
  file := "src/a, b: c.sol".toList
  lines := { found := 2, hit := 1, details := [⟨3, 2⟩, ⟨9, 0⟩] }
  functions := { found := 2, hit := 1, details := [⟨"f(int,int)".toList, 3, 2⟩, ⟨[], 9, -1⟩] }
  branches := { found := 1, hit := 0, details := [⟨4, 0, 1, 0⟩] }

/-- The entries of the sample, mixed as far as they may be. -/
def sampleBody : List Entry :=
  [.line ⟨3, 2⟩, .branchesHit 0, .function 3 "f(int,int)".toList, .file "src/a, b: c.sol".toList, .linesHit 1,
    .line ⟨9, 0⟩, .function 9 [], .functionHit 2 "f(int,int)".toList, .functionsHit 1,
    .branch ⟨4, 0, 1, 0⟩, .title [], .functionHit (-1) [], .functionsFound 2, .branchesFound 1, .linesFound 2]

/-- Lines that say nothing: a blank one, one without a colon, and two whose keys are unknown, one of
them by a blank. -/
def sampleNoise : List Text := [" ".toList, "# by hand".toList, "VER:2,end_of_record".toList, "TN :x".toList]

theorem sampleRecord_printable : sampleRecord.Printable := ⟨by decide, by decide⟩

theorem tells_sampleBody : Tells sampleRecord sampleBody := ⟨by decide, by decide, by decide⟩

theorem sampleNoise_idle : ∀ l ∈ sampleNoise, Idle l ∧ Text.Unbroken l := by
  intro l hl
  simp only [sampleNoise, List.mem_cons, List.not_mem_nil, or_false] at hl
  rcases hl with rfl | rfl | rfl | rfl
  · exact ⟨.blank (by decide), by decide⟩
  · exact ⟨.plain (by decide) (by decide), by decide⟩
  · have hcut : Text.trim "VER:2,end_of_record".toList = "VER".toList ++ ':' :: "2,end_of_record".toList := by
      decide
    exact ⟨.unknown hcut (by decide) (by decide), by decide⟩
  · have hcut : Text.trim "TN :x".toList = "TN ".toList ++ ':' :: "x".toList := by decide
    exact ⟨.unknown hcut (by decide) (by decide), by decide⟩

/-- The sample, and a record with nothing but a title, with noise before, within and after them. -/
def sampleLines : List Text :=
  sampleNoise ++ ((sampleBody.take 4).map Entry.toLine ++ (sampleNoise ++
    ((sampleBody.drop 4 ++ [Entry.endOfRecord] ++
      (Record.body { title := "again".toList } ++ [Entry.endOfRecord])).map Entry.toLine ++ sampleNoise)))

theorem records?_sampleLines :
    records? (Text.joinWith '\n' sampleLines) = some [sampleRecord, { title := "again".toList }] := by
  have hnoise := Padded.of_idle sampleNoise_idle
  have hpadded := hnoise.append ((Padded.of_entries (sampleBody.take 4)).append (hnoise.append
    ((Padded.of_entries (sampleBody.drop 4 ++ [Entry.endOfRecord] ++
      (Record.body { title := "again".toList } ++ [Entry.endOfRecord]))).append hnoise)))
  rw [List.nil_append, List.nil_append, List.append_nil] at hpadded
  refine records?_padded (by simp) ?_ (.cons tells_sampleBody (.cons (Record.tells_body _) .nil)) hpadded
  intro r hr
  simp only [List.mem_cons, List.not_mem_nil, or_false] at hr
  rcases hr with rfl | rfl
  · exact sampleRecord_printable
  · exact ⟨by decide, by decide⟩

end SolidityKit.Coverage
