/-
Records that are begun and never ended.

The ends of records cut the lines of a tracefile into blocks.  Each block that is ended makes a record, and the
lines behind the last end make none: they are refused if there is no end at all, and passed over otherwise,
even if they have the keys of a record (`read_blocks`).  So the data of every line is in some record exactly if
no line with a key stands behind the last end.

All of this is about one block after the other, so that the proofs share their induction (`blocks_induction`).
-/
import SolidityKit.Coverage.Summary
import SolidityKit.Proofs.Coverage.Records

namespace SolidityKit.Coverage

/-- Whether a line ends a record. -/
def endsRecord (l : Text) : Bool := Text.trim l = "end_of_record".toList

/-- Whether a line has one of the keys of entries, with as many fields as the entry needs or with fewer. -/
def isKeyed (l : Text) : Bool := (Text.cut? ':' (Text.trim l)).any fun cut => String.ofList cut.1 ∈ Entry.keys

/-- The blocks of lines that are ended, without the lines that end them. -/
def completed (ls : List Text) : List (List Text) := (ls.splitOnP endsRecord).dropLast

/-- The lines behind the last end of a record. -/
def unfinished (ls : List Text) : List Text := (ls.splitOnP endsRecord).getLastD []

/-- The record that a block of lines tells. -/
def Record.ofLines (ls : List Text) : Record := (ls.filterMap Entry.ofLine?).foldl Record.add {}

/-- Every line with a key is followed by the end of a record. -/
def Followed (ls : List Text) : Prop :=
  ∀ before l after, ls = before ++ l :: after → isKeyed l = true → ∃ e ∈ after, endsRecord e = true

/-! ### Ends of records -/

theorem Entry.ofKeyValue?_ne_end (key : String) (value : Text) : ofKeyValue? key value ≠ some endOfRecord := by
  unfold ofKeyValue?
  split <;> simp

theorem Entry.ofLine?_of_endsRecord {l : Text} (h : endsRecord l = true) : ofLine? l = some endOfRecord := by
  simp only [endsRecord, decide_eq_true_eq] at h
  simp [ofLine?, h]

theorem Entry.ofLine?_ne_end {l : Text} (h : endsRecord l = false) : ofLine? l ≠ some endOfRecord := by
  simp only [endsRecord, decide_eq_false_iff_not] at h
  simp only [ofLine?, if_neg h, ne_eq, Option.bind_eq_some_iff, not_exists, not_and]
  exact fun cut _ => ofKeyValue?_ne_end _ cut.2

theorem isKeyed_of_endsRecord {l : Text} (h : endsRecord l = true) : isKeyed l = false := by
  simp only [endsRecord, decide_eq_true_eq] at h
  rw [isKeyed, h]
  decide

/-! ### Block by block -/

section Blocks

variable {block rest : List Text} {e : Text}

/-- What holds of lines without an end, and goes on over a block and its end, holds of all lines. -/
theorem blocks_induction {P : List Text → Prop}
    (unended : ∀ block, (∀ l ∈ block, endsRecord l = false) → P block)
    (ended : ∀ block e rest, (∀ l ∈ block, endsRecord l = false) → endsRecord e = true → P rest →
      P (block ++ e :: rest)) (ls : List Text) : P ls := by
  -- the lines are taken into the block until its end is found
  suffices h : ∀ block, (∀ l ∈ block, endsRecord l = false) → P (block ++ ls) from h [] (by simp)
  induction ls with
  | nil =>
      intro block hblock
      rw [List.append_nil]
      exact unended block hblock
  | cons l ls ih =>
      intro block hblock
      cases hl : endsRecord l with
      | true => exact ended block l ls hblock hl (ih [] (by simp))
      | false =>
          rw [List.append_cons]
          refine ih (block ++ [l]) fun x hx => ?_
          rcases List.mem_append.mp hx with hx | hx
          · exact hblock x hx
          · rwa [List.mem_singleton.mp hx]

theorem completed_unended (h : ∀ l ∈ block, endsRecord l = false) : completed block = [] := by
  rw [completed, List.splitOnP_eq_singleton h]
  rfl

theorem completed_ended (h : ∀ l ∈ block, endsRecord l = false) (he : endsRecord e = true) (rest : List Text) :
    completed (block ++ e :: rest) = block :: completed rest := by
  have hmore := List.dropLast_cons_of_ne_nil (x := block) (List.splitOnP_ne_nil endsRecord rest)
  rw [completed, List.splitOnP_append_cons_of_forall_mem h e he, hmore, completed]

theorem unfinished_unended (h : ∀ l ∈ block, endsRecord l = false) : unfinished block = block := by
  rw [unfinished, List.splitOnP_eq_singleton h]
  rfl

theorem unfinished_ended (h : ∀ l ∈ block, endsRecord l = false) (he : endsRecord e = true) (rest : List Text) :
    unfinished (block ++ e :: rest) = unfinished rest := by
  obtain ⟨first, more, hs⟩ := List.exists_cons_of_ne_nil (List.splitOnP_ne_nil endsRecord rest)
  rw [unfinished, unfinished, List.splitOnP_append_cons_of_forall_mem h e he, hs]
  rfl

/-- There is a completed block if there is an end. -/
theorem completed_eq_nil_iff (ls : List Text) : completed ls = [] ↔ ls.any endsRecord = false := by
  induction ls using blocks_induction with
  | unended block h =>
      simp only [completed_unended h, List.any_eq_false, true_iff]
      exact fun l hl => by simp [h l hl]
  | ended block e rest h he _ => simp [completed_ended h he, he]

theorem entries_unended (h : ∀ l ∈ block, endsRecord l = false) :
    Entry.endOfRecord ∉ block.filterMap Entry.ofLine? := by
  rw [List.mem_filterMap]
  rintro ⟨l, hl, hend⟩
  exact Entry.ofLine?_ne_end (h l hl) hend

/-- Entries complete no record before its end. -/
theorem recordsFrom_unended {es : List Entry} (h : Entry.endOfRecord ∉ es) (current : Record) :
    recordsFrom current es = [] := by
  induction es generalizing current with
  | nil => rfl
  | cons e es ih =>
      simp only [List.mem_cons, not_or] at h
      rw [recordsFrom, ih h.2]
      exact Ne.symm h.1

/-- The records of lines are those of the blocks that are ended. -/
theorem recordsFrom_completed (ls : List Text) :
    recordsFrom {} (ls.filterMap Entry.ofLine?) = (completed ls).map Record.ofLines := by
  induction ls using blocks_induction with
  | unended block h =>
      rw [completed_unended h, recordsFrom_unended (entries_unended h)]
      rfl
  | ended block e rest h he ih =>
      rw [List.filterMap_append, List.filterMap_cons_some (Entry.ofLine?_of_endsRecord he), List.append_cons,
        recordsFrom_append (entries_unended h), ih, completed_ended h he, List.map_cons]
      rfl

/-! ### What is dropped -/

theorem followed_unended (h : ∀ l ∈ block, endsRecord l = false) :
    Followed block ↔ ∀ l ∈ block, isKeyed l = false := by
  constructor
  · intro hfollowed l hl
    obtain ⟨before, after, rfl⟩ := List.append_of_mem hl
    by_contra hkey
    obtain ⟨e, he, hend⟩ := hfollowed before l after rfl (by simpa using hkey)
    simp [h e (by simp [he])] at hend
  · rintro hkeyless before l after rfl hkey
    rw [hkeyless l (by simp)] at hkey
    contradiction

/-- The lines of a block are followed by its end, so that it is the lines behind that count. -/
theorem followed_ended (he : endsRecord e = true) : Followed (block ++ e :: rest) ↔ Followed rest := by
  constructor
  · intro hfollowed before l after hrest
    exact hfollowed (block ++ e :: before) l after (by simp [hrest])
  · intro hfollowed before l after hls hkey
    have hne : l ≠ e := by
      rintro rfl
      rw [isKeyed_of_endsRecord he] at hkey
      contradiction
    obtain ⟨more, rfl, hmore⟩ | ⟨more, rfl, hmore⟩ := List.append_eq_append_iff.mp hls
    · cases more with
      | nil => exact absurd (List.cons.inj hmore).1.symm hne
      | cons x more => exact hfollowed more l after (List.cons.inj hmore).2 hkey
    · cases more with
      | nil => exact absurd (List.cons.inj hmore).1 hne
      | cons x more =>
          rw [List.cons_append, List.cons.injEq] at hmore
          exact ⟨e, by simp [hmore.2], he⟩

theorem followed_iff (ls : List Text) : Followed ls ↔ ∀ l ∈ unfinished ls, isKeyed l = false := by
  induction ls using blocks_induction with
  | unended block h => rw [followed_unended h, unfinished_unended h]
  | ended block e rest h he ih => rw [followed_ended he, ih, unfinished_ended h he]

end Blocks

/--
**Tracefiles are read up to the last end of a record.**

If some line ends a record, the text is read, and its records are those of the blocks that are ended; otherwise
it is refused.  Every line with a key is followed by the end of a record, and so belongs to a block that is
ended, exactly if there is no key behind the last end.
-/
theorem read_blocks (t : Text) :
    read t =
        (if (Text.breakLines t).any endsRecord then .ok ((completed (Text.breakLines t)).map Record.ofLines)
        else .error .noRecords) ∧
      (Followed (Text.breakLines t) ↔ ∀ l ∈ unfinished (Text.breakLines t), isKeyed l = false) := by
  refine ⟨?_, followed_iff _⟩
  have hends := completed_eq_nil_iff (Text.breakLines t)
  rw [read, records?, entriesOf, recordsFrom_completed]
  cases hblocks : completed (Text.breakLines t) with
  | nil => simp [hends.mp hblocks]
  | cons block blocks =>
      have hany : (Text.breakLines t).any endsRecord = true := by
        rw [← Bool.not_eq_false, ← hends, hblocks]
        exact List.cons_ne_nil _ _
      rw [if_pos hany]
      rfl

/-- A tracefile that breaks off within its second record. -/
def tornTracefile : Text := "SF:a\nLF:1\nend_of_record\nSF:b\nLF:9\n".toList

/-- A tracefile can break off within a record and be read all the same, without that record. -/
theorem read_tornTracefile :
    read tornTracefile = .ok [{ file := "a".toList, lines := { found := 1 } }] ∧
      ¬ Followed (Text.breakLines tornTracefile) := by
  refine ⟨by decide, fun h => ?_⟩
  have hlines : Text.breakLines tornTracefile =
      ["SF:a".toList, "LF:1".toList, "end_of_record".toList] ++ "SF:b".toList :: ["LF:9".toList] := by
    decide
  obtain ⟨e, he, hend⟩ := h _ _ _ hlines (by decide)
  rw [List.mem_singleton.mp he] at hend
  exact absurd hend (by decide)

end SolidityKit.Coverage
