/-
Lines of a tracefile.

An entry has a key and a line, and reading the line gives the entry back (`ofLine?_toLine`): its numbers must
be short enough to be written, and its names must be names, which have no blanks at their ends and no line
breaks.  Names may hold colons and commas, since a line is cut at its first colon, and a name is all that
follows its comma.

A line is idle if it is passed over.  `Padded` says that some lines are those of entries with idle lines
between them; the entries of the text are then these entries (`entriesOf_padded`).
-/
import SolidityKit.Coverage.Tracefile
import SolidityKit.Proofs.Number.Numerals
import SolidityKit.Proofs.Text.Lines

namespace SolidityKit.Coverage

open Text (Unbroken)

/-- A text that a line can hold to its end: it has no line breaks, and no blanks at its ends. -/
structure Name (t : Text) : Prop where
  /-- There is nothing to trim. -/
  trimmed : Text.trim t = t
  /-- It stays in one line. -/
  unbroken : Unbroken t

instance (t : Text) : Decidable (Name t) :=
  decidable_of_iff (Text.trim t = t ∧ Unbroken t) ⟨fun h => ⟨h.1, h.2⟩, fun h => ⟨h.trimmed, h.unbroken⟩⟩

theorem Name.isTrimmed {t : Text} (h : Name t) : Text.Trimmed t := h.trimmed ▸ Text.trimmed_trim t

theorem Name.append {a b : Text} {c : Char} (ha : Name a) (hne : a ≠ []) (hc : isBlank c = false)
    (hline : Text.isLineBreak c = false) (hb : Name b) : Name (a ++ c :: b) where
  trimmed := (ha.isTrimmed.append hne hc hb.isTrimmed).trim_eq
  unbroken := ha.unbroken.append fun x hx => by
    rcases List.mem_cons.mp hx with rfl | hx
    · exact hline
    · exact hb.unbroken x hx

theorem not_isLineBreak_of_isDigit {c : Char} (h : c.isDigit = true) : Text.isLineBreak c = false := by
  have hbounds := digit_bounds h
  simp only [Text.isLineBreak, Bool.or_eq_false_iff, Bool.and_eq_false_iff, decide_eq_false_iff_not,
    beq_eq_false_iff_ne]
  omega

theorem name_text (n : Int) : Name (Numeral.text n) where
  trimmed := (Numeral.trimmed_text n).trim_eq
  unbroken c hc := by
    rcases Numeral.mem_text hc with rfl | hdigit
    · decide
    · exact not_isLineBreak_of_isDigit hdigit

namespace Entry

/-! ### Keys -/

/-- The keys that lines can have. -/
def keys : List String := ["TN", "SF", "FN", "FNDA", "FNF", "FNH", "DA", "LF", "LH", "BRDA", "BRF", "BRH"]

/-- The key of an entry; the end of a record has none, but a word of its own. -/
def key : Entry → String
  | title _ => "TN"
  | file _ => "SF"
  | function _ _ => "FN"
  | functionHit _ _ => "FNDA"
  | functionsFound _ => "FNF"
  | functionsHit _ => "FNH"
  | line _ => "DA"
  | linesFound _ => "LF"
  | linesHit _ => "LH"
  | branch _ => "BRDA"
  | branchesFound _ => "BRF"
  | branchesHit _ => "BRH"
  | endOfRecord => "end_of_record"

/-- An entry whose numbers can be written and whose names are names. -/
def Printable : Entry → Prop
  | title name => Name name
  | file path => Name path
  | function n name => Numeral.isWritable n = true ∧ Name name
  | functionHit n name => Numeral.isWritable n = true ∧ Name name
  | line d => Numeral.isWritable d.line = true ∧ Numeral.isWritable d.hit = true
  | branch d => Numeral.isWritable d.line = true ∧ Numeral.isWritable d.block = true ∧
      Numeral.isWritable d.branch = true ∧ Numeral.isWritable d.taken = true
  | functionsFound n => Numeral.isWritable n = true
  | functionsHit n => Numeral.isWritable n = true
  | linesFound n => Numeral.isWritable n = true
  | linesHit n => Numeral.isWritable n = true
  | branchesFound n => Numeral.isWritable n = true
  | branchesHit n => Numeral.isWritable n = true
  | endOfRecord => True

instance : DecidablePred Printable
  | title name => inferInstanceAs (Decidable (Name name))
  | file path => inferInstanceAs (Decidable (Name path))
  | function n name => inferInstanceAs (Decidable (Numeral.isWritable n = true ∧ Name name))
  | functionHit n name => inferInstanceAs (Decidable (Numeral.isWritable n = true ∧ Name name))
  | line d => inferInstanceAs (Decidable (Numeral.isWritable d.line = true ∧ Numeral.isWritable d.hit = true))
  | branch d =>
      inferInstanceAs (Decidable (Numeral.isWritable d.line = true ∧ Numeral.isWritable d.block = true ∧
      Numeral.isWritable d.branch = true ∧ Numeral.isWritable d.taken = true))
  | functionsFound n => inferInstanceAs (Decidable (Numeral.isWritable n = true))
  | functionsHit n => inferInstanceAs (Decidable (Numeral.isWritable n = true))
  | linesFound n => inferInstanceAs (Decidable (Numeral.isWritable n = true))
  | linesHit n => inferInstanceAs (Decidable (Numeral.isWritable n = true))
  | branchesFound n => inferInstanceAs (Decidable (Numeral.isWritable n = true))
  | branchesHit n => inferInstanceAs (Decidable (Numeral.isWritable n = true))
  | endOfRecord => inferInstanceAs (Decidable True)

/-! ### Lines with a key -/

theorem number_text {n : Int} (h : Numeral.isWritable n = true) : number (Numeral.text n) = n := by
  rw [number, Numeral.read?_text h]
  rfl

theorem comma_notMem_text (n : Int) : ',' ∉ Numeral.text n := Numeral.notMem_text (by decide) (by decide)

/-- What follows a number is put together again as it was. -/
theorem splitAt_text_name (n : Int) (t : Text) : ∃ piece pieces,
    Text.splitAt ',' (Numeral.text n ++ ',' :: t) = Numeral.text n :: piece :: pieces ∧
      Text.joinWith ',' (piece :: pieces) = t := by
  obtain ⟨piece, pieces, hs⟩ := List.exists_cons_of_ne_nil (Text.splitAt_ne_nil ',' t)
  refine ⟨piece, pieces, ?_, by rw [← hs, Text.joinWith_splitAt]⟩
  rw [Text.splitAt_append, Text.splitAt_of_notMem (comma_notMem_text n), hs]
  rfl

theorem splitAt_numbers (ns : List Int) (hne : ns ≠ []) :
    Text.splitAt ',' (Text.joinWith ',' (ns.map Numeral.text)) = ns.map Numeral.text := by
  refine Text.splitAt_joinWith (by simpa using hne) fun t ht => ?_
  obtain ⟨n, -, rfl⟩ := List.mem_map.mp ht
  exact comma_notMem_text n

/-! ### Fields -/

/-- The numbers in front of the last field of a line. -/
def leading : Entry → List Int
  | function n _ => [n]
  | functionHit n _ => [n]
  | line d => [d.line]
  | branch d => [d.line, d.block, d.branch]
  | _ => []

/-- The last field of a line. -/
def last : Entry → Text
  | title name => name
  | file path => path
  | function _ name => name
  | functionHit _ name => name
  | line d => Numeral.text d.hit
  | branch d => Numeral.text d.taken
  | functionsFound n => Numeral.text n
  | functionsHit n => Numeral.text n
  | linesFound n => Numeral.text n
  | linesHit n => Numeral.text n
  | branchesFound n => Numeral.text n
  | branchesHit n => Numeral.text n
  | endOfRecord => []

/-- The fields of a line, between commas. -/
def value (e : Entry) : Text := Text.joinWith ',' (e.leading.map Numeral.text ++ [e.last])

theorem toLine_eq {e : Entry} (h : e ≠ endOfRecord) : e.toLine = e.key.toList ++ ':' :: e.value := by
  cases e <;> first | exact absurd rfl h | rfl

theorem key_mem_keys {e : Entry} (h : e ≠ endOfRecord) : e.key ∈ keys := by
  cases e <;> first | exact absurd rfl h | simp [key, keys]

theorem name_last {e : Entry} (h : e.Printable) : Name e.last := by
  cases e with
  | title name => exact h
  | file path => exact h
  | function n name => exact h.2
  | functionHit n name => exact h.2
  | endOfRecord => exact (by decide : Name [])
  | line d => exact name_text _
  | branch d => exact name_text _
  | _ => exact name_text _

/-- Fields between commas are a name if the last one is. -/
theorem name_joinWith (ns : List Int) {t : Text} (h : Name t) :
    Name (Text.joinWith ',' (ns.map Numeral.text ++ [t])) := by
  induction ns with
  | nil => exact h
  | cons n ns ih =>
      rw [List.map_cons, List.cons_append, Text.joinWith_cons _ (by simp)]
      exact (name_text n).append (Numeral.text_ne_nil n) (by decide) (by decide) ih

theorem name_toLine {e : Entry} (h : e.Printable) : Name e.toLine := by
  by_cases hend : e = endOfRecord
  · subst hend
    decide
  · have hkeys : ∀ k ∈ keys, Name k.toList ∧ k.toList ≠ [] := by decide
    obtain ⟨hkey, hne⟩ := hkeys _ (key_mem_keys hend)
    rw [toLine_eq hend]
    exact hkey.append hne (by decide) (by decide) (name_joinWith e.leading (name_last h))

/-- The line of an entry is cut behind its key. -/
theorem ofLine?_toLine_eq {e : Entry} (h : e.Printable) (hend : e ≠ endOfRecord) :
    ofLine? e.toLine = ofKeyValue? e.key e.value := by
  have hcolon : ∀ k ∈ keys, ':' ∉ k.toList := by decide
  have hcut : Text.cut? ':' e.toLine = some (e.key.toList, e.value) := by
    rw [toLine_eq hend]
    exact Text.cut?_append (hcolon _ (key_mem_keys hend)) _
  have hword : e.toLine ≠ "end_of_record".toList := by
    intro hword
    rw [hword] at hcut
    exact absurd hcut (by simp [Text.cut?])
  unfold ofLine?
  rw [(name_toLine h).trimmed, if_neg hword, hcut]
  exact congrArg (ofKeyValue? · e.value) (String.ofList_toList)

/-- **The line of a printable entry is read as that entry.** -/
theorem ofLine?_toLine {e : Entry} (h : e.Printable) : ofLine? e.toLine = some e := by
  by_cases hend : e = endOfRecord
  · rw [hend]
    decide
  rw [ofLine?_toLine_eq h hend]
  cases e with
  | title name =>
      show some (title (Text.trim name)) = _
      rw [h.trimmed]
  | file path =>
      show some (file (Text.trim path)) = _
      rw [h.trimmed]
  | function n name =>
      obtain ⟨piece, pieces, hs, hname⟩ := splitAt_text_name n name
      show ofKeyValue? "FN" (Numeral.text n ++ ',' :: name) = _
      simp only [ofKeyValue?, hs, hname, number_text h.1, h.2.trimmed]
  | functionHit n name =>
      obtain ⟨piece, pieces, hs, hname⟩ := splitAt_text_name n name
      show ofKeyValue? "FNDA" (Numeral.text n ++ ',' :: name) = _
      simp only [ofKeyValue?, hs, hname, number_text h.1, h.2.trimmed]
  | line d =>
      have hs : Text.splitAt ',' (line d).value = [d.line, d.hit].map Numeral.text :=
        splitAt_numbers [d.line, d.hit] (by simp)
      show ofKeyValue? "DA" (line d).value = _
      simp only [ofKeyValue?, hs, List.map_cons, List.map_nil, number_text h.1, number_text h.2]
  | branch d =>
      have hs : Text.splitAt ',' (branch d).value = [d.line, d.block, d.branch, d.taken].map Numeral.text :=
        splitAt_numbers [d.line, d.block, d.branch, d.taken] (by simp)
      show ofKeyValue? "BRDA" (branch d).value = _
      simp only [ofKeyValue?, hs, List.map_cons, List.map_nil, number_text h.1, number_text h.2.1,
        number_text h.2.2.1, number_text h.2.2.2]
  | functionsFound n => exact congrArg (some ∘ functionsFound) (number_text h)
  | functionsHit n => exact congrArg (some ∘ functionsHit) (number_text h)
  | linesFound n => exact congrArg (some ∘ linesFound) (number_text h)
  | linesHit n => exact congrArg (some ∘ linesHit) (number_text h)
  | branchesFound n => exact congrArg (some ∘ branchesFound) (number_text h)
  | branchesHit n => exact congrArg (some ∘ branchesHit) (number_text h)
  | endOfRecord => exact absurd rfl hend

end Entry

/-! ### Idle lines -/

/-- A line that is passed over. -/
inductive Idle (l : Text) : Prop
  /-- It is blank. -/
  | blank (h : Text.isBlank l = true)
  /-- It has no colon and does not end a record. -/
  | plain (h : ':' ∉ l) (hend : Text.trim l ≠ "end_of_record".toList)
  /-- Blanks at its ends aside, its key is none of those that entries have. -/
  | unknown {key value : Text} (h : Text.trim l = key ++ ':' :: value) (hcolon : ':' ∉ key)
      (hkey : String.ofList key ∉ Entry.keys)

theorem Entry.ofKeyValue?_unknown {k : String} (h : k ∉ Entry.keys) (v : Text) :
    Entry.ofKeyValue? k v = none := by
  unfold Entry.ofKeyValue?
  split <;> first | rfl | exact absurd (by decide) h

theorem Idle.ofLine?_eq {l : Text} (h : Idle l) : Entry.ofLine? l = none := by
  unfold Entry.ofLine?
  cases h with
  | blank h =>
      rw [Text.trim_eq_nil_iff.mpr h]
      rfl
  | plain h hend =>
      obtain ⟨u, v, hl, -, -⟩ := Text.trim_split l
      have htrim : ':' ∉ Text.trim l := fun hmem => h (by rw [hl]; simp [hmem])
      rw [if_neg hend, Text.cut?_of_notMem htrim]
      rfl
  | unknown h hcolon hkey =>
      have hend : Text.trim l ≠ "end_of_record".toList := by
        intro hword
        have hmem : ':' ∈ Text.trim l := by simp [h]
        rw [hword] at hmem
        exact absurd hmem (by decide)
      rw [if_neg hend, h, Text.cut?_append hcolon, Option.bind_some]
      exact Entry.ofKeyValue?_unknown hkey _

/-- The lines of entries, in order, with idle lines anywhere between them. -/
inductive Padded : List Entry → List Text → Prop
  /-- There are no lines left. -/
  | nil : Padded [] []
  /-- The line of an entry. -/
  | entry (e : Entry) {es : List Entry} {ls : List Text} (rest : Padded es ls) :
      Padded (e :: es) (e.toLine :: ls)
  /-- An idle line. -/
  | idle {l : Text} {es : List Entry} {ls : List Text} (h : Idle l) (hline : Unbroken l) (rest : Padded es ls) :
      Padded es (l :: ls)

namespace Padded

variable {es es' : List Entry} {ls ls' : List Text}

theorem of_entries (es : List Entry) : Padded es (es.map Entry.toLine) := by
  induction es with
  | nil => exact .nil
  | cons e es ih => exact .entry e ih

theorem of_idle (h : ∀ l ∈ ls, Idle l ∧ Unbroken l) : Padded [] ls := by
  induction ls with
  | nil => exact .nil
  | cons l ls ih =>
      obtain ⟨hidle, hline⟩ := h l List.mem_cons_self
      exact .idle hidle hline (ih fun x hx => h x (List.mem_cons_of_mem l hx))

theorem append (h : Padded es ls) (h' : Padded es' ls') : Padded (es ++ es') (ls ++ ls') := by
  induction h with
  | nil => exact h'
  | entry e _ ih => exact .entry e ih
  | idle hidle hline _ ih => exact .idle hidle hline ih

theorem unbroken (h : Padded es ls) (hes : ∀ e ∈ es, e.Printable) : ∀ l ∈ ls, Unbroken l := by
  induction h with
  | nil => simp
  | entry e _ ih =>
      intro l hl
      rcases List.mem_cons.mp hl with rfl | hl
      · exact (Entry.name_toLine (hes e List.mem_cons_self)).unbroken
      · exact ih (fun x hx => hes x (List.mem_cons_of_mem e hx)) l hl
  | idle _ hline _ ih =>
      intro l hl
      rcases List.mem_cons.mp hl with rfl | hl
      · exact hline
      · exact ih hes l hl

theorem filterMap_eq (h : Padded es ls) (hes : ∀ e ∈ es, e.Printable) : ls.filterMap Entry.ofLine? = es := by
  induction h with
  | nil => rfl
  | entry e _ ih =>
      rw [List.filterMap_cons_some (Entry.ofLine?_toLine (hes e List.mem_cons_self)),
        ih fun x hx => hes x (List.mem_cons_of_mem e hx)]
  | idle hidle _ _ ih => rw [List.filterMap_cons_none hidle.ofLine?_eq, ih hes]

end Padded

/-- **The entries of a text are those whose lines it holds.** -/
theorem entriesOf_padded {es : List Entry} {ls : List Text} (hes : ∀ e ∈ es, e.Printable) (h : Padded es ls) :
    entriesOf (Text.joinWith '\n' ls) = es := by
  unfold entriesOf
  rw [← h.filterMap_eq hes]
  rcases Text.breakLines_joinWith (h.unbroken hes) with hlines | hlines
  · rw [hlines]
  · -- the last line is empty, which is as good as none
    conv_rhs => rw [← hlines, List.filterMap_append]
    exact (List.append_nil _).symm

/-- A line feed at the end is one before an empty line. -/
theorem printEntries_eq (es : List Entry) :
    printEntries es = Text.joinWith '\n' (es.map Entry.toLine ++ [[]]) := by
  induction es with
  | nil => rfl
  | cons e es ih =>
      rw [printEntries, List.flatMap_cons, ← printEntries, ih, List.map_cons, List.cons_append,
        Text.joinWith_cons _ (by simp)]
      simp

end SolidityKit.Coverage
