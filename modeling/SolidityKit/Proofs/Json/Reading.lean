/-
What a JSON text can hold.

Whatever holds of the scalars that are read, and of lists and maps whose parts it holds of, holds of every
document that is read (`Inherited.read`).  The induction is on the fuel, for values, items and entries at once,
and it is done once.

That a document can be written out is such a property: numbers that are too long for it are not read in the
first place (`isWritable_read`).
-/
import SolidityKit.Json.Reader
import SolidityKit.Proofs.Number.Decimals
import SolidityKit.Proofs.Results
import SolidityKit.Proofs.Value.Overlays

namespace SolidityKit

/-! ### Numbers that can be written out -/

theorem decimalLength_le_iff {n k : Nat} (hk : 0 < k) : decimalLength n ≤ k ↔ n < 10 ^ k :=
  Nat.length_toDigits_le_iff (by decide) hk

namespace Value

theorem areWritable_iff {items : List Value} : areWritable items = true ↔ ∀ v ∈ items, v.isWritable = true := by
  induction items with
  | nil => simp [areWritable]
  | cons v rest ih => simp [areWritable, ih]

theorem isWritable_list {items : List Value} :
    (list items).isWritable = true ↔ ∀ v ∈ items, v.isWritable = true := by
  rw [isWritable, areWritable_iff]

theorem entriesAreWritable_cons (k : Scalar) (v : Value) (rest : List (Scalar × Value)) :
    entriesAreWritable ((k, v) :: rest) =
      ((scalar k).isWritable && v.isWritable && entriesAreWritable rest) := by
  cases k <;> rfl

theorem isWritable_map {es : Entries} :
    (map es).isWritable = true ↔ ∀ e ∈ es, (scalar e.1).isWritable = true ∧ e.2.isWritable = true := by
  rw [isWritable]
  induction es with
  | nil => simp [entriesAreWritable]
  | cons e rest ih =>
      obtain ⟨k, v⟩ := e
      rw [entriesAreWritable_cons, List.forall_mem_cons, ← ih, Bool.and_eq_true, Bool.and_eq_true]

theorem isWritable_of_field? {es : Entries} {name : String} {v : Value} (h : (map es).isWritable = true)
    (hv : es.field? name = some v) : v.isWritable = true :=
  (isWritable_map.mp h _ (Entries.mem_of_field? hv)).2

theorem isWritable_ofList {es : List (Scalar × Value)}
    (h : ∀ e ∈ es, (scalar e.1).isWritable = true ∧ e.2.isWritable = true) :
    (map (Entries.ofList es)).isWritable = true := by
  refine isWritable_map.mpr fun e he => ?_
  obtain ⟨⟨f, hf, hkey⟩, g, hg, hvalue⟩ := Entries.mem_ofList he
  exact ⟨hkey ▸ (h f hf).1, hvalue ▸ (h g hg).2⟩

end Value

namespace Json

/-! ### Scalars -/

theorem digitsValue_lt {ds : Text} (h : ∀ c ∈ ds, isDigit c = true) : digitsValue ds < 10 ^ ds.length := by
  unfold digitsValue
  induction ds using List.reverseRecOn with
  | nil => simp
  | append_singleton ds c ih =>
      have hc : c.toNat ≤ '9'.toNat := by
        have hdigit := h c (by simp)
        simp only [isDigit, Bool.and_eq_true, decide_eq_true_eq] at hdigit
        exact hdigit.2
      have hrest := ih fun d hd => h d (List.mem_append_left _ hd)
      have hnine : '9'.toNat - '0'.toNat = 9 := rfl
      rw [List.foldl_append, List.length_append, List.length_singleton, pow_succ]
      simp only [List.foldl_cons, List.foldl_nil]
      omega

theorem isWritable_int_of_digits {ds : Text} (hdigits : ∀ c ∈ ds, isDigit c = true)
    (hlength : ds.length ≤ numeralLimit)
    {n : Int} (hn : n.natAbs = digitsValue ds) : (Value.int n).isWritable = true := by
  have hpos : 0 < numeralLimit := by decide
  refine decide_eq_true ((decimalLength_le_iff hpos).mpr ?_)
  rw [hn]
  exact (digitsValue_lt hdigits).trans_le (Nat.pow_le_pow_right (by decide) hlength)

theorem isWritable_readNumber {t rest : Text} {s : Scalar} (h : readNumber t = .ok (s, rest)) :
    (Value.scalar s).isWritable = true := by
  unfold readNumber at h
  split at h
  next negative body hbody =>
  extract_lets whole at h
  have hdigits : ∀ c ∈ whole, isDigit c = true := by
    unfold whole
    split
    · exact List.forall_mem_singleton.mpr rfl
    · exact fun c hc => List.mem_takeWhile_imp hc
  clear_value whole
  split at h
  · cases h
  · split at h
    split at h
    · split at h
      · cases h
      · next hshort =>
        cases h
        refine isWritable_int_of_digits hdigits (Nat.le_of_not_lt hshort) ?_
        cases negative
        · rfl
        · exact Int.natAbs_neg _
    · cases h
      rfl

theorem isWritable_readWord {t rest : Text} {s : Scalar} (h : readWord t = .ok (s, rest)) :
    (Value.scalar s).isWritable = true := by
  have hwords : ∀ w ∈ words, (Value.scalar w.2).isWritable = true := by
    simp only [words, List.forall_mem_cons]
    exact ⟨rfl, rfl, rfl, rfl, rfl, rfl, fun w hw => by cases hw⟩
  unfold readWord at h
  split at h
  · next w s' hfound =>
    cases h
    exact hwords _ (List.mem_of_find?_eq_some hfound)
  · exact isWritable_readNumber h

theorem isWritable_readText {t rest : Text} {s : Scalar} (h : readText t = .ok (s, rest)) :
    (Value.scalar s).isWritable = true := by
  obtain ⟨⟨cs, rest'⟩, -, heq⟩ := map_eq_ok h
  cases heq
  unfold Scalar.ofPoints
  split <;> rfl

/-! ### Documents -/

/-- A property of documents that comes from their parts, as they are read. -/
structure Inherited (P : Value → Prop) : Prop where
  /-- It holds of texts. -/
  text : ∀ {t s rest}, readText t = .ok (s, rest) → P (.scalar s)
  /-- It holds of all other scalars. -/
  word : ∀ {t s rest}, readWord t = .ok (s, rest) → P (.scalar s)
  /-- A list has it from its items. -/
  list : ∀ {vs}, (∀ v ∈ vs, P v) → P (.list vs)
  /-- A map has it from its values, with texts for keys. -/
  map : ∀ {es}, (∀ e ∈ es, (∃ t rest, readText t = .ok (e.1, rest)) ∧ P e.2) → P (.map (Entries.ofList es))

/-- What reading with some fuel gives has the property. -/
structure HoldsAt (P : Value → Prop) (fuel : Nat) : Prop where
  /-- A value. -/
  value : ∀ t v rest, readValue fuel t = .ok (v, rest) → P v
  /-- The items of a list. -/
  items : ∀ t vs rest, readItems fuel t = .ok (vs, rest) → ∀ v ∈ vs, P v
  /-- The keys and the values of a map. -/
  entries : ∀ t es rest, readEntries fuel t = .ok (es, rest) →
    ∀ e ∈ es, (∃ t rest, readText t = .ok (e.1, rest)) ∧ P e.2

section Inherited

variable {P : Value → Prop} {fuel : Nat}

theorem HoldsAt.readValue_succ (hP : Inherited P) (h : HoldsAt P fuel) {t rest : Text} {v : Value}
    (hread : readValue (fuel + 1) t = .ok (v, rest)) : P v := by
  unfold readValue at hread
  split at hread
  · cases hread
  · obtain ⟨⟨s, rest'⟩, hs, heq⟩ := map_eq_ok hread
    cases heq
    exact hP.text hs
  · next fuel' _ hfuel =>
    obtain rfl := Nat.succ.inj hfuel
    split at hread
    · cases hread
      show P (.map (Entries.ofList []))
      exact hP.map fun e he => by cases he
    · obtain ⟨⟨es, rest'⟩, hes, heq⟩ := map_eq_ok hread
      cases heq
      exact hP.map (h.entries _ _ _ hes)
  · next fuel' _ hfuel =>
    obtain rfl := Nat.succ.inj hfuel
    split at hread
    · cases hread
      exact hP.list fun v hv => by cases hv
    · obtain ⟨⟨vs, rest'⟩, hvs, heq⟩ := map_eq_ok hread
      cases heq
      exact hP.list (h.items _ _ _ hvs)
  · obtain ⟨⟨s, rest'⟩, hs, heq⟩ := map_eq_ok hread
    cases heq
    exact hP.word hs

theorem HoldsAt.readItems_succ (h : HoldsAt P fuel) {t rest : Text} {vs : List Value}
    (hread : readItems (fuel + 1) t = .ok (vs, rest)) : ∀ v ∈ vs, P v := by
  unfold readItems at hread
  obtain ⟨⟨v, t'⟩, hv, hread⟩ := bind_eq_ok_iff.mp hread
  have hfirst := h.value _ _ _ hv
  dsimp only at hread
  split at hread
  · cases hread
    exact List.forall_mem_singleton.mpr hfirst
  · obtain ⟨⟨more, rest'⟩, hmore, heq⟩ := map_eq_ok hread
    cases heq
    exact List.forall_mem_cons.mpr ⟨hfirst, h.items _ _ _ hmore⟩
  · cases hread

theorem HoldsAt.readEntries_succ (h : HoldsAt P fuel) {t rest : Text} {es : List (Scalar × Value)}
    (hread : readEntries (fuel + 1) t = .ok (es, rest)) :
    ∀ e ∈ es, (∃ t rest, readText t = .ok (e.1, rest)) ∧ P e.2 := by
  unfold readEntries at hread
  split at hread
  · obtain ⟨⟨key, t'⟩, hkey, hread⟩ := bind_eq_ok_iff.mp hread
    dsimp only at hread
    split at hread
    · obtain ⟨⟨v, t''⟩, hv, hread⟩ := bind_eq_ok_iff.mp hread
      have hfirst : (∃ t rest, readText t = .ok (key, rest)) ∧ P v := ⟨⟨_, _, hkey⟩, h.value _ _ _ hv⟩
      dsimp only at hread
      split at hread
      · cases hread
        exact List.forall_mem_singleton.mpr hfirst
      · obtain ⟨⟨more, rest'⟩, hmore, heq⟩ := map_eq_ok hread
        cases heq
        exact List.forall_mem_cons.mpr ⟨hfirst, h.entries _ _ _ hmore⟩
      · cases hread
    · cases hread
  · cases hread

theorem holdsAt (hP : Inherited P) (fuel : Nat) : HoldsAt P fuel := by
  induction fuel with
  | zero =>
      refine ⟨fun t v rest h => ?_, fun t vs rest h => ?_, fun t es rest h => ?_⟩
      · unfold readValue at h
        cases h
      · unfold readItems at h
        cases h
      · unfold readEntries at h
        cases h
  | succ fuel ih =>
      exact ⟨fun _ _ _ => ih.readValue_succ hP, fun _ _ _ => ih.readItems_succ,
        fun _ _ _ => ih.readEntries_succ⟩

/-- **Whatever was read has the properties that documents have from their parts.** -/
theorem Inherited.read (hP : Inherited P) {t : Text} {v : Value} (h : read t = .ok v) : P v := by
  unfold Json.read at h
  split at h
  · cases h
  · split at h
    · cases h
    · next v' rest hv =>
      split at h
      · cases h
        exact (holdsAt hP _).value _ _ _ hv
      · cases h

end Inherited

/-! ### What is inherited -/

/-- Whatever was read can be written out. -/
theorem isWritable_read {t : Text} {v : Value} (h : read t = .ok v) : v.isWritable = true := by
  have hwritable : Inherited fun v => v.isWritable = true := {
    text := isWritable_readText
    word := isWritable_readWord
    list := Value.isWritable_list.mpr
    map := fun hes => Value.isWritable_ofList fun e he => by
      obtain ⟨⟨t, rest, hkey⟩, hvalue⟩ := hes e he
      exact ⟨isWritable_readText hkey, hvalue⟩ }
  exact hwritable.read h

end Json

end SolidityKit
