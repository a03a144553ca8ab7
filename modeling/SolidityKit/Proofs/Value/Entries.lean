/-
Fields of documents.

A text key is the same key as no other scalar (`sameKey_text`), so that what stands at a text key is changed by
setting that key only.  Documents that are laid over each other are read field by field: a field that the upper
document has comes from there, unless both have a map, and every other field comes from the lower one
(`field?_overlay`).  This asks of the upper document that it has each key once (`Distinct`), since what it says
twice would be laid over itself.
-/
import SolidityKit.Value.Overlay

namespace SolidityKit

theorem Scalar.sameKey_text {k : Scalar} {name : String} : k.sameKey (.text name) = true ↔ k = .text name := by
  cases k <;> simp [Scalar.sameKey, Scalar.sameValue, Scalar.asInt?]

theorem Scalar.text_sameKey {k : Scalar} {name : String} :
    (Scalar.text name).sameKey k = true ↔ k = .text name := by
  cases k with
  | text s =>
      simp only [Scalar.sameKey, Scalar.sameValue, Scalar.asInt?, Bool.or_self, beq_iff_eq]
      exact eq_comm
  | _ => simp [Scalar.sameKey, Scalar.sameValue, Scalar.asInt?]

namespace Entries

/-! ### Setting a field -/

/-- A field that has just been set is found. -/
theorem field?_setField (name : String) (v : Value) (es : Entries) :
    field? name (setField name v es) = some v := by
  have hself : (Scalar.text name).sameKey (.text name) = true := by simp [Scalar.sameKey]
  unfold field? setField
  induction es with
  | nil => simp [insert, get?, hself]
  | cons e rest ih =>
      obtain ⟨k, w⟩ := e
      by_cases hk : k.sameKey (.text name) = true
      · simp [insert, get?, hk]
      · simp only [insert, hk, Bool.false_eq_true, if_false, get?]
        exact ih

/-- Setting another key leaves a field as it was. -/
theorem field?_insert_of_ne {key : Scalar} {name : String} (hne : key ≠ .text name) (v : Value) (es : Entries) :
    field? name (insert key v es) = field? name es := by
  have hkey : key.sameKey (.text name) = false := by
    rw [Bool.eq_false_iff, Ne, Scalar.sameKey_text]
    exact hne
  unfold field?
  induction es with
  | nil => simp [insert, get?, hkey]
  | cons e rest ih =>
      obtain ⟨k, w⟩ := e
      by_cases hk : k.sameKey key = true
      · have hname : k.sameKey (.text name) = false := by
          rw [Bool.eq_false_iff, Ne, Scalar.sameKey_text]
          rintro rfl
          exact hne (Scalar.text_sameKey.mp hk)
        simp [insert, get?, hk, hname]
      · rw [insert, if_neg hk, get?, get?, ih]

/-- Setting a field leaves the others as they were. -/
theorem field?_setField_of_ne {name other : String} (hne : other ≠ name) (v : Value) (es : Entries) :
    field? other (setField name v es) = field? other es := by
  refine field?_insert_of_ne ?_ v es
  intro h
  cases h
  exact hne rfl

/-- Setting a field leaves all other entries as they were, in their order. -/
theorem filter_setField (name : String) (v : Value) (es : Entries) :
    (setField name v es).filter (fun e => e.1 ≠ .text name) = es.filter fun e => e.1 ≠ .text name := by
  unfold setField
  induction es with
  | nil => simp [insert]
  | cons e rest ih =>
      obtain ⟨k, w⟩ := e
      by_cases hk : k.sameKey (.text name) = true
      · have hname : k = .text name := Scalar.sameKey_text.mp hk
        rw [insert, if_pos hk]
        simp [hname]
      · rw [insert, if_neg hk, List.filter_cons, List.filter_cons, ih]

theorem field?_cons_self (name : String) (v : Value) (es : Entries) :
    field? name ((.text name, v) :: es) = some v :=
  if_pos (Scalar.sameKey_text.mpr rfl)

theorem field?_cons_of_ne {key : Scalar} {name : String} (hne : key ≠ .text name) (v : Value) (es : Entries) :
    field? name ((key, v) :: es) = field? name es :=
  if_neg fun h => hne (Scalar.sameKey_text.mp h)

/-- A field that is found is among the entries. -/
theorem mem_of_field? {es : Entries} {name : String} {v : Value} (h : es.field? name = some v) :
    (.text name, v) ∈ es := by
  induction es with
  | nil => cases h
  | cons e rest ih =>
      obtain ⟨k, w⟩ := e
      by_cases hk : k = .text name
      · subst hk
        rw [field?_cons_self] at h
        cases h
        exact List.mem_cons_self
      · rw [field?_cons_of_ne hk] at h
        exact List.mem_cons_of_mem _ (ih h)

/-! ### Each key once -/

/-- No key is the same as one before it. -/
def Distinct (es : Entries) : Prop := es.Pairwise fun e f => e.1.sameKey f.1 = false

instance (es : Entries) : Decidable es.Distinct := inferInstanceAs (Decidable (List.Pairwise _ _))

theorem mem_insert {key : Scalar} {v : Value} {es : Entries} {e : Scalar × Value} (h : e ∈ insert key v es) :
    e ∈ es ∨ e.2 = v ∧ (e.1 = key ∨ ∃ f ∈ es, e.1 = f.1) := by
  induction es with
  | nil =>
      obtain rfl := List.mem_singleton.mp h
      exact Or.inr ⟨rfl, Or.inl rfl⟩
  | cons f rest ih =>
      obtain ⟨k, w⟩ := f
      by_cases hk : k.sameKey key = true
      · rw [insert, if_pos hk] at h
        rcases List.mem_cons.mp h with rfl | hmem
        · exact Or.inr ⟨rfl, Or.inr ⟨_, List.mem_cons_self, rfl⟩⟩
        · exact Or.inl (List.mem_cons_of_mem _ hmem)
      · rw [insert, if_neg hk] at h
        rcases List.mem_cons.mp h with rfl | hmem
        · exact Or.inl List.mem_cons_self
        · rcases ih hmem with hrest | ⟨hv, hkey | ⟨f, hf, hkey⟩⟩
          · exact Or.inl (List.mem_cons_of_mem _ hrest)
          · exact Or.inr ⟨hv, Or.inl hkey⟩
          · exact Or.inr ⟨hv, Or.inr ⟨f, List.mem_cons_of_mem _ hf, hkey⟩⟩

theorem Distinct.insert {es : Entries} (h : es.Distinct) (key : Scalar) (v : Value) :
    (es.insert key v).Distinct := by
  unfold Distinct at h ⊢
  induction es with
  | nil => exact List.pairwise_singleton _ _
  | cons e rest ih =>
      obtain ⟨k, w⟩ := e
      obtain ⟨hfirst, hrest⟩ := List.pairwise_cons.mp h
      by_cases hk : k.sameKey key = true
      · rw [Entries.insert, if_pos hk]
        exact List.pairwise_cons.mpr ⟨hfirst, hrest⟩
      · rw [Entries.insert, if_neg hk]
        refine List.pairwise_cons.mpr ⟨fun f hf => ?_, ih hrest⟩
        -- a key that is there now was there before, or is the one that was set
        rcases mem_insert hf with hold | ⟨-, hkey | ⟨g, hg, hkey⟩⟩
        · exact hfirst f hold
        · rw [hkey]
          simpa using hk
        · rw [hkey]
          exact hfirst g hg

theorem distinct_ofList (es : List (Scalar × Value)) : (ofList es).Distinct := by
  have hfold (acc : Entries) (hacc : acc.Distinct) :
      (es.foldl (fun acc e => insert e.1 e.2 acc) acc).Distinct := by
    induction es generalizing acc with
    | nil => exact hacc
    | cons e rest ih => exact ih _ (hacc.insert e.1 e.2)
  exact hfold [] List.Pairwise.nil

/-- Nothing is in a map but the keys and the values that it was built from. -/
theorem mem_ofList {es : List (Scalar × Value)} {e : Scalar × Value} (h : e ∈ ofList es) :
    (∃ f ∈ es, f.1 = e.1) ∧ ∃ f ∈ es, f.2 = e.2 := by
  have hfold (acc rest : List (Scalar × Value))
      (hacc : ∀ e ∈ acc, (∃ f ∈ es, f.1 = e.1) ∧ ∃ f ∈ es, f.2 = e.2) (hrest : rest ⊆ es) :
      ∀ e ∈ rest.foldl (fun acc e => insert e.1 e.2 acc) acc, (∃ f ∈ es, f.1 = e.1) ∧ ∃ f ∈ es, f.2 = e.2 := by
    induction rest generalizing acc with
    | nil => exact hacc
    | cons g rest ih =>
        have hg : g ∈ es := hrest List.mem_cons_self
        refine ih _ (fun e he => ?_) fun f hf => hrest (List.mem_cons_of_mem g hf)
        rcases mem_insert he with hold | ⟨hv, hkey | ⟨f, hf, hkey⟩⟩
        · exact hacc e hold
        · exact ⟨⟨g, hg, hkey.symm⟩, g, hg, hv.symm⟩
        · obtain ⟨⟨f', hf', hkey'⟩, -⟩ := hacc f hf
          exact ⟨⟨f', hf', hkey'.trans hkey.symm⟩, g, hg, hv.symm⟩
  exact hfold [] es (fun e he => by cases he) (List.Subset.refl es) e h

theorem Distinct.not_mem {name : String} {v : Value} {es : Entries} (h : Distinct ((.text name, v) :: es)) :
    field? name es = none := by
  obtain ⟨hfirst, -⟩ := List.pairwise_cons.mp h
  clear h
  induction es with
  | nil => rfl
  | cons e rest ih =>
      obtain ⟨k, w⟩ := e
      have hne : k ≠ .text name := fun heq => by
        have hsame := hfirst (k, w) List.mem_cons_self
        rw [Scalar.text_sameKey.mpr heq] at hsame
        cases hsame
      rw [field?_cons_of_ne hne]
      exact ih fun f hf => hfirst f (List.mem_cons_of_mem _ hf)

/-! ### Laying documents over each other -/

/-- A field of the upper document is laid over what stood there; the other fields are those of the lower one. -/
theorem field?_overlay (base : Entries) {new : Entries} (hnew : new.Distinct) (name : String) :
    field? name (overlay base new) =
      (field? name new).elim (field? name base) fun v => some (Value.overlay (field? name base) v) := by
  induction new generalizing base with
  | nil => rfl
  | cons e rest ih =>
      obtain ⟨k, v⟩ := e
      obtain ⟨-, hrest⟩ := List.pairwise_cons.mp hnew
      rw [overlay, ih _ hrest]
      by_cases hk : k = .text name
      · subst hk
        rw [hnew.not_mem, field?_cons_self]
        exact field?_setField name _ base
      · rw [field?_cons_of_ne hk, field?_insert_of_ne hk]

end Entries

end SolidityKit
