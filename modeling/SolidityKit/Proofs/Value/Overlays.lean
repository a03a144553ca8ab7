/-
Laws of laying documents over each other.

A map with text keys, each there once, is known by its keys in order and by what stands at each of
them (`Keyed.ext`).  Laying over keeps the keys of the lower document in front and puts the new
ones behind (`keys_overlay`), and at each key it is laying one value over another
(`get?_overlay`).  So a law about documents is a law about the values at one key, and the induction
is on the uppermost document, where two maps meet.

A document that is laid over itself, or over something that it has been laid over before, changes nothing;
this asks nothing of the lower document.  Laying over is associative as long as the two upper documents
have their maps at the same paths.  Where the middle one has something else than a map between two maps, it
cuts them off from each other if it is laid over the lowest one first, and is lost if the uppermost one is
laid over it first.
-/
import SolidityKit.Proofs.Value.Entries

namespace SolidityKit

namespace Scalar

/-- Whether the scalar is a text, whole or torn. -/
def isText : Scalar → Bool
  | text _ | torn _ => true
  | _ => false

/-- A text is the same key as itself only. -/
theorem sameKey_iff_of_isText {k l : Scalar} (hl : l.isText = true) : k.sameKey l = true ↔ k = l := by
  cases l with
  | text s => exact sameKey_text
  | torn cs => cases k <;> simp [sameKey, sameValue, asInt?]
  | _ => cases hl

theorem eq_of_sameKey_of_isText {k l : Scalar} (hk : k.isText = true) (h : k.sameKey l = true) : k = l := by
  cases k with
  | text s => exact (text_sameKey.mp h).symm
  | torn cs => cases l <;> simp_all [sameKey, sameValue, asInt?]
  | _ => cases hk

end Scalar

namespace Entries

/-- The keys, in order. -/
def keys (es : Entries) : List Scalar := es.map Prod.fst

/-- The keys are texts, and each is there once. -/
structure Keyed (es : Entries) : Prop where
  /-- All keys are texts. -/
  texts : ∀ k ∈ es.keys, k.isText = true
  /-- No key is there twice. -/
  nodup : es.keys.Nodup

variable {es base new : Entries} {k key : Scalar} {v : Value}

theorem Keyed.tail {e : Scalar × Value} (h : Keyed (e :: es)) : Keyed es :=
  ⟨fun k hk => h.texts k (List.mem_cons_of_mem _ hk), (List.nodup_cons.mp h.nodup).2⟩

theorem Keyed.head_notMem {e : Scalar × Value} (h : Keyed (e :: es)) : e.1 ∉ es.keys :=
  (List.nodup_cons.mp h.nodup).1

/-! ### One key -/

theorem get?_cons_self (hkey : key.isText = true) : get? key ((key, v) :: es) = some v :=
  if_pos ((Scalar.sameKey_iff_of_isText hkey).mpr rfl)

theorem get?_cons_of_ne (hkey : key.isText = true) (hne : k ≠ key) : get? key ((k, v) :: es) = get? key es :=
  if_neg fun h => hne ((Scalar.sameKey_iff_of_isText hkey).mp h)

theorem get?_eq_none_iff (hkey : key.isText = true) : get? key es = none ↔ key ∉ es.keys := by
  induction es with
  | nil => simp [get?, keys]
  | cons e rest ih =>
      obtain ⟨k, w⟩ := e
      by_cases hk : k = key
      · rw [hk, get?_cons_self hkey]
        simp [keys]
      · rw [get?_cons_of_ne hkey hk, ih]
        simp [keys, Ne.symm hk]

theorem Keyed.get?_of_mem (h : es.Keyed) {e : Scalar × Value} (he : e ∈ es) : get? e.1 es = some e.2 := by
  induction es with
  | nil => cases he
  | cons f rest ih =>
      have htext : e.1.isText = true := h.texts _ (List.mem_map_of_mem he)
      rcases List.mem_cons.mp he with rfl | hmem
      · exact get?_cons_self htext
      · have hne : f.1 ≠ e.1 := fun heq => h.head_notMem (heq ▸ List.mem_map_of_mem hmem)
        exact (get?_cons_of_ne htext hne).trans (ih h.tail hmem)

theorem mem_of_get? (hkey : key.isText = true) (h : get? key es = some v) : (key, v) ∈ es := by
  induction es with
  | nil => cases h
  | cons e rest ih =>
      obtain ⟨k, w⟩ := e
      by_cases hk : k = key
      · rw [hk, get?_cons_self hkey] at h
        cases h
        rw [hk]
        exact List.mem_cons_self
      · rw [get?_cons_of_ne hkey hk] at h
        exact List.mem_cons_of_mem _ (ih h)

/-- A key at which there is something is a text. -/
theorem Keyed.isText_of_get? (h : es.Keyed) (hv : get? k es = some v) : k.isText = true := by
  induction es with
  | nil => cases hv
  | cons e rest ih =>
      obtain ⟨l, w⟩ := e
      have hl : l.isText = true := h.texts l List.mem_cons_self
      rw [get?] at hv
      split at hv
      · next hsame => exact Scalar.eq_of_sameKey_of_isText hl hsame ▸ hl
      · exact ih h.tail hv

/-- Two maps are equal if they have the same keys in the same order, and the same at each. -/
theorem Keyed.ext {fs : Entries} (hes : es.Keyed) (hfs : fs.Keyed) (hkeys : es.keys = fs.keys)
    (hget : ∀ k ∈ es.keys, get? k es = get? k fs) : es = fs := by
  have hkeys' : es.map Prod.fst = fs.map Prod.fst := hkeys
  induction es generalizing fs with
  | nil => exact (List.map_eq_nil_iff.mp hkeys'.symm).symm
  | cons e rest ih =>
      obtain ⟨k, v⟩ := e
      obtain ⟨⟨k', w⟩, rest', rfl⟩ : ∃ f rest', fs = f :: rest' := by
        cases fs with
        | nil => cases hkeys'
        | cons f rest' => exact ⟨f, rest', rfl⟩
      obtain ⟨rfl, hrest⟩ := List.cons.inj hkeys'
      have hk : k.isText = true := hes.texts k List.mem_cons_self
      have hv : v = w := by
        have hfirst := hget k List.mem_cons_self
        rw [get?_cons_self hk, get?_cons_self hk] at hfirst
        exact Option.some.inj hfirst
      rw [hv, ih hes.tail hfs.tail hrest (fun l hl => ?_) hrest]
      have hl' : l.isText = true := hes.texts l (List.mem_cons_of_mem _ hl)
      have hne : k ≠ l := fun h => hes.head_notMem (h ▸ hl)
      have hmore := hget l (List.mem_cons_of_mem _ hl)
      rwa [get?_cons_of_ne hl' hne, get?_cons_of_ne hl' hne] at hmore

/-! ### Setting a key -/

theorem get?_insert (hk : k.isText = true) (hkey : key.isText = true) (v : Value) (es : Entries) :
    get? k (insert key v es) = if k = key then some v else get? k es := by
  induction es with
  | nil =>
      by_cases h : k = key
      · rw [if_pos h, h]
        exact get?_cons_self hkey
      · rw [if_neg h]
        exact get?_cons_of_ne hk (Ne.symm h)
  | cons e rest ih =>
      obtain ⟨l, w⟩ := e
      by_cases hl : l = key
      · rw [insert, if_pos ((Scalar.sameKey_iff_of_isText hkey).mpr hl), hl]
        by_cases h : k = key
        · rw [if_pos h, h, get?_cons_self hkey]
        · rw [if_neg h, get?_cons_of_ne hk (Ne.symm h), get?_cons_of_ne hk (Ne.symm h)]
      · rw [insert, if_neg fun h => hl ((Scalar.sameKey_iff_of_isText hkey).mp h)]
        by_cases h : l = k
        · rw [h, get?_cons_self hk, get?_cons_self hk, if_neg (h ▸ hl)]
        · rw [get?_cons_of_ne hk h, get?_cons_of_ne hk h, ih]

/-- A new key goes to the end, and one that is there keeps its place. -/
theorem keys_insert (hkey : key.isText = true) (v : Value) (es : Entries) :
    keys (insert key v es) = es.keys ++ [key].filter (· ∉ es.keys) := by
  induction es with
  | nil => simp [insert, keys]
  | cons e rest ih =>
      obtain ⟨l, w⟩ := e
      have hcons (x : Value) (fs : Entries) : keys ((l, x) :: fs) = l :: keys fs := rfl
      by_cases hl : l = key
      · rw [insert, if_pos ((Scalar.sameKey_iff_of_isText hkey).mpr hl), hcons, hcons, hl]
        simp
      · rw [insert, if_neg fun h => hl ((Scalar.sameKey_iff_of_isText hkey).mp h), hcons, hcons, ih,
          List.cons_append]
        have hothers : [key].filter (· ∉ l :: keys rest) = [key].filter (· ∉ keys rest) := by
          refine List.filter_congr fun k hk => ?_
          have hne : k ≠ l := fun h => hl (h.symm.trans (List.mem_singleton.mp hk))
          simp [hne]
        rw [hothers]

theorem Keyed.insert (h : es.Keyed) (hkey : key.isText = true) (v : Value) : (es.insert key v).Keyed where
  texts k hk := by
    rw [keys_insert hkey] at hk
    rcases List.mem_append.mp hk with hold | hnew
    · exact h.texts k hold
    · rwa [List.mem_singleton.mp (List.mem_filter.mp hnew).1]
  nodup := by
    rw [keys_insert hkey]
    refine List.nodup_append.mpr ⟨h.nodup, List.Pairwise.filter _ (List.pairwise_singleton _ key),
      fun k hold l hnew heq => ?_⟩
    simpa [heq ▸ hold] using (List.mem_filter.mp hnew).2

/-- Setting a key to what it has changes nothing. -/
theorem insert_of_get? (hkey : key.isText = true) (h : get? key es = some v) : insert key v es = es := by
  induction es with
  | nil => cases h
  | cons e rest ih =>
      obtain ⟨k, w⟩ := e
      by_cases hk : k = key
      · rw [hk, get?_cons_self hkey] at h
        rw [insert, if_pos ((Scalar.sameKey_iff_of_isText hkey).mpr hk), Option.some.inj h]
      · rw [get?_cons_of_ne hkey hk] at h
        rw [insert, if_neg fun h' => hk ((Scalar.sameKey_iff_of_isText hkey).mp h'), ih h]

theorem insert_of_notMem (hkey : key.isText = true) (h : key ∉ es.keys) (v : Value) :
    insert key v es = es ++ [(key, v)] := by
  induction es with
  | nil => rfl
  | cons e rest ih =>
      obtain ⟨k, w⟩ := e
      have hne : k ≠ key := fun heq => h (heq ▸ List.mem_cons_self)
      rw [insert, if_neg fun h' => hne ((Scalar.sameKey_iff_of_isText hkey).mp h'),
        ih fun hmem => h (List.mem_cons_of_mem _ hmem), List.cons_append]

/-! ### Laying over, key by key -/

/-- The keys of the lower document come first; of the others, those that it does not have follow. -/
theorem keys_overlay (base : Entries) (hnew : new.Keyed) :
    keys (overlay base new) = base.keys ++ new.keys.filter (· ∉ base.keys) := by
  induction new generalizing base with
  | nil => simp [overlay, keys]
  | cons e rest ih =>
      obtain ⟨k, v⟩ := e
      have hk : k.isText = true := hnew.texts k List.mem_cons_self
      -- the first key is not among the others, so that it does not matter that it has been set
      have hothers : (keys rest).filter (· ∉ base.keys ++ [k].filter (· ∉ base.keys)) =
          (keys rest).filter (· ∉ base.keys) := by
        refine List.filter_congr fun l hl => ?_
        have hne : l ≠ k := fun heq => hnew.head_notMem (heq ▸ hl)
        simp [hne]
      have hcons : keys ((k, v) :: rest) = [k] ++ keys rest := rfl
      rw [overlay, ih _ hnew.tail, keys_insert hk, hothers, hcons, List.filter_append, List.append_assoc]

/-- At a key of the upper document, its value is laid over what stood there. -/
theorem get?_overlay (base : Entries) (hnew : new.Keyed) (hk : k.isText = true) :
    get? k (overlay base new) =
      (get? k new).elim (get? k base) fun v => some (Value.overlay (get? k base) v) := by
  induction new generalizing base with
  | nil => rfl
  | cons e rest ih =>
      obtain ⟨l, v⟩ := e
      have hl : l.isText = true := hnew.texts l List.mem_cons_self
      rw [overlay, ih _ hnew.tail, get?_insert hk hl]
      by_cases h : l = k
      · subst h
        rw [(get?_eq_none_iff hk).mpr hnew.head_notMem, get?_cons_self hk, if_pos rfl]
        rfl
      · rw [get?_cons_of_ne hk h, if_neg (Ne.symm h)]

theorem Keyed.overlay (hbase : base.Keyed) (hnew : new.Keyed) : (overlay base new).Keyed := by
  induction new generalizing base with
  | nil => exact hbase
  | cons e rest ih =>
      obtain ⟨k, v⟩ := e
      exact ih (hbase.insert (hnew.texts k List.mem_cons_self) _) hnew.tail

/-- A document changes nothing where its values change nothing. -/
theorem overlay_eq_self (hnew : ∀ k ∈ new.keys, k.isText = true)
    (h : ∀ e ∈ new, ∃ w, get? e.1 base = some w ∧ Value.overlay (some w) e.2 = w) :
    overlay base new = base := by
  induction new with
  | nil => rfl
  | cons e rest ih =>
      obtain ⟨k, v⟩ := e
      obtain ⟨w, hw, hsame⟩ := h (k, v) List.mem_cons_self
      rw [overlay, hw, hsame, insert_of_get? (hnew k List.mem_cons_self) hw]
      exact ih (fun l hl => hnew l (List.mem_cons_of_mem _ hl)) fun f hf => h f (List.mem_cons_of_mem _ hf)

/-- Entries with other keys are put behind. -/
theorem overlay_of_disjoint (hnew : new.Keyed) (h : ∀ k ∈ new.keys, k ∉ base.keys) :
    overlay base new = base ++ new := by
  induction new generalizing base with
  | nil => exact (List.append_nil base).symm
  | cons e rest ih =>
      obtain ⟨k, v⟩ := e
      have hk : k.isText = true := hnew.texts k List.mem_cons_self
      have hfresh : k ∉ base.keys := h k List.mem_cons_self
      have hvalue : Value.overlay none v = v := by cases v <;> rfl
      rw [overlay, (get?_eq_none_iff hk).mpr hfresh, hvalue, insert_of_notMem hk hfresh, ih hnew.tail
        fun l hl => ?_]
      · exact List.append_assoc base [(k, v)] rest
      · have hne : l ≠ k := fun heq => hnew.head_notMem (heq ▸ hl)
        have hbase : l ∉ base.keys := h l (List.mem_cons_of_mem _ hl)
        simp only [keys, List.map_append, List.mem_append, not_or]
        exact ⟨hbase, by simpa using hne⟩

theorem nil_overlay (hnew : new.Keyed) : overlay [] new = new :=
  overlay_of_disjoint hnew fun _ _ h => by cases h

end Entries

namespace Value

open Entries

/-- In each map of the document the keys are texts, and each is there once.  Lists are not looked into. -/
inductive Keyed : Value → Prop
  /-- A scalar has no keys. -/
  | scalar (s : Scalar) : Keyed (.scalar s)
  /-- A list is taken as it is. -/
  | list (items : List Value) : Keyed (.list items)
  /-- A map. -/
  | map {es : Entries} (hkeys : es.Keyed) (hvalues : ∀ e ∈ es, Keyed e.2) : Keyed (.map es)

theorem Keyed.entries {es : Entries} (h : (Value.map es).Keyed) : es.Keyed := by
  cases h with
  | map hkeys _ => exact hkeys

theorem Keyed.of_get? {es : Entries} (h : (Value.map es).Keyed) {k : Scalar} (hk : k.isText = true) {v : Value}
    (hv : es.get? k = some v) : v.Keyed := by
  cases h with
  | map _ hvalues => exact hvalues _ (mem_of_get? hk hv)

/-- What stands in a document at the end of a path of keys. -/
def at? : List Scalar → Value → Option Value
  | [], v => some v
  | k :: path, .map es => (Entries.get? k es).bind (at? path)
  | _ :: _, _ => none

/-- At no path of keys one of the documents has a map and the other something else. -/
def SameShape (v w : Value) : Prop := ∀ path x y, v.at? path = some x → w.at? path = some y → x.isMap = y.isMap

theorem SameShape.at_key {es fs : Entries} (h : SameShape (.map es) (.map fs)) {k : Scalar} {v w : Value}
    (hv : es.get? k = some v) (hw : fs.get? k = some w) : v.SameShape w := by
  intro path x y hx hy
  refine h (k :: path) x y ?_ ?_
  · rw [at?, hv]
    exact hx
  · rw [at?, hw]
    exact hy

theorem sameShape_of_not_isMap {v w : Value} (hv : v.isMap = false) (hw : w.isMap = false) : v.SameShape w := by
  have hat {u : Value} (hu : u.isMap = false) {path : List Scalar} {x : Value} (hx : u.at? path = some x) :
      x.isMap = false := by
    cases path with
    | nil => exact Option.some.inj hx ▸ hu
    | cons k path =>
        cases u with
        | map es => cases hu
        | scalar s => cases hx
        | list items => cases hx
  exact fun path x y hx hy => (hat hv hx).trans (hat hw hy).symm

/-- Two maps have the same shape if they have it at each key that is in both. -/
theorem sameShape_map {es fs : Entries} (hes : es.Keyed)
    (h : ∀ e ∈ es, ∀ w, fs.get? e.1 = some w → e.2.SameShape w) : SameShape (.map es) (.map fs) := by
  intro path x y hx hy
  cases path with
  | nil =>
      cases hx
      cases hy
      rfl
  | cons k path =>
      obtain ⟨v, hv, hx⟩ := Option.bind_eq_some_iff.mp hx
      obtain ⟨w, hw, hy⟩ := Option.bind_eq_some_iff.mp hy
      exact h (k, v) (mem_of_get? (hes.isText_of_get? hv) hv) w hw path x y hx hy

/-! ### Laying over again -/

theorem overlay_self {v : Value} (h : v.Keyed) : overlay (some v) v = v := by
  induction h with
  | scalar s => rfl
  | list items => rfl
  | @map es hkeys hvalues ih =>
      show Value.map (Entries.overlay es es) = .map es
      rw [overlay_eq_self hkeys.texts fun e he => ⟨e.2, hkeys.get?_of_mem he, ih e he⟩]

/-- What is laid over a value a second time changes nothing any more. -/
theorem overlay_again {v : Value} (h : v.Keyed) (old : Option Value) :
    overlay (some (overlay old v)) v = overlay old v := by
  induction h generalizing old with
  | scalar s => rfl
  | list items => rfl
  | @map new hkeys hvalues ih =>
      have hself : overlay (some (.map new)) (.map new) = .map new := overlay_self (.map hkeys hvalues)
      match old with
      | some (.map es) =>
          show Value.map (Entries.overlay (Entries.overlay es new) new) = .map (Entries.overlay es new)
          rw [overlay_eq_self hkeys.texts fun e he => ?_]
          refine ⟨overlay (get? e.1 es) e.2, ?_, ih e he _⟩
          rw [get?_overlay es hkeys (hkeys.texts _ (List.mem_map_of_mem he)), hkeys.get?_of_mem he]
          rfl
      | some (.scalar s) => exact hself
      | some (.list items) => exact hself
      | none => exact hself

/-! ### Three documents -/

/-- Laying over keeps the keys of three documents in one order, whichever two are put together first. -/
theorem keys_overlay_assoc {a b c : Entries} (hb : b.Keyed) (hc : c.Keyed) :
    (Entries.overlay (Entries.overlay a b) c).keys = (Entries.overlay a (Entries.overlay b c)).keys := by
  rw [keys_overlay _ hc, keys_overlay a hb, keys_overlay a (hb.overlay hc), keys_overlay b hc,
    List.filter_append, List.append_assoc, List.filter_filter]
  congr 2
  refine List.filter_congr fun k _ => ?_
  by_cases ha : k ∈ a.keys <;> by_cases hb : k ∈ b.keys <;> simp [ha, hb]

/-- Of three values at one key, it does not matter which two are put together first, if the two upper ones are
both maps or both something else. -/
theorem overlay_assoc_of_maps {y z : Value} (x : Option Value) (hmaps : y.isMap = z.isMap)
    (h : ∀ a b c, x = some (.map a) → y = .map b → z = .map c →
      Entries.overlay (Entries.overlay a b) c = Entries.overlay a (Entries.overlay b c)) :
    overlay (some (overlay x y)) z = overlay x (overlay (some y) z) := by
  cases z with
  | scalar s => rfl
  | list items => rfl
  | map c =>
      cases y with
      | scalar s => cases hmaps
      | list items => cases hmaps
      | map b =>
          match x with
          | some (.map a) => exact congrArg Value.map (h a b c rfl rfl rfl)
          | some (.scalar s) => rfl
          | some (.list items) => rfl
          | none => rfl

/-- **Of three documents, it does not matter which two are put together first**, if the two upper ones have
their maps at the same paths. -/
theorem entries_overlay_assoc {a b c : Entries} (ha : (map a).Keyed) (hb : (map b).Keyed) (hc : (map c).Keyed)
    (hshape : SameShape (.map b) (.map c)) :
    Entries.overlay (Entries.overlay a b) c = Entries.overlay a (Entries.overlay b c) := by
  generalize hv : map c = v at hc
  induction hc generalizing a b c with
  | scalar s => cases hv
  | list items => cases hv
  | @map c' hkeys hvalues ih =>
      cases hv
      have hab := ha.entries.overlay hb.entries
      refine Keyed.ext (hab.overlay hkeys) (ha.entries.overlay (hb.entries.overlay hkeys))
        (keys_overlay_assoc hb.entries hkeys) fun k hmem => ?_
      have hk : k.isText = true := (hab.overlay hkeys).texts k hmem
      rw [get?_overlay _ hkeys hk, get?_overlay _ hb.entries hk, get?_overlay _ (hb.entries.overlay hkeys) hk,
        get?_overlay _ hkeys hk]
      cases hz : c'.get? k with
      | none => rfl
      | some z =>
          cases hy : b.get? k with
          | none =>
              have hvalue : overlay none z = z := by cases z <;> rfl
              show some (overlay (a.get? k) z) = some (overlay (a.get? k) (overlay none z))
              rw [hvalue]
          | some y =>
              have hyz := hshape.at_key hy hz
              refine congrArg some (overlay_assoc_of_maps (a.get? k) (hyz [] y z rfl rfl)
                fun a' b' c'' hx hy' hz' => ?_)
              subst hy' hz'
              exact ih (k, .map c'') (mem_of_get? hk hz) (ha.of_get? hk hx) (hb.of_get? hk hy) hyz rfl

/-- **The laws of laying over.**  Laying a document over another one a second time changes nothing, the
empty document changes nothing from above and from below, and of three documents it does not matter which
two are put together first, as long as no path leads to a map in one of the two upper ones and to something
else in the other. -/
theorem overlay_laws {a b c : Entries} (ha : (map a).Keyed) (hb : (map b).Keyed) (hc : (map c).Keyed) :
    Entries.overlay (Entries.overlay a b) b = Entries.overlay a b ∧
      Entries.overlay a [] = a ∧
      Entries.overlay [] a = a ∧
      (SameShape (.map b) (.map c) →
        Entries.overlay (Entries.overlay a b) c = Entries.overlay a (Entries.overlay b c)) :=
  ⟨map.inj (overlay_again hb (some (.map a))), rfl, nil_overlay ha.entries, entries_overlay_assoc ha hb hc⟩

/-- A document with a section. -/
def lowerDocument : Entries :=
  [(.text "output", .map [(.text "dir", .text "flat"), (.text "tests", .text "t.sol")]),
    (.text "order", .int 1)]

/-- A document laid over it, with another section in front. -/
def middleDocument : Entries :=
  [(.text "sources", .list [.null]), (.text "output", .map [(.text "dir", .text "out")])]

/-- A document laid over both, with a field that neither has. -/
def upperDocument : Entries :=
  [(.text "output", .map [(.text "contracts", .text "c.sol"), (.text "dir", .null)]), (.text "order", .int 2)]

theorem keyed_lowerDocument : (map lowerDocument).Keyed := by
  have hsection : (map [(.text "dir", .text "flat"), (.text "tests", .text "t.sol")]).Keyed :=
    .map ⟨by decide, by decide⟩
      (List.forall_mem_cons.mpr ⟨.scalar _, List.forall_mem_singleton.mpr (.scalar _)⟩)
  exact .map ⟨by decide, by decide⟩
    (List.forall_mem_cons.mpr ⟨hsection, List.forall_mem_singleton.mpr (.scalar _)⟩)

theorem keyed_middleDocument : (map middleDocument).Keyed := by
  have hsection : (map [(.text "dir", .text "out")]).Keyed :=
    .map ⟨by decide, by decide⟩ (List.forall_mem_singleton.mpr (.scalar _))
  exact .map ⟨by decide, by decide⟩ (List.forall_mem_cons.mpr ⟨.list _, List.forall_mem_singleton.mpr hsection⟩)

theorem keyed_upperDocument : (map upperDocument).Keyed := by
  have hsection : (map [(.text "contracts", .text "c.sol"), (.text "dir", .null)]).Keyed :=
    .map ⟨by decide, by decide⟩
      (List.forall_mem_cons.mpr ⟨.scalar _, List.forall_mem_singleton.mpr (.scalar _)⟩)
  exact .map ⟨by decide, by decide⟩
    (List.forall_mem_cons.mpr ⟨hsection, List.forall_mem_singleton.mpr (.scalar _)⟩)

theorem sameShape_upperDocument : SameShape (.map middleDocument) (.map upperDocument) := by
  refine sameShape_map keyed_middleDocument.entries (List.forall_mem_cons.mpr ⟨fun w hw => (by cases hw), ?_⟩)
  refine List.forall_mem_singleton.mpr fun w hw => ?_
  cases hw
  refine sameShape_map ⟨by decide, by decide⟩ (List.forall_mem_singleton.mpr fun w hw => ?_)
  cases hw
  exact sameShape_of_not_isMap rfl rfl

/-- The theorem where all three documents have a section in common. -/
theorem overlay_laws_sections :
    (map lowerDocument).Keyed ∧ (map middleDocument).Keyed ∧ (map upperDocument).Keyed ∧
      SameShape (.map middleDocument) (.map upperDocument) ∧
      Entries.overlay (Entries.overlay lowerDocument middleDocument) upperDocument =
        Entries.overlay lowerDocument (Entries.overlay middleDocument upperDocument) ∧
      Entries.overlay (Entries.overlay lowerDocument middleDocument) upperDocument =
        [(.text "output", .map [(.text "dir", .null), (.text "tests", .text "t.sol"),
          (.text "contracts", .text "c.sol")]), (.text "order", .int 2), (.text "sources", .list [.null])] :=
  ⟨keyed_lowerDocument, keyed_middleDocument, keyed_upperDocument, sameShape_upperDocument,
    (overlay_laws keyed_lowerDocument keyed_middleDocument keyed_upperDocument).2.2.2
      sameShape_upperDocument, rfl⟩

end Value

end SolidityKit
