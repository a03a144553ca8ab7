/-
What trimming keeps of metadata.

Trimming drops some entries of a map and looks into two of those that are kept.  `Trims` says for one entry
what becomes of it: a map of sources keeps every path, and each of its maps loses the keys of a source; a map
of settings loses its own key; everything else stays as it is, also under the names of these two if it is no
map.  So the metadata is known entry by entry, in order, and trimming it again changes nothing (`trim_exact`).

A field that trimming neither drops nor looks into is found as before (`field?_trim`), above all the metadata
that metadata may itself have.
-/
import SolidityKit.Metadata.Trim
import SolidityKit.Proofs.Value.Entries
import Mathlib.Data.List.Forall2

namespace SolidityKit

namespace Entries

/-- The entries whose keys are none of the given texts, in their order. -/
def without (names : List String) (es : Entries) : Entries := es.filter fun e => e.1 ∉ names.map Scalar.text

theorem dropFields_eq (names : List String) (es : Entries) : es.dropFields names = es.without names := by
  refine List.filter_congr fun e _ => ?_
  rw [Bool.eq_iff_iff, Bool.not_eq_true', List.any_eq_false, decide_eq_true_eq, List.mem_map, not_exists]
  exact forall_congr' fun n => by rw [Scalar.sameKey_text, not_and, eq_comm]

theorem without_without (names : List String) (es : Entries) :
    (es.without names).without names = es.without names := by
  simp [without, List.filter_filter]

/-- Entries can be changed before or after some are dropped, as long as they keep their keys. -/
theorem without_map {f : Scalar × Value → Scalar × Value} (hf : ∀ e, (f e).1 = e.1) (names : List String)
    (es : Entries) : without names (es.map f) = (es.without names).map f := by
  simp only [without, List.filter_map, Function.comp_def, hf]

theorem field?_without {name : String} {names : List String} (h : name ∉ names) (es : Entries) :
    field? name (es.without names) = field? name es := by
  induction es with
  | nil => rfl
  | cons e rest ih =>
      obtain ⟨k, v⟩ := e
      rw [without] at ih ⊢
      by_cases hk : k = .text name
      · subst hk
        have hkept : Scalar.text name ∉ names.map Scalar.text := by simpa using h
        rw [List.filter_cons_of_pos (by simpa using hkept), field?_cons_self, field?_cons_self]
      · rw [field?_cons_of_ne hk, ← ih, List.filter_cons]
        split
        · exact field?_cons_of_ne hk v _
        · rfl

theorem field?_map {f : Scalar × Value → Scalar × Value} (hf : ∀ e, (f e).1 = e.1) {name : String}
    (hsame : ∀ v, f (.text name, v) = (.text name, v)) (es : Entries) :
    field? name (es.map f) = field? name es := by
  induction es with
  | nil => rfl
  | cons e rest ih =>
      obtain ⟨k, v⟩ := e
      by_cases hk : k = .text name
      · subst hk
        rw [List.map_cons, hsame, field?_cons_self, field?_cons_self]
      · rw [List.map_cons, field?_cons_of_ne hk, ← ih]
        exact field?_cons_of_ne (by rwa [hf]) _ _

end Entries

namespace Metadata

open Entries

/-! ### What becomes of an entry -/

/-- What becomes of one source. -/
inductive TrimsSource : Scalar × Value → Scalar × Value → Prop
  /-- A map loses the keys of a source. -/
  | map (path : Scalar) (es : Entries) :
      TrimsSource (path, .map es) (path, .map (es.without ["urls", "license", "keccak256"]))
  /-- Anything else stays. -/
  | other (path : Scalar) {v : Value} (h : v.isMap = false) : TrimsSource (path, v) (path, v)

/-- What becomes of one entry of the metadata. -/
inductive Trims : Scalar × Value → Scalar × Value → Prop
  /-- In a map of sources each source is trimmed. -/
  | sources {ss ts : Entries} (h : List.Forall₂ TrimsSource ss ts) :
      Trims (.text "sources", .map ss) (.text "sources", .map ts)
  /-- A map of settings loses its target. -/
  | settings (ss : Entries) :
      Trims (.text "settings", .map ss) (.text "settings", .map (ss.without ["compilationTarget"]))
  /-- Any other entry stays. -/
  | other {e : Scalar × Value} (h : e.2.isMap = true → e.1 ≠ .text "sources" ∧ e.1 ≠ .text "settings") :
      Trims e e

theorem trimsSource (e : Scalar × Value) : TrimsSource e (e.1, dropKeys sourceKeys e.2) := by
  obtain ⟨path, v⟩ := e
  cases v with
  | map es =>
      rw [dropKeys, dropFields_eq]
      exact .map path es
  | scalar s => exact .other path rfl
  | list items => exact .other path rfl

/-- Each entry is trimmed as `Trims` says. -/
theorem trims_trimEntry (e : Scalar × Value) : Trims e (trimEntry e) := by
  obtain ⟨k, v⟩ := e
  cases v with
  | map es =>
      by_cases hsources : k = .text "sources"
      · subst hsources
        exact .sources (List.forall₂_map_right_iff.mpr (List.forall₂_same.mpr fun e _ => trimsSource e))
      by_cases hsettings : k = .text "settings"
      · subst hsettings
        have htrim : trimEntry (.text "settings", .map es) =
            (.text "settings", .map (dropFields settingsKeys es)) := rfl
        rw [htrim, dropFields_eq]
        exact .settings es
      · rw [trimEntry, if_neg hsources, if_neg hsettings]
        exact .other fun _ => ⟨hsources, hsettings⟩
  | scalar s =>
      rw [show trimEntry (k, .scalar s) = (k, .scalar s) by simp [trimEntry, trimSources, dropKeys]]
      exact .other (by simp [Value.isMap])
  | list items =>
      rw [show trimEntry (k, .list items) = (k, .list items) by simp [trimEntry, trimSources, dropKeys]]
      exact .other (by simp [Value.isMap])

/-! ### Trimming twice -/

theorem dropKeys_dropKeys (names : List String) (v : Value) :
    dropKeys names (dropKeys names v) = dropKeys names v := by
  cases v with
  | map es => simp only [dropKeys, dropFields_eq, without_without]
  | scalar s => rfl
  | list items => rfl

theorem trimSources_trimSources (v : Value) : trimSources (trimSources v) = trimSources v := by
  cases v with
  | map es => simp [trimSources, dropKeys_dropKeys]
  | scalar s => rfl
  | list items => rfl

theorem trimEntry_fst (e : Scalar × Value) : (trimEntry e).1 = e.1 := by
  unfold trimEntry
  split_ifs <;> rfl

theorem trimEntry_trimEntry (e : Scalar × Value) : trimEntry (trimEntry e) = trimEntry e := by
  by_cases hsources : e.1 = .text "sources"
  · simp [trimEntry, hsources, trimSources_trimSources]
  by_cases hsettings : e.1 = .text "settings"
  · simp [trimEntry, hsettings, dropKeys_dropKeys]
  · simp [trimEntry, hsources, hsettings]

theorem trim_eq (es : Entries) : trim es = (es.without outerKeys).map trimEntry := by rw [trim, dropFields_eq]

theorem trim_trim (es : Entries) : trim (trim es) = trim es := by
  rw [trim_eq (trim es), trim_eq es, without_map trimEntry_fst, without_without, List.map_map]
  exact congrArg (List.map · _) (funext trimEntry_trimEntry)

/-! ### The whole -/

/-- A field that is neither dropped nor looked into stays. -/
theorem field?_trim {name : String} (hkept : name ∉ outerKeys) (hsources : name ≠ "sources")
    (hsettings : name ≠ "settings") (es : Entries) : field? name (trim es) = field? name es := by
  rw [trim_eq, field?_map trimEntry_fst, field?_without hkept]
  intro v
  simp [trimEntry, hsources, hsettings]

/--
**Trimming is exact and done once.**

The keys of trimmed metadata are those of the metadata without three, in their order; what becomes of the
entries that are kept is said by `Trims`, one by one; and trimming trimmed metadata leaves it as it is.
-/
theorem trim_exact (es : Entries) :
    (trim es).map Prod.fst =
        (es.map Prod.fst).filter (fun key => key ∉ [.text "compiler", .text "version", .text "output"]) ∧
      List.Forall₂ Trims (es.without ["compiler", "version", "output"]) (trim es) ∧
      trim (trim es) = trim es := by
  refine ⟨?_, ?_, trim_trim es⟩
  · have hkeys : Prod.fst ∘ trimEntry = Prod.fst := funext trimEntry_fst
    rw [trim_eq, List.map_map, hkeys, without, List.filter_map]
    rfl
  · rw [trim_eq]
    exact List.forall₂_map_right_iff.mpr (List.forall₂_same.mpr fun e _ => trims_trimEntry e)

end Metadata

end SolidityKit
