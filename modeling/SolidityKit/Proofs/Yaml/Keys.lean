/-
Keys of documents that were read.

A map is built entry by entry, and a key that is repeated takes its old place.  So in a document that was read
each map has each key once, however deep it is; the induction is on the nodes of the document.
-/
import SolidityKit.Yaml.Document
import SolidityKit.Proofs.Results
import SolidityKit.Proofs.Value.Entries

namespace SolidityKit

/-- In each map of the document, and in the maps inside it, each key is there once. -/
inductive Value.Orderly : Value → Prop
  /-- A scalar has no keys. -/
  | scalar (s : Scalar) : Orderly (.scalar s)
  /-- The items of a list. -/
  | list {items : List Value} (hitems : ∀ v ∈ items, Orderly v) : Orderly (.list items)
  /-- A map. -/
  | map {es : Entries} (hkeys : es.Distinct) (hvalues : ∀ e ∈ es, Orderly e.2) : Orderly (.map es)

theorem Entries.orderly_ofList {es : List (Scalar × Value)} (h : ∀ e ∈ es, e.2.Orderly) :
    (Value.map (Entries.ofList es)).Orderly := by
  refine .map (Entries.distinct_ofList es) fun e he => ?_
  obtain ⟨-, f, hf, hvalue⟩ := Entries.mem_ofList he
  exact hvalue ▸ h f hf

theorem Value.Orderly.of_field? {es : Entries} {name : String} {v : Value} (h : (Value.map es).Orderly)
    (hv : es.field? name = some v) : v.Orderly := by
  cases h with
  | map hkeys hvalues => exact hvalues _ (Entries.mem_of_field? hv)

namespace Yaml

theorem Found.pair_eq_ok {α β : Type} {x : Found α} {y : Found β} {a : α} {b : β}
    (h : Found.pair x y = .ok (a, b)) :
    x = .ok a ∧ y = .ok b := by
  cases x <;> cases y <;> cases h
  exact ⟨rfl, rfl⟩

theorem wrongForm_ne_ok {α : Type} {depth : Nat} {kind : Kind} {a : α} : wrongForm depth kind ≠ .ok a :=
  fun h => by
  cases h

namespace Node

mutual

/-- Each map in the value of a node has each key once. -/
theorem orderly_value {depth : Nat} {v : Value} : (n : Node) → n.value depth = .ok v → v.Orderly
  | scalar kind points, h => by
      unfold value at h
      split at h
      · cases wrongForm_ne_ok h
      · obtain ⟨s, -, rfl⟩ := map_eq_ok h
        exact .scalar s
  | list kind items, h => by
      unfold value at h
      split at h
      · obtain ⟨vs, hvs, rfl⟩ := map_eq_ok h
        exact .list (orderly_itemValues items hvs)
      · cases wrongForm_ne_ok h
  | map kind entries complete, h => by
      unfold value at h
      split at h
      · split at h
        · obtain ⟨es, hes, rfl⟩ := map_eq_ok h
          exact Entries.orderly_ofList (orderly_entryValues entries hes)
        · cases h
      · cases wrongForm_ne_ok h

theorem orderly_itemValues {depth : Nat} {vs : List Value} :
    (items : List Node) → itemValues depth items = .ok vs → ∀ v ∈ vs, v.Orderly
  | [], h => by
      cases h
      exact fun v hv => by cases hv
  | n :: rest, h => by
      obtain ⟨⟨v, more⟩, hpair, rfl⟩ := map_eq_ok h
      obtain ⟨hv, hmore⟩ := Found.pair_eq_ok hpair
      exact List.forall_mem_cons.mpr ⟨orderly_value n hv, orderly_itemValues rest hmore⟩

theorem orderly_entryValues {depth : Nat} {es : List (Scalar × Value)} :
    (entries : List (Node × Node)) → entryValues depth entries = .ok es → ∀ e ∈ es, e.2.Orderly
  | [], h => by
      cases h
      exact fun e he => by cases he
  | (k, n) :: rest, h => by
      obtain ⟨⟨key, v, more⟩, hpair, rfl⟩ := map_eq_ok h
      obtain ⟨-, hpair⟩ := Found.pair_eq_ok hpair
      obtain ⟨hv, hmore⟩ := Found.pair_eq_ok hpair
      exact List.forall_mem_cons.mpr ⟨orderly_value n hv, orderly_entryValues rest hmore⟩

end

end Node

/-- **In a document that was read, each map has each key once.** -/
theorem orderly_read {t : Text} {v : Value} (h : read t = .ok (some v)) : v.Orderly := by
  unfold read at h
  cases hn : Node.ofTokens (Tokens.ofText t) with
  | error f => rw [hn] at h; cases h
  | ok n? =>
      rw [hn] at h
      cases n? with
      | none => cases h
      | some n =>
          obtain ⟨w, hw, hvw⟩ := map_eq_ok h
          cases hvw
          cases hvalue : n.value 0 with
          | error f => rw [hvalue] at hw; cases hw
          | ok u =>
              rw [hvalue] at hw
              cases hw
              exact Node.orderly_value n hvalue

end Yaml

end SolidityKit
