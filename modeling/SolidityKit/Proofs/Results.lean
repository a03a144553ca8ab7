/-
Results that may be faults.

A reading that is made of steps has a result only if each step has one, and then it is the result of the last
step on those before it.
-/
import Mathlib.Logic.Basic

namespace SolidityKit

variable {α β ε : Type} {x : Except ε α} {b : β}

theorem bind_eq_ok_iff {next : α → Except ε β} : (x >>= next) = .ok b ↔ ∃ a, x = .ok a ∧ next a = .ok b := by
  cases x with
  | error e => exact ⟨fun h => (by cases h), fun ⟨a, ha, _⟩ => (by cases ha)⟩
  | ok a => exact ⟨fun h => ⟨a, rfl, h⟩, fun ⟨a', ha', h⟩ => (by cases ha'; exact h)⟩

theorem map_eq_ok {g : α → β} (h : x.map g = .ok b) : ∃ a, x = .ok a ∧ g a = b := by
  cases x with
  | error e => cases h
  | ok a =>
      cases h
      exact ⟨a, rfl, rfl⟩

theorem mapM_cons_eq_ok_iff {g : α → Except ε β} {a : α} {as : List α} {bs : List β} :
    (a :: as).mapM g = .ok bs ↔ ∃ b more, g a = .ok b ∧ as.mapM g = .ok more ∧ bs = b :: more := by
  rw [List.mapM_cons, bind_eq_ok_iff]
  simp only [bind_eq_ok_iff]
  constructor
  · rintro ⟨b, hb, more, hmore, h⟩
    cases h
    exact ⟨b, more, hb, hmore, rfl⟩
  · rintro ⟨b, more, hb, hmore, rfl⟩
    exact ⟨b, hb, more, hmore, rfl⟩

end SolidityKit
