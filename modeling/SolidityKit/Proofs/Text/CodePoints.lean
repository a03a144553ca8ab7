/-
The order of code points, and the texts that the system takes.

A code point is known by its number (`number_injective`), because the numbers of surrogates are those that no
character has.  So the order of numbers is a linear order of code points, and names, which are compared code
point by code point, can be sorted: the instances here are what the library asks for that.

A check for surrogates that have no bytes passes exactly the texts without any (`firstSurrogates_eq_none_iff`).
-/
import SolidityKit.Text.Utf8
import Mathlib.Order.Defs.Unbundled

namespace SolidityKit

namespace CodePoint

theorem number_injective : Function.Injective number := by
  have hapart (c : Char) (half : Fin 0x800) : (char c).number ≠ (surrogate half).number := by
    have hvalid : c.toNat < 0xD800 ∨ 0xDFFF < c.toNat ∧ c.toNat < 0x110000 := c.valid
    have hhalf := half.isLt
    simp only [number]
    omega
  intro a b h
  cases a with
  | char c =>
      cases b with
      | char d => rw [Char.toNat_inj.mp h]
      | surrogate half => exact absurd h (hapart c half)
  | surrogate half =>
      cases b with
      | char d => exact absurd h.symm (hapart d half)
      | surrogate half' => rw [Fin.ext (Nat.add_left_cancel h)]

instance : Std.Asymm (· < · : CodePoint → CodePoint → Prop) := ⟨fun _ _ => Nat.lt_asymm⟩

instance : Std.Trichotomous (· < · : CodePoint → CodePoint → Prop) where
  trichotomous _ _ hab hba := number_injective (Nat.le_antisymm (Nat.le_of_not_lt hba) (Nat.le_of_not_lt hab))

instance : Trans (¬ · < · : CodePoint → CodePoint → Prop) (¬ · < ·) (¬ · < ·) where
  trans hab hbc := Nat.not_lt.mpr (Nat.le_trans (Nat.le_of_not_lt hbc) (Nat.le_of_not_lt hab))

end CodePoint

instance : IsTrans Points (· ≤ ·) where
  trans _ _ _ hab hbc :=
    letI := LE.ofLT CodePoint
    haveI : Std.IsLinearOrder CodePoint := Std.IsLinearOrder.of_lt
    List.le_trans hab hbc

namespace Utf8

theorem firstSurrogates_eq_none_iff {allowed : CodePoint → Bool} {place : Nat} {cs : Points} :
    firstSurrogates allowed place cs = none ↔ ∀ c ∈ cs, c.isSurrogate = true → allowed c = true := by
  induction cs generalizing place with
  | nil => simp [firstSurrogates]
  | cons c rest ih =>
      cases c with
      | char c => simp [firstSurrogates, ih, CodePoint.isSurrogate]
      | surrogate half =>
          rw [firstSurrogates]
          by_cases hallowed : allowed (.surrogate half) = true
          · simp [hallowed, ih, CodePoint.isSurrogate]
          · simp [hallowed, CodePoint.isSurrogate]

end Utf8

namespace Points

theorem ofText_injective {t u : Text} (h : ofText t = ofText u) : t = u :=
  (List.map_inj_right fun _ _ h => CodePoint.char.inj h).mp h

@[simp] theorem ofString_inj {s t : String} : ofString s = ofString t ↔ s = t :=
  ⟨fun h => String.toList_injective (ofText_injective h), fun h => h ▸ rfl⟩

/-- The system takes the text, as a path, a name or a value. -/
def Usable (cs : Points) : Prop := ∀ c ∈ cs, c.isUsable = true

instance (cs : Points) : Decidable cs.Usable := inferInstanceAs (Decidable (∀ _ ∈ _, _))

/-- A text that the system takes has no surrogates but those that stand for bytes, and no NUL character. -/
theorem usable_iff {cs : Points} :
    cs.Usable ↔ Utf8.firstSurrogates CodePoint.isByte 0 cs = none ∧ .char '\x00' ∉ cs := by
  rw [Utf8.firstSurrogates_eq_none_iff]
  constructor
  · intro h
    refine ⟨fun c hc hsurrogate => ?_, fun husable => absurd (h _ husable) (by decide)⟩
    cases c with
    | char c => cases hsurrogate
    | surrogate half => exact h _ hc
  · rintro ⟨hbytes, husable⟩ c hc
    cases c with
    | char c => exact bne_iff_ne.mpr fun h => husable (h ▸ hc)
    | surrogate half => exact hbytes _ hc rfl

end Points

end SolidityKit
