/-
Reading what was written.

A numeral that the library writes has only digits of ASCII behind its sign, so that neither the digits of other
scripts nor underscores nor blanks come into play, and reading it gives the number back (`read?_text`).
-/
import SolidityKit.Number.Numeral
import SolidityKit.Proofs.Text.Trim

namespace SolidityKit

/-! ### Digits of ASCII -/

section Digit

variable {c : Char}

theorem digit_bounds (h : c.isDigit = true) : 0x30 ≤ c.toNat ∧ c.toNat ≤ 0x39 := by
  simpa [Char.isDigit, UInt32.le_iff_toNat_le] using h

theorem digitValue?_of_isDigit (h : c.isDigit = true) : digitValue? c = some (c.toNat - '0'.toNat) := by
  have hbounds := digit_bounds h
  obtain ⟨others, hzeros⟩ : ∃ others, digitZeros = 0x30 :: others := ⟨_, rfl⟩
  unfold digitValue?
  rw [hzeros, List.find?_cons]
  simp [hbounds]

theorem isBlank_of_isDigit (h : c.isDigit = true) : isBlank c = false := by
  have hbounds := digit_bounds h
  simp only [isBlank, Blanks.blank, blankRanges, List.any_cons, List.any_nil, Bool.or_false,
    Bool.or_eq_false_iff, Bool.and_eq_false_iff, decide_eq_false_iff_not]
  omega

end Digit

namespace Numeral

theorem digitsOf?_of_isDigit {t : Text} (hne : t ≠ []) (h : ∀ c ∈ t, c.isDigit = true) :
    digitsOf? t = some (t.map fun c => c.toNat - '0'.toNat) := by
  induction t with
  | nil => exact absurd rfl hne
  | cons c rest ih =>
      have hc := digitValue?_of_isDigit (h c List.mem_cons_self)
      cases rest with
      | nil => simp [digitsOf?, hc]
      | cons d more =>
          have hd : d ≠ '_' := by
            rintro rfl
            exact absurd (h '_' (by simp)) (by decide)
          have hrest := ih (by simp) fun x hx => h x (List.mem_cons_of_mem c hx)
          rw [digitsOf?, hc, Option.bind_some, hrest]
          · rfl
          · simp
          · exact fun more' hmore => hd (List.cons.inj hmore).1

variable {n : Int}

/-- A numeral is digits behind a sign. -/
theorem text_cases (n : Int) :
    (n < 0 ∧ text n = '-' :: Nat.toDigits 10 n.natAbs) ∨ (0 ≤ n ∧ text n = Nat.toDigits 10 n.natAbs) := by
  unfold text
  by_cases hn : n < 0
  · exact Or.inl ⟨hn, if_pos hn⟩
  · exact Or.inr ⟨Int.not_lt.mp hn, if_neg hn⟩

theorem isDigit_of_mem_toDigits {m : Nat} {c : Char} (h : c ∈ Nat.toDigits 10 m) : c.isDigit = true :=
  Nat.isDigit_of_mem_toDigits (by decide) (by decide) h

theorem mem_text {c : Char} (h : c ∈ text n) : c = '-' ∨ c.isDigit = true := by
  rcases text_cases n with ⟨-, ht⟩ | ⟨-, ht⟩ <;> rw [ht] at h
  · exact (List.mem_cons.mp h).imp_right isDigit_of_mem_toDigits
  · exact Or.inr (isDigit_of_mem_toDigits h)

theorem notMem_text {c : Char} (hminus : c ≠ '-') (hdigit : c.isDigit = false) : c ∉ text n := by
  intro h
  rcases mem_text h with rfl | hc
  · exact hminus rfl
  · rw [hdigit] at hc
    cases hc

theorem text_ne_nil (n : Int) : text n ≠ [] := by
  rcases text_cases n with ⟨-, ht⟩ | ⟨-, ht⟩ <;> rw [ht]
  · simp
  · exact Nat.toDigits_ne_nil

theorem isBlank_of_mem_text {c : Char} (h : c ∈ text n) : isBlank c = false := by
  rcases mem_text h with rfl | hc
  · decide
  · exact isBlank_of_isDigit hc

theorem trimmed_text (n : Int) : Text.Trimmed (text n) :=
  ⟨fun _ hc => isBlank_of_mem_text (List.mem_of_head? hc),
    fun _ hc => isBlank_of_mem_text (List.mem_of_getLast? hc)⟩

/-- Digits behind no sign are not taken for one. -/
theorem signed_toDigits (m : Nat) : signed (Nat.toDigits 10 m) = (false, Nat.toDigits 10 m) := by
  unfold signed
  split
  · next hm => exact absurd (isDigit_of_mem_toDigits (hm ▸ List.mem_cons_self)) (by decide)
  · next hm => exact absurd (isDigit_of_mem_toDigits (hm ▸ List.mem_cons_self)) (by decide)
  · rfl

theorem ofDigits_toDigits (m : Nat) :
    ofDigits ((Nat.toDigits 10 m).map fun c => c.toNat - '0'.toNat) = m := by
  unfold ofDigits
  rw [List.foldl_map, ← Nat.ofDigitChars_eq_foldl]
  exact Nat.ofDigitChars_ten_toDigits

/-- **A numeral that is short enough to be written is read back.** -/
theorem read?_text (h : isWritable n = true) : read? (text n) = some n := by
  have hlength : (Nat.toDigits 10 n.natAbs).length ≤ numeralLimit := of_decide_eq_true h
  have hdigits : digitsOf? (Nat.toDigits 10 n.natAbs) =
      some ((Nat.toDigits 10 n.natAbs).map fun c => c.toNat - '0'.toNat) :=
    digitsOf?_of_isDigit Nat.toDigits_ne_nil fun c hc => isDigit_of_mem_toDigits hc
  have hread (negative : Bool) (hsigned : signed (text n) = (negative, Nat.toDigits 10 n.natAbs)) :
      read? (text n) = some (if negative then -(n.natAbs : Int) else n.natAbs) := by
    unfold read?
    rw [(trimmed_text n).trim_eq, hsigned]
    simp only [hdigits, Option.bind_eq_bind, Option.bind_some, List.length_map, hlength, guard, if_true,
      ofDigits_toDigits]
    rfl
  rcases text_cases n with ⟨hn, ht⟩ | ⟨hn, ht⟩
  · rw [hread true (by rw [ht]; rfl)]
    exact congrArg some (by simp only [if_true]; omega)
  · rw [hread false (by rw [ht, signed_toDigits])]
    exact congrArg some (by simp only [Bool.false_eq_true, if_false]; omega)

end Numeral

end SolidityKit
