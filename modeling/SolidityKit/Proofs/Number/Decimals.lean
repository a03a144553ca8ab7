/-
Decimal numbers that survive the way to a binary number and back.

A binary number is written with the fewest digits that read back as it, which need not be the digits it was
read from.  For a number of up to 15 digits they are (`Near.shortest_value`): two multiples of the same power
of ten that read as one binary number are less than that power apart, since a binary number has almost 16
digits, and so they are equal.  With 15 digits one of the neighbours is the number itself, so that the search
ends there at the latest.

The text depends on the value of the digits alone (`digitsAndPlace_eq_of_value`), so that a number of
hundredths can be laid out from the digits of that number (`toText_hundredths`).
-/
import SolidityKit.Number.Decimal
import SolidityKit.Proofs.Number.Rounding
import SolidityKit.Proofs.Text.Lines
import SolidityKit.Proofs.Text.Trim
import Mathlib

namespace SolidityKit

open Binary64

attribute [local irreducible] unitsPerOne unitDoublings

namespace Decimal

/-! ### The value of a decimal number -/

/-- The value of a decimal number. -/
def value (d : Decimal) : ℚ := d.digits * 10 ^ d.exponent

theorem ratio_pos (d : Decimal) : 0 < d.ratio.2 := by
  unfold ratio
  split
  · exact Nat.one_pos
  · exact Nat.pow_pos (by decide)

theorem value_eq_ratio (d : Decimal) : (d.ratio.1 : ℚ) / d.ratio.2 = d.value := by
  have hpow : ∀ k, Nat.pow 10 k = 10 ^ k := fun _ => rfl
  unfold ratio value
  split
  · next h =>
    obtain ⟨k, hk⟩ := Int.eq_ofNat_of_zero_le h
    simp only [hpow, hk, Int.toNat_natCast]
    push_cast
    rw [div_one, zpow_natCast]
  · next h =>
    obtain ⟨k, hk⟩ := Int.eq_ofNat_of_zero_le (by omega : 0 ≤ -d.exponent)
    have hk' : d.exponent = -(k : ℤ) := by omega
    simp only [hpow, hk']
    push_cast
    rw [zpow_neg, zpow_natCast, div_eq_mul_inv, neg_neg, Int.toNat_natCast]

theorem rounds_of_toBinary {d : Decimal} {m e : Nat} (hm : m ≠ 0) (h : d.toBinary false = finite false m e) :
    Rounds d.value m e := by
  have hzero : zero false ≠ finite false m e := by
    intro h0
    cases h0
    exact hm rfl
  unfold toBinary at h
  split_ifs at h
  · exact absurd h hzero
  · exact absurd h hzero
  · rw [← value_eq_ratio]
    exact rounds_of_ofRatio d.ratio_pos h

theorem toBinary_eq_ofRatio {d : Decimal} {num den : Nat} (hden : 0 < den) (hvalue : d.value = num / den)
    (hdigits : d.digits ≠ 0) (hlow : -400 ≤ d.exponent) (hhigh : d.exponent ≤ 400) :
    d.toBinary false = ofRatio false num den := by
  have hlength : 0 ≤ (decimalLength d.digits : ℤ) := Int.natCast_nonneg _
  unfold toBinary
  rw [if_neg hdigits, if_neg (by omega), if_neg (by omega)]
  refine ofRatio_congr d.ratio_pos hden ?_ false
  rw [← value_eq_ratio,
    div_eq_div_iff (by exact_mod_cast d.ratio_pos.ne') (by exact_mod_cast hden.ne')] at hvalue
  exact_mod_cast hvalue

/-! ### Neighbours -/

theorem withDigits?_eq_some {x : Binary64} {num den n : Nat} {c : Decimal}
    (h : withDigits? x num den n = some c) :
    (c = (neighbours num den n).1 ∨ c = (neighbours num den n).2) ∧ c.toBinary false = x := by
  unfold withDigits? at h
  generalize neighbours num den n = ab at h
  obtain ⟨below, above⟩ := ab
  dsimp only at h ⊢
  split at h
  · next hbelow habove =>
    rw [beq_iff_eq] at hbelow habove
    split at h <;> cases h
    · exact ⟨Or.inl rfl, hbelow⟩
    · exact ⟨Or.inr rfl, habove⟩
  · next hbelow _ =>
    cases h
    exact ⟨Or.inl rfl, beq_iff_eq.mp hbelow⟩
  · next _ habove =>
    cases h
    exact ⟨Or.inr rfl, beq_iff_eq.mp habove⟩
  · cases h

theorem withDigits?_eq_none {x : Binary64} {num den n : Nat} (h : withDigits? x num den n = none) :
    (neighbours num den n).1.toBinary false ≠ x ∧ (neighbours num den n).2.toBinary false ≠ x := by
  unfold withDigits? at h
  generalize neighbours num den n = ab at h
  obtain ⟨below, above⟩ := ab
  dsimp only at h ⊢
  split at h
  · cases h
  · cases h
  · cases h
  · next hbelow habove =>
    exact ⟨beq_eq_false_iff_ne.mp hbelow, beq_eq_false_iff_ne.mp habove⟩

theorem neighbours_exponent (num den n : Nat) :
    (neighbours num den n).1.exponent = pointPlace num den - n ∧
      (neighbours num den n).2.exponent = pointPlace num den - n := ⟨rfl, rfl⟩

theorem neighbours_value (num den n : Nat) :
    (neighbours num den n).1.value = (neighbours num den n).1.digits * 10 ^ (pointPlace num den - n) ∧
      (neighbours num den n).2.value =
        ((neighbours num den n).1.digits + 1 : ℕ) * 10 ^ (pointPlace num den - n) := ⟨rfl, rfl⟩

theorem floor_neighbours (num n : Nat) {den : Nat} (hden : 0 < den) :
    (neighbours num den n).1.value ≤ num / den ∧ num / den < (neighbours num den n).2.value := by
  have hpow : ∀ k, Nat.pow 10 k = 10 ^ k := fun _ => rfl
  have hden' : (0 : ℚ) < den := by exact_mod_cast hden
  unfold neighbours value
  generalize pointPlace num den - n = e
  dsimp only
  split
  · next he =>
    obtain ⟨k, rfl⟩ := Int.eq_ofNat_of_zero_le he
    simp only [hpow, Int.toNat_natCast, zpow_natCast]
    have hstep : 0 < den * 10 ^ k := Nat.mul_pos hden (Nat.pow_pos (by decide))
    have hlow := Nat.div_mul_le_self num (den * 10 ^ k)
    have hhigh := Nat.lt_div_mul_add (a := num) hstep
    rw [← Nat.add_one_mul] at hhigh
    rw [le_div_iff₀ hden', div_lt_iff₀ hden', mul_assoc, mul_assoc, mul_comm _ (den : ℚ)]
    exact ⟨by exact_mod_cast hlow, by exact_mod_cast hhigh⟩
  · next he =>
    obtain ⟨k, hk⟩ := Int.eq_ofNat_of_zero_le (by omega : 0 ≤ -e)
    have he' : e = -(k : ℤ) := by omega
    subst he'
    have hten : (0 : ℚ) < 10 ^ k := by positivity
    simp only [hpow, neg_neg, Int.toNat_natCast, zpow_neg, zpow_natCast, ← div_eq_mul_inv]
    have hlow := Nat.div_mul_le_self (num * 10 ^ k) den
    have hhigh := Nat.lt_div_mul_add (a := num * 10 ^ k) hden
    rw [← Nat.add_one_mul] at hhigh
    rw [div_le_div_iff₀ hten hden', div_lt_div_iff₀ hden' hten]
    exact ⟨by exact_mod_cast hlow, by exact_mod_cast hhigh⟩

/-! ### Where the point stands -/

theorem decimalLength_pos (n : Nat) : 0 < decimalLength n := Nat.length_toDigits_pos

theorem lt_ten_pow_decimalLength (n : Nat) : n < 10 ^ decimalLength n :=
  (Nat.length_toDigits_le_iff (by decide) Nat.length_toDigits_pos).mp le_rfl

theorem ten_pow_decimalLength_le {n : Nat} (hn : 0 < n) : 10 ^ (decimalLength n - 1) ≤ n := by
  by_contra hlt
  rcases Nat.eq_zero_or_pos (decimalLength n - 1) with h0 | hpos
  · rw [h0] at hlt
    omega
  · have := (Nat.length_toDigits_le_iff (by decide) hpos).mpr (not_le.mp hlt)
    have := decimalLength_pos n
    unfold decimalLength at *
    omega

section Place

variable {num den : Nat}

theorem pointPlace_bounds_of_le (hden : 0 < den) (hle : den ≤ num) :
    (10 : ℚ) ^ (pointPlace num den - 1) ≤ num / den ∧ (num : ℚ) / den < 10 ^ pointPlace num den := by
  have hden' : (0 : ℚ) < den := by exact_mod_cast hden
  have hpos : 0 < num / den := Nat.div_pos hle hden
  have hlow := (Nat.le_div_iff_mul_le hden).mp (ten_pow_decimalLength_le hpos)
  have hhigh := (Nat.div_lt_iff_lt_mul hden).mp (lt_ten_pow_decimalLength (num / den))
  have hplace : (decimalLength (num / den) : ℤ) - 1 = (decimalLength (num / den) - 1 : ℕ) := by
    have := decimalLength_pos (num / den)
    omega
  rw [pointPlace, if_pos hle, hplace, zpow_natCast, zpow_natCast, le_div_iff₀ hden', div_lt_iff₀ hden']
  exact ⟨by exact_mod_cast hlow, by exact_mod_cast hhigh⟩

/-- The quotient of `den` and `num`, rounded up, less one. -/
theorem ceil_sub_one (hnum : 0 < num) (hlt : num < den) : (den + num - 1) / num - 1 = (den - 1) / num := by
  have hquot : (den + num - 1) / num = (den - 1) / num + 1 := by
    rw [← Nat.add_div_right _ hnum]
    congr 1
    omega
  rw [hquot, Nat.add_sub_cancel]

theorem pointPlace_bounds_of_lt (hnum : 0 < num) (hlt : num < den) :
    (10 : ℚ) ^ (pointPlace num den - 1) ≤ num / den ∧ (num : ℚ) / den < 10 ^ pointPlace num den := by
  have hnum' : (0 : ℚ) < num := by exact_mod_cast hnum
  have hden' : (0 : ℚ) < den := by exact_mod_cast hnum.trans hlt
  rw [pointPlace, if_neg (by omega), ceil_sub_one hnum hlt]
  have hpos : 0 < (den - 1) / num := Nat.div_pos (by omega) hnum
  have hlow := Nat.div_mul_le_self (den - 1) num
  have hhigh := Nat.lt_div_mul_add (a := den - 1) hnum
  rw [← Nat.add_one_mul] at hhigh
  generalize (den - 1) / num = c at hpos hlow hhigh ⊢
  have hpow := ten_pow_decimalLength_le hpos
  have hpow' := lt_ten_pow_decimalLength c
  obtain ⟨l, hl⟩ := Nat.exists_eq_add_of_lt (decimalLength_pos c)
  rw [Nat.zero_add] at hl
  rw [hl] at hpow hpow' ⊢
  have hplace : (1 : ℤ) - (l + 1 : ℕ) - 1 = -((l + 1 : ℕ) : ℤ) := by omega
  have hplace' : (1 : ℤ) - (l + 1 : ℕ) = -(l : ℤ) := by omega
  rw [hplace, hplace', zpow_neg, zpow_neg, zpow_natCast, zpow_natCast,
    inv_le_comm₀ (by positivity) (by positivity), lt_inv_comm₀ (by positivity) (by positivity), inv_div,
    div_le_iff₀ hnum', lt_div_iff₀ hnum']
  constructor
  · have : den ≤ 10 ^ (l + 1) * num := (by omega : den ≤ (c + 1) * num).trans (Nat.mul_le_mul_right _ hpow')
    exact_mod_cast this
  · have : 10 ^ l * num < den := (Nat.mul_le_mul_right _ hpow).trans_lt (by omega)
    exact_mod_cast this

/-- A quotient has its first digit in front of the place of its point. -/
theorem pointPlace_bounds (hnum : 0 < num) (hden : 0 < den) :
    (10 : ℚ) ^ (pointPlace num den - 1) ≤ num / den ∧ (num : ℚ) / den < 10 ^ pointPlace num den := by
  rcases le_or_gt den num with hle | hlt
  · exact pointPlace_bounds_of_le hden hle
  · exact pointPlace_bounds_of_lt hnum hlt

end Place

/-! ### Multiples of a power of ten -/

/-- Being a multiple of a power of ten. -/
def OnGrid (e : ℤ) (q : ℚ) : Prop := ∃ n : ℤ, q = n * 10 ^ e

theorem onGrid_value {d : Decimal} {e : ℤ} (h : e ≤ d.exponent) : OnGrid e d.value := by
  obtain ⟨k, hk⟩ := Int.eq_ofNat_of_zero_le (by omega : 0 ≤ d.exponent - e)
  refine ⟨d.digits * 10 ^ k, ?_⟩
  have hsplit : d.exponent = k + e := by omega
  unfold value
  rw [hsplit, zpow_add₀ (by norm_num), zpow_natCast]
  push_cast
  ring

theorem OnGrid.eq {e : ℤ} {q q' : ℚ} (h : OnGrid e q) (h' : OnGrid e q') (hnear : |q - q'| < 10 ^ e) :
    q = q' := by
  obtain ⟨n, rfl⟩ := h
  obtain ⟨n', rfl⟩ := h'
  have hten : (0 : ℚ) < 10 ^ e := by positivity
  rw [← sub_mul, abs_mul, abs_of_pos hten] at hnear
  have hone : |(n : ℚ) - n'| < 1 := lt_of_mul_lt_mul_right (hnear.trans_eq (one_mul _).symm) hten.le
  have hint : |n - n'| < 1 := by exact_mod_cast hone
  have hsame : n = n' := by
    rw [Int.abs_lt_one_iff] at hint
    omega
  rw [hsame]

/-! ### The shortest digits -/

theorem ten_pow_le_unitsPerOne : (10 : ℚ) ^ 210 ≤ unitsPerOne := by
  calc (10 : ℚ) ^ 210 = (10 ^ 3) ^ 70 := by rw [← pow_mul]
    _ ≤ (2 ^ 10) ^ 70 := pow_le_pow_left₀ (by norm_num) (by norm_num) 70
    _ = 2 ^ 700 := by rw [← pow_mul]
    _ ≤ unitsPerOne := two_pow_le_unitsPerOne (by decide)

/-- A number of up to 15 digits whose exponent is far from the ends of the range, and the binary
number next to it. -/
structure Near (d : Decimal) (m k : Nat) : Prop where
  /-- There is a digit. -/
  pos : 0 < d.digits
  /-- There are no more than 15 digits. -/
  few : d.digits < 10 ^ 15
  /-- The number is not too small. -/
  low : -100 ≤ d.exponent
  /-- The number is not too great. -/
  high : d.exponent ≤ 100
  /-- The binary number is next to it. -/
  read : d.toBinary false = finite false m k

section Shortest

variable {d : Decimal} {m k : Nat}

theorem Near.value_bounds (h : Near d m k) :
    (10 : ℚ) ^ d.exponent ≤ d.value ∧ d.value ≤ 10 ^ 15 * 10 ^ d.exponent - 10 ^ d.exponent := by
  have hten : (0 : ℚ) < 10 ^ d.exponent := by positivity
  have hone : (1 : ℚ) ≤ d.digits := by exact_mod_cast h.pos
  have hfew : (d.digits : ℚ) + 1 ≤ 10 ^ 15 := by exact_mod_cast h.few
  have hlow := mul_le_mul_of_nonneg_right hone hten.le
  have hhigh := mul_le_mul_of_nonneg_right hfew hten.le
  unfold value
  constructor <;> linarith

theorem Near.unit_le (h : Near d m k) : (1 : ℚ) / unitsPerOne ≤ 10 ^ d.exponent / 10 ^ 100 := by
  have hsmall : (10 : ℚ) ^ (-100 : ℤ) ≤ 10 ^ d.exponent := zpow_le_zpow_right₀ (by norm_num) h.low
  calc (1 : ℚ) / unitsPerOne ≤ 1 / 10 ^ 210 := one_div_le_one_div_of_le (by positivity) ten_pow_le_unitsPerOne
    _ ≤ 10 ^ (-100 : ℤ) / 10 ^ 100 := by norm_num
    _ ≤ 10 ^ d.exponent / 10 ^ 100 := div_le_div_of_nonneg_right hsmall (by positivity)

theorem Near.ofRatio_eq (h : Near d m k) : ofRatio false d.ratio.1 d.ratio.2 = finite false m k := by
  rw [← h.read]
  refine (toBinary_eq_ofRatio (ratio_pos d) (value_eq_ratio d).symm h.pos.ne' ?_ ?_).symm
  · linarith [h.low]
  · linarith [h.high]

theorem Near.rounds (h : Near d m k) : Rounds d.value m k := by
  rw [← value_eq_ratio]
  exact rounds_of_ofRatio (ratio_pos d) h.ofRatio_eq

/-- The smallest positive number is small compared with the binary number. -/
theorem Near.unit_le_size (h : Near d m k) : (1 : ℚ) / unitsPerOne ≤ size m k / 2 ^ 52 := by
  have hunit := h.unit_le
  have herror := abs_le.mp h.rounds.error_le
  have hvalue := h.value_bounds.1
  have hpos : (0 : ℚ) ≤ 1 / unitsPerOne := by positivity
  linarith [herror.2]

theorem Near.size_pos (h : Near d m k) : 0 < size m k := by
  have hone := cast_unitsPerOne_pos
  have hpos : (0 : ℚ) < 1 / unitsPerOne := by positivity
  linarith [h.unit_le_size]

theorem Near.abs_sub_size (h : Near d m k) : |d.value - size m k| ≤ size m k / 2 ^ 52 := by
  refine h.rounds.error_le.trans ?_
  linarith [h.unit_le_size]

/-- Where the point of the binary number stands. -/
theorem Near.place_bounds (h : Near d m k) :
    (10 : ℚ) ^ (pointPlace (units m k) unitsPerOne - 1) ≤ size m k ∧
      size m k < 10 ^ pointPlace (units m k) unitsPerOne := by
  have hunits : 0 < units m k := by
    rw [Nat.pos_iff_ne_zero]
    intro hzero
    have := h.size_pos
    rw [size, hzero] at this
    simp at this
  exact pointPlace_bounds hunits unitsPerOne_pos

theorem ten_zpow_sub (e : ℤ) : (10 : ℚ) ^ e = 10 ^ 15 * 10 ^ (e - 15) := by
  rw [← zpow_natCast (10 : ℚ) 15, ← zpow_add₀ (by norm_num)]
  congr 1
  push_cast
  ring

/-- The number has no digit behind the fifteenth of the binary number. -/
theorem Near.onGrid (h : Near d m k) : OnGrid (pointPlace (units m k) unitsPerOne - 15) d.value := by
  obtain ⟨hlow, -⟩ := h.place_bounds
  refine onGrid_value (not_lt.mp fun hlt => ?_)
  -- otherwise all its digits stand behind the first one of the binary number, which is next to it
  have hstep : (10 : ℚ) ^ (d.exponent + 15) ≤ 10 ^ (pointPlace (units m k) unitsPerOne - 1) :=
    zpow_le_zpow_right₀ (by norm_num) (by omega)
  rw [ten_zpow_sub (d.exponent + 15), add_sub_cancel_right] at hstep
  have hten : (0 : ℚ) < 10 ^ d.exponent := by positivity
  have hnear := abs_le.mp h.abs_sub_size
  linarith [h.value_bounds.2, hnear.1]

theorem Near.significand_ne_zero (h : Near d m k) : m ≠ 0 := by
  rintro rfl
  have := h.size_pos
  simp [size, units] at this

/-- A decimal number of up to 15 digits that reads back is the number itself. -/
theorem Near.value_unique (h : Near d m k) {c : Decimal}
    (hplace : pointPlace (units m k) unitsPerOne - 15 ≤ c.exponent)
    (hread : c.toBinary false = finite false m k) :
    c.value = d.value := by
  refine (onGrid_value hplace).eq h.onGrid ?_
  have hnear := (rounds_of_toBinary h.significand_ne_zero hread).abs_sub_le h.rounds
  have hhigh := h.place_bounds.2
  rw [ten_zpow_sub] at hhigh
  have hten : (0 : ℚ) < 10 ^ (pointPlace (units m k) unitsPerOne - 15) := by positivity
  linarith [h.unit_le_size, h.size_pos]

/-- A decimal number with its value reads back. -/
theorem Near.read_of_value (h : Near d m k) {c : Decimal} (hvalue : c.value = d.value)
    (hlow : -400 ≤ c.exponent) (hhigh : c.exponent ≤ 400) : c.toBinary false = finite false m k := by
  have hdigits : c.digits ≠ 0 := by
    intro hzero
    have hten : (0 : ℚ) < 10 ^ d.exponent := by positivity
    have := h.value_bounds.1
    rw [← hvalue, value, hzero, Nat.cast_zero, zero_mul] at this
    linarith
  rw [← value_eq_ratio d] at hvalue
  rw [toBinary_eq_ofRatio (ratio_pos d) hvalue hdigits hlow hhigh, h.ofRatio_eq]

theorem eq_or_eq_succ {t q : ℚ} (ht : 0 < t) {n : ℤ} {b : ℕ} (hbelow : b * t ≤ q) (habove : q < (b + 1 : ℕ) * t)
    (hnear : |n * t - q| < t) : n = b ∨ n = (b + 1 : ℕ) := by
  obtain ⟨hlow, hhigh⟩ := abs_lt.mp hnear
  push_cast at habove
  have hlower : (b : ℚ) - 1 < n := lt_of_mul_lt_mul_right (by linarith) ht.le
  have hupper : (n : ℚ) < b + 2 := lt_of_mul_lt_mul_right (by linarith) ht.le
  have hlower' : (b : ℤ) - 1 < n := by exact_mod_cast hlower
  have hupper' : n < (b : ℤ) + 2 := by exact_mod_cast hupper
  omega

/-- With 15 digits one of the neighbours is the number. -/
theorem Near.neighbour (h : Near d m k) :
    (neighbours (units m k) unitsPerOne 15).1.value = d.value ∨
      (neighbours (units m k) unitsPerOne 15).2.value = d.value := by
  obtain ⟨n, hn⟩ := h.onGrid
  obtain ⟨hbelow, habove⟩ := floor_neighbours (units m k) 15 unitsPerOne_pos
  obtain ⟨hvalue, hvalue'⟩ := neighbours_value (units m k) unitsPerOne 15
  have hten : (0 : ℚ) < 10 ^ (pointPlace (units m k) unitsPerOne - 15) := by positivity
  have hnear : |d.value - size m k| < 10 ^ (pointPlace (units m k) unitsPerOne - 15) := by
    refine h.abs_sub_size.trans_lt ?_
    have hhigh := h.place_bounds.2
    rw [ten_zpow_sub] at hhigh
    linarith
  rw [hn] at hnear
  rw [hvalue] at hbelow ⊢
  rw [hvalue'] at habove ⊢
  rw [hn]
  rcases eq_or_eq_succ hten hbelow habove hnear with rfl | rfl
  · exact Or.inl rfl
  · exact Or.inr rfl

/-- The exponents of its neighbours are not too far from zero to be read. -/
theorem Near.place_range (h : Near d m k) :
    -101 < pointPlace (units m k) unitsPerOne ∧ pointPlace (units m k) unitsPerOne < 117 := by
  obtain ⟨hlow, hhigh⟩ := h.place_bounds
  obtain ⟨hvalue, hvalue'⟩ := h.value_bounds
  have hnear := abs_le.mp h.abs_sub_size
  have hten : (0 : ℚ) < 10 ^ d.exponent := by positivity
  have hless : (10 : ℚ) ^ (d.exponent - 1) < 10 ^ pointPlace (units m k) unitsPerOne := by
    refine lt_of_lt_of_le ?_ hhigh.le
    rw [zpow_sub_one₀ (by norm_num)]
    linarith [hnear.2, h.size_pos]
  have hgreater : (10 : ℚ) ^ (pointPlace (units m k) unitsPerOne - 1) < 10 ^ (d.exponent + 1 + 15) := by
    refine lt_of_le_of_lt hlow ?_
    rw [ten_zpow_sub, add_sub_cancel_right, zpow_add_one₀ (by norm_num)]
    linarith [hnear.1, h.size_pos]
  have hexp := (zpow_lt_zpow_iff_right₀ (by norm_num)).mp hless
  have hexp' := (zpow_lt_zpow_iff_right₀ (by norm_num)).mp hgreater
  constructor <;> linarith [h.low, h.high]

theorem Near.shortestFrom_value (h : Near d m k) (tries n : Nat) (hn : n ≤ 15) (htries : 15 < n + tries) :
    (shortestFrom (finite false m k) (units m k) unitsPerOne tries n).value = d.value := by
  induction tries generalizing n with
  | zero => omega
  | succ tries ih =>
      unfold shortestFrom
      cases hdigits : withDigits? (finite false m k) (units m k) unitsPerOne n with
      | some c =>
          obtain ⟨hc, hread⟩ := withDigits?_eq_some hdigits
          rw [Option.getD_some]
          refine h.value_unique ?_ hread
          obtain ⟨hplace, hplace'⟩ := neighbours_exponent (units m k) unitsPerOne n
          rcases hc with rfl | rfl <;> omega
      | none =>
          have hne : n ≠ 15 := by
            rintro rfl
            obtain ⟨hbelow, habove⟩ := withDigits?_eq_none hdigits
            obtain ⟨hplace, hplace'⟩ := neighbours_exponent (units m k) unitsPerOne 15
            obtain ⟨hlow, hhigh⟩ := h.place_range
            rcases h.neighbour with hvalue | hvalue
            · exact hbelow (h.read_of_value hvalue (by omega) (by omega))
            · exact habove (h.read_of_value hvalue (by omega) (by omega))
          rw [Option.getD_none]
          exact ih (n + 1) (by omega) (by omega)

/-- **A decimal number of up to 15 digits is written as it was read.** -/
theorem Near.shortest_value (h : Near d m k) : (shortest m k).value = d.value :=
  h.shortestFrom_value 17 1 (by decide) (by decide)

end Shortest

/-! ### Zeros at the end -/

theorem toDigits_mul_ten {n : Nat} (hn : 0 < n) : Nat.toDigits 10 (n * 10) = Nat.toDigits 10 n ++ ['0'] := by
  rw [Nat.toDigits_eq_if (by decide), if_neg (by omega), Nat.mul_div_cancel _ (by decide), Nat.mul_mod_left]
  rfl

theorem digitsAndPlace_mul_ten {n : Nat} (hn : 0 < n) (e : ℤ) :
    digitsAndPlace ⟨n * 10, e⟩ = digitsAndPlace ⟨n, e + 1⟩ := by
  unfold digitsAndPlace
  simp only [toDigits_mul_ten hn, Text.dropRightWhile_eq_rdropWhile, List.rdropWhile_concat, List.length_append]
  simp
  omega

theorem digitsAndPlace_mul_ten_pow {n : Nat} (hn : 0 < n) (e : ℤ) (k : Nat) :
    digitsAndPlace ⟨n * 10 ^ k, e⟩ = digitsAndPlace ⟨n, e + k⟩ := by
  induction k generalizing e with
  | zero => simp
  | succ k ih =>
      rw [pow_succ, ← mul_assoc, digitsAndPlace_mul_ten (Nat.mul_pos hn (Nat.pow_pos (by decide))), ih]
      congr 2
      push_cast
      ring

theorem digitsAndPlace_eq_of_le {d d' : Decimal} (hpos : 0 < d.digits) (h : d.value = d'.value)
    (hle : d.exponent ≤ d'.exponent) : d.digitsAndPlace = d'.digitsAndPlace := by
  obtain ⟨k, hk⟩ := Int.eq_ofNat_of_zero_le (by omega : 0 ≤ d'.exponent - d.exponent)
  have hsplit : d'.exponent = d.exponent + k := by omega
  have hten : (10 : ℚ) ^ d.exponent ≠ 0 := by positivity
  have hscaled : d.value = (d'.digits * 10 ^ k : ℕ) * 10 ^ d.exponent := by
    rw [h, value, hsplit, zpow_add₀ (by norm_num), zpow_natCast]
    push_cast
    ring
  have hdigits : d.digits = d'.digits * 10 ^ k := by
    exact_mod_cast mul_right_cancel₀ hten hscaled
  have hpos' : 0 < d'.digits := by
    rw [Nat.pos_iff_ne_zero]
    intro hzero
    rw [hzero, zero_mul] at hdigits
    omega
  have hmul := digitsAndPlace_mul_ten_pow hpos' d.exponent k
  rwa [← hdigits, ← hsplit] at hmul

/-- The digits in front of zeros at the end, and the place of the point, depend on the value alone. -/
theorem digitsAndPlace_eq_of_value {d d' : Decimal} (hpos : 0 < d.digits) (h : d.value = d'.value) :
    d.digitsAndPlace = d'.digitsAndPlace := by
  have hpos' : 0 < d'.digits := by
    have hvalue : 0 < d.value := mul_pos (by exact_mod_cast hpos) (by positivity)
    rw [Nat.pos_iff_ne_zero]
    intro hzero
    rw [h, value, hzero, Nat.cast_zero, zero_mul] at hvalue
    exact hvalue.false
  rcases le_total d.exponent d'.exponent with hle | hle
  · exact digitsAndPlace_eq_of_le hpos h hle
  · exact (digitsAndPlace_eq_of_le hpos' h.symm hle).symm

theorem Near.toText {d : Decimal} {m k : Nat} (h : Near d m k) (l : Layout) :
    (finite false m k).toText l = layOut l d.digitsAndPlace.1 d.digitsAndPlace.2 := by
  obtain ⟨m, rfl⟩ := Nat.exists_eq_succ_of_ne_zero h.significand_ne_zero
  unfold Binary64.toText
  rw [digitsAndPlace_eq_of_value h.pos h.shortest_value.symm]
  rfl

/-! ### Hundredths -/

/-- The text of so many hundredths: at least one digit behind the point, and a second one
unless it is a zero. -/
def hundredths (n : Nat) : Text :=
  Nat.toDigits 10 (n / 100) ++ '.' :: (n / 10 % 10).digitChar ::
    (if n % 10 = 0 then [] else [(n % 10).digitChar])

theorem toDigits_two {n : Nat} (h : 10 ≤ n) :
    Nat.toDigits 10 n = Nat.toDigits 10 (n / 10) ++ [(n % 10).digitChar] := by
  rw [Nat.toDigits_eq_if (by decide), if_neg (by omega)]

theorem digitChar_beq_zero {n : Nat} (h : n < 10) : (n.digitChar == '0') = decide (n = 0) := by
  revert n
  decide

theorem dropZeros_append (t : Text) :
    t.rdropWhile (· == '0') ++ List.replicate (t.length - (t.rdropWhile (· == '0')).length) '0' = t := by
  have hsplit := List.rdropWhile_append_rtakeWhile (p := (· == '0')) (l := t)
  have hzeros : t.rtakeWhile (· == '0') = List.replicate (t.rtakeWhile (· == '0')).length '0' :=
    List.eq_replicate_of_mem fun c hc => by simpa using List.mem_rtakeWhile_imp hc
  have hlength := congrArg List.length hsplit
  rw [List.length_append] at hlength
  have hcount : t.length - (t.rdropWhile (· == '0')).length = (t.rtakeWhile (· == '0')).length := by omega
  rw [hcount, ← hzeros, hsplit]

theorem layOut_hundredths_small : ∀ n < 100, 0 < n →
    layOut .json (digitsAndPlace ⟨n, -2⟩).1 (digitsAndPlace ⟨n, -2⟩).2 = hundredths n := by
  decide

theorem layOut_whole {w fraction : Text} (hw : w ≠ []) (hlength : w.length ≤ 16) (hfraction : fraction ≠ []) :
    layOut .json (w ++ fraction) w.length = w ++ '.' :: fraction := by
  have hleast : Layout.json.leastPlace = -3 := rfl
  have hgreatest : Layout.json.greatestPlace = 16 := rfl
  have hpos := List.length_pos_of_ne_nil hw
  unfold layOut
  rw [hleast, hgreatest, if_pos (by simp; omega), if_neg (by omega)]
  simp [hfraction]

theorem layOut_zeros {w : Text} (hw : w ≠ []) (hlength : w.length ≤ 16) :
    layOut .json (w.rdropWhile (· == '0')) w.length = w ++ ['.', '0'] := by
  have hleast : Layout.json.leastPlace = -3 := rfl
  have hgreatest : Layout.json.greatestPlace = 16 := rfl
  have hpos := List.length_pos_of_ne_nil hw
  have hle : (w.rdropWhile (· == '0')).length ≤ w.length := (List.rdropWhile_prefix _ w).length_le
  unfold layOut
  rw [hleast, hgreatest, if_pos (by simp; omega), if_neg (by omega)]
  simp only [Int.toNat_natCast]
  rw [List.take_of_length_le hle, List.drop_of_length_le hle, dropZeros_append]
  rfl

theorem layOut_hundredths {n : Nat} (hpos : 0 < n) (hlt : n < 10 ^ 15) :
    layOut .json (digitsAndPlace ⟨n, -2⟩).1 (digitsAndPlace ⟨n, -2⟩).2 = hundredths n := by
  rcases lt_or_ge n 100 with hsmall | hhundred
  · exact layOut_hundredths_small n hsmall hpos
  obtain ⟨w, hw⟩ : ∃ w, Nat.toDigits 10 (n / 100) = w := ⟨_, rfl⟩
  have hne : w ≠ [] := hw ▸ List.ne_nil_of_length_pos Nat.length_toDigits_pos
  have hlength : w.length ≤ 16 := by
    rw [← hw]
    exact (Nat.length_toDigits_le_iff (by decide) (by decide)).mpr (by omega)
  have hdigits : Nat.toDigits 10 n = w ++ [(n / 10 % 10).digitChar] ++ [(n % 10).digitChar] := by
    rw [toDigits_two (by omega), toDigits_two (n := n / 10) (by omega), Nat.div_div_eq_div_mul, hw]
  have hplace : (((w ++ [(n / 10 % 10).digitChar] ++ [(n % 10).digitChar]).length : ℤ) + -2) = w.length := by
    simp only [List.length_append, List.length_singleton]
    push_cast
    ring
  unfold digitsAndPlace hundredths
  simp only [hdigits, hw, hplace, Text.dropRightWhile_eq_rdropWhile, List.rdropWhile_concat]
  rw [digitChar_beq_zero (Nat.mod_lt _ (by decide)), digitChar_beq_zero (Nat.mod_lt _ (by decide))]
  by_cases hlast : n % 10 = 0
  · by_cases htenth : n / 10 % 10 = 0
    · simp only [hlast, htenth, decide_true, if_true]
      exact layOut_zeros hne hlength
    · simp only [hlast, htenth, decide_true, decide_false, if_true, Bool.false_eq_true, if_false]
      exact layOut_whole hne hlength (by simp)
  · simp only [hlast, decide_false, Bool.false_eq_true, if_false]
    rw [List.append_assoc]
    exact layOut_whole hne hlength (by simp)

/-- So many hundredths, rounded to a binary number, are written in full. -/
theorem toText_hundredths {n m k : Nat} (hlt : n < 10 ^ 15) (h : ofRatio false n 100 = finite false m k) :
    (finite false m k).toText .json = hundredths n := by
  rcases Nat.eq_zero_or_pos n with rfl | hpos
  · have hzero : ofRatio false 0 100 = finite false 0 0 := by decide +kernel
    rw [hzero] at h
    cases h
    decide
  · have hvalue : value ⟨n, -2⟩ = (n : ℚ) / (100 : ℕ) := by
      unfold value
      norm_num
      ring
    have hread : toBinary false ⟨n, -2⟩ = finite false m k := by
      rw [toBinary_eq_ofRatio (by decide) hvalue hpos.ne' (by norm_num) (by norm_num), h]
    have hnear : Near ⟨n, -2⟩ m k := ⟨hpos, hlt, by norm_num, by norm_num, hread⟩
    rw [hnear.toText, layOut_hundredths hpos hlt]

theorem notMem_toDigits_point (n : Nat) : '.' ∉ Nat.toDigits 10 n := by
  intro h
  have := Nat.isDigit_of_mem_toDigits (by decide) (by decide) h
  revert this
  decide

theorem digitChar_injective {a b : Nat} (ha : a < 10) (hb : b < 10) (h : a.digitChar = b.digitChar) :
    a = b := by
  rw [← Nat.toNat_digitChar_sub_48_of_lt_ten ha, h, Nat.toNat_digitChar_sub_48_of_lt_ten hb]

theorem toDigits_injective {a b : Nat} (h : Nat.toDigits 10 a = Nat.toDigits 10 b) : a = b := by
  rw [← Nat.ofDigitChars_ten_toDigits (n := a), h, Nat.ofDigitChars_ten_toDigits]

theorem hundredths_injective {a b : Nat} (h : hundredths a = hundredths b) : a = b := by
  have hcut := congrArg (Text.cut? '.') h
  rw [hundredths, hundredths, Text.cut?_append (notMem_toDigits_point _),
    Text.cut?_append (notMem_toDigits_point _)] at hcut
  obtain ⟨hdigits, hfraction⟩ := Prod.mk.inj (Option.some.inj hcut)
  have hwhole := toDigits_injective hdigits
  have htenth := digitChar_injective (Nat.mod_lt _ (by decide)) (Nat.mod_lt _ (by decide))
    (List.cons.inj hfraction).1
  have hlast : a % 10 = b % 10 := by
    have hrest := (List.cons.inj hfraction).2
    split at hrest <;> split at hrest
    · omega
    · cases hrest
    · cases hrest
    · exact digitChar_injective (Nat.mod_lt _ (by decide)) (Nat.mod_lt _ (by decide)) (List.cons.inj hrest).1
  omega

end Decimal

end SolidityKit
