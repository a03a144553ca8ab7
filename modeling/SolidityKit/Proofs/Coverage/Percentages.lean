/-
Percentages and their second decimal.

A percentage is meant to be rounded half up to two decimals.  It is computed in floating-point numbers: a
quotient, its hundredfold, one half more, the whole part, and a quotient again.  Two of these steps are
harmless.  Adding one half and dropping the fraction is exact, since the hundredfold is never next below one
half (`hundredfold_away`), and a number of hundredths is written in full.

What is left is the error of the hundredfold, 2^-38 at most, and it matters only where a half lies in between
(`percentage_halfUp_iff`).  Up to 10^11 items every other percentage is farther from a half than that, so that
only a percentage that is an exact half can be lost, where the hundredfold falls short of it.  It does so for
41 of 4000 items.
-/
import SolidityKit.Coverage.Summary
import SolidityKit.Proofs.Number.Decimals
import Mathlib

namespace SolidityKit.Coverage

open Binary64 Decimal

attribute [local irreducible] unitsPerOne unitDoublings

/-! ### The exact percentage -/

section Exact

variable {c t : Nat}

/-- The percentage as a number of hundredths, without any rounding. -/
def exactHundredths (covered total : Nat) : ℚ := 10000 * covered / total

theorem exactHundredths_nonneg (c t : Nat) : 0 ≤ exactHundredths c t := by
  unfold exactHundredths
  positivity

/-- Twice the total measures how far a percentage is from a half. -/
theorem one_le_half_gap {k : Nat} (hpos : 0 < t) (hne : exactHundredths c t ≠ k - 1 / 2) :
    1 ≤ |exactHundredths c t - (k - 1 / 2)| * (2 * t) := by
  have hpos' : (0 : ℚ) < 2 * t := by
    have : (0 : ℚ) < t := by exact_mod_cast hpos
    linarith
  have hscaled : (exactHundredths c t - (k - 1 / 2)) * (2 * t) = (20000 * c - (2 * k - 1) * t : ℤ) := by
    unfold exactHundredths
    push_cast
    field_simp
    ring
  have hint : (20000 * c - (2 * k - 1) * t : ℤ) ≠ 0 := by
    intro hzero
    rw [hzero, Int.cast_zero] at hscaled
    exact hne (sub_eq_zero.mp ((mul_eq_zero.mp hscaled).resolve_right hpos'.ne'))
  rw [← abs_of_pos hpos', ← abs_mul, hscaled]
  exact_mod_cast Int.one_le_abs hint

/-- Up to 10^11 items a percentage is a half or farther from it than the error of the hundredfold. -/
theorem half_apart {k : Nat} (hpos : 0 < t) (hfew : t ≤ 10 ^ 11) (hne : exactHundredths c t ≠ k - 1 / 2) :
    1 / 2 ^ 38 < |exactHundredths c t - (k - 1 / 2)| := by
  have hgap := one_le_half_gap hpos hne
  have hfew' : (t : ℚ) ≤ 10 ^ 11 := by exact_mod_cast hfew
  by_contra hnear
  have := mul_le_mul_of_nonneg_right (not_lt.mp hnear) (by positivity : (0 : ℚ) ≤ 2 * t)
  linarith

theorem same_side {k : Nat} {y : ℚ} (hpos : 0 < t) (hfew : t ≤ 10 ^ 11)
    (hnear : |exactHundredths c t - y| ≤ 1 / 2 ^ 38) (hne : exactHundredths c t ≠ k - 1 / 2) :
    k - 1 / 2 ≤ y ↔ k - 1 / 2 ≤ exactHundredths c t := by
  have hapart := half_apart hpos hfew hne
  have hnear := abs_le.mp hnear
  rcases lt_abs.mp hapart with hbelow | habove
  · constructor <;> intro <;> linarith [hnear.2]
  · constructor <;> intro <;> linarith [hnear.1]

end Exact

/-- Two numbers round to the same one if no half lies between them. -/
theorem floor_half_eq_iff {x y : ℚ} (hx : 0 ≤ x) (hy : 0 ≤ y) :
    ⌊x + 1 / 2⌋₊ = ⌊y + 1 / 2⌋₊ ↔ ∀ k : ℕ, (k - 1 / 2 ≤ x ↔ k - 1 / 2 ≤ y) := by
  have hfloor {z : ℚ} (hz : 0 ≤ z) (k : ℕ) : k ≤ ⌊z + 1 / 2⌋₊ ↔ (k : ℚ) - 1 / 2 ≤ z := by
    rw [Nat.le_floor_iff (by linarith), sub_le_iff_le_add]
  constructor
  · intro heq k
    rw [← hfloor hx, heq, hfloor hy]
  · intro hsame
    refine eq_of_forall_le_iff fun k => ?_
    rw [hfloor hx, hsame, hfloor hy]

/-! ### The hundredfold of a percentage -/

theorem ofQuotient?_natCast (a b : Nat) : ofQuotient? a b = (ofRatio false a b).finite? := by
  have hsign : (decide ((a : ℤ) < 0) != decide ((b : ℤ) < 0)) = false := by
    rw [decide_eq_false (by omega), decide_eq_false (by omega)]
    rfl
  unfold ofQuotient?
  rw [hsign, Int.natAbs_natCast, Int.natAbs_natCast]

theorem unit_small : (1 : ℚ) / unitsPerOne ≤ 1 / 2 ^ 200 :=
  one_div_le_one_div_of_le (by positivity) (two_pow_le_unitsPerOne (by decide))

/-- The error of a number that was rounded twice, the second time after a multiplication by one hundred. -/
theorem error_hundredfold {q : ℚ} {m d m' d' : Nat} (h : Rounds q m d) (h' : Rounds (size m d * 100) m' d') :
    |100 * q - size m' d'| ≤ size m' d' / 2 ^ 52 + size m' d' / 2 ^ 100 + 1 / 2 ^ 100 := by
  have hunit := unit_small
  have hone := abs_le.mp h.error_le
  have htwo := abs_le.mp h'.error_le
  have hpos := size_nonneg m' d'
  rw [abs_le]
  constructor <;> linarith [hone.1, hone.2, htwo.1, htwo.2]

/-- The quotient and its hundredfold, each rounded. -/
theorem hundredfold_finite {c t : Nat} (hle : c ≤ t) (hpos : 0 < t) :
    ∃ m d m' d', ofRatio false (c * 100) t = finite false m d ∧ (finite false m d).scale 100 =
      finite false m' d' ∧ Rounds (size m d * (100 : ℕ)) m' d' ∧ size m' d' ≤ 10000 + 1 / 2 ∧
      |exactHundredths c t - size m' d'| ≤ size m' d' / 2 ^ 52 + size m' d' / 2 ^ 100 + 1 / 2 ^ 100 := by
  have hpos' : (0 : ℚ) < t := by exact_mod_cast hpos
  have hbound : c * 100 ≤ t * 2 ^ 7 := by omega
  obtain ⟨m, d, hquot, hrounds⟩ := ofRatio_finite hpos (by decide) hbound false
  have hunit := unit_small
  have hupper : ((c * 100 : ℕ) : ℚ) / t ≤ 100 := by
    rw [div_le_iff₀ hpos']
    exact_mod_cast (by omega : c * 100 ≤ 100 * t)
  have hone := abs_le.mp hrounds.error_le
  have hsize : size m d ≤ 100 + 1 / 1000 := by linarith [hone.1, size_nonneg m d]
  obtain ⟨m', d', hscale, hrounds'⟩ :=
    scale_finite (m := m) (d := d) (n := 100) (k := 14) (by decide) (by push_cast; linarith) false
  refine ⟨m, d, m', d', hquot, hscale, hrounds', ?_, ?_⟩
  · have htwo := abs_le.mp hrounds'.error_le
    push_cast at htwo
    linarith [htwo.1, size_nonneg m' d']
  · have herror := error_hundredfold hrounds hrounds'
    have hvalue : (100 : ℚ) * ((c * 100 : ℕ) / t) = exactHundredths c t := by
      unfold exactHundredths
      push_cast
      ring
    rwa [hvalue] at herror

/-- The hundredfold is never next below one half: below it is one half, or at least two steps away. -/
theorem hundredfold_away {c t m d m' d' : Nat} (hpos : 0 < t) (hdigits : t < 10 ^ 15)
    (hquot : ofRatio false (c * 100) t = finite false m d)
    (hscale : (finite false m d).scale 100 = finite false m' d')
    (herror : |exactHundredths c t - size m' d'| ≤ size m' d' / 2 ^ 52 + size m' d' / 2 ^ 100 + 1 / 2 ^ 100) :
    1 / 2 ≤ size m' d' ∨ size m' d' + 1 / 2 ^ 54 < 1 / 2 := by
  by_contra hbetween
  rw [not_or, not_le, not_lt] at hbetween
  obtain ⟨hless, hnext⟩ := hbetween
  have hpos' : (0 : ℚ) < t := by exact_mod_cast hpos
  have hdigits' : (t : ℚ) < 10 ^ 15 := by exact_mod_cast hdigits
  -- so the exact hundredfold is one half, whose rounding is one half
  have hexact : exactHundredths c t = (1 : ℕ) - 1 / 2 := by
    by_contra hne
    have hgap := one_le_half_gap hpos hne
    obtain ⟨hlow, hhigh⟩ := abs_le.mp herror
    have hnear : |exactHundredths c t - ((1 : ℕ) - 1 / 2)| ≤ 1 / 2 ^ 51 := by
      rw [abs_le]
      push_cast
      constructor <;> linarith
    have := mul_le_mul_of_nonneg_right hnear (by positivity : (0 : ℚ) ≤ 2 * t)
    linarith
  have htotal : t = 20000 * c := by
    rw [exactHundredths, div_eq_iff hpos'.ne'] at hexact
    have hscaled : (t : ℚ) = 20000 * c := by
      push_cast at hexact
      linarith
    exact_mod_cast hscaled
  have hsame : ofRatio false (c * 100) t = ofRatio false 1 200 :=
    ofRatio_congr hpos (by decide) (by omega) false
  have hhalf : (ofRatio false 1 200).scale 100 = finite false (2 ^ 52) 1021 := by decide +kernel
  rw [hsame] at hquot
  rw [hquot, hscale] at hhalf
  have hunits : units m' d' * 2 = unitsPerOne := by
    rw [(finite.inj hhalf).2.1, (finite.inj hhalf).2.2]
    decide +kernel
  have hone := cast_unitsPerOne_pos
  have hscaled := mul_lt_mul_of_pos_right hless hone
  rw [size_mul] at hscaled
  have hunits' : (units m' d' : ℚ) * 2 = unitsPerOne := by exact_mod_cast hunits
  linarith

/-! ### The percentage -/

section Percentage

variable {c t : Nat}

theorem required_bind {α β : Type} (fault : Fault) (a : α) (next : α → Except Fault β) :
    (required fault (some a) >>= next) = next a := rfl

/-- The percentage is laid out from the whole part of the hundredfold and one half. -/
theorem percentage_of_hundredfold {m d m' d' : Nat} (hpos : 0 < t)
    (hquot : ofRatio false (c * 100) t = finite false m d)
    (hscale : (finite false m d).scale 100 = finite false m' d')
    (hfloor : ((finite false m' d').addHalf).floor? = some (⌊size m' d' + 1 / 2⌋₊ : ℤ))
    (hsize : size m' d' ≤ 10000 + 1 / 2) :
    ∃ p, percentage c t = .ok (some p) ∧ p.toText .json = hundredths ⌊size m' d' + 1 / 2⌋₊ := by
  have hbound : ⌊size m' d' + 1 / 2⌋₊ ≤ 100 * 2 ^ 7 := by
    refine Nat.floor_le_of_le ?_
    push_cast
    linarith
  obtain ⟨m'', d'', hrounded, -⟩ := ofRatio_finite (by decide) (by decide) hbound false
  refine ⟨finite false m'' d'', ?_, toText_hundredths (by omega) hrounded⟩
  have hquot' : ofQuotient? ((c : ℤ) * 100) t = some (finite false m d) := by
    have hcast : (c : ℤ) * 100 = (c * 100 : ℕ) := by push_cast; rfl
    rw [hcast, ofQuotient?_natCast, hquot]
    rfl
  have hrounded' : ofQuotient? (⌊size m' d' + 1 / 2⌋₊ : ℤ) 100 = some (finite false m'' d'') := by
    have hcast : (100 : ℤ) = (100 : ℕ) := rfl
    rw [hcast, ofQuotient?_natCast, hrounded]
    rfl
  unfold percentage
  rw [if_neg (by omega), hquot', required_bind, hscale, hfloor, required_bind, hrounded', required_bind]
  rfl

/-- The hundredfold of the percentage in floating-point numbers. -/
def roundedHundredths (covered total : Nat) : Option Binary64 :=
  (ofQuotient? ((covered : ℤ) * 100) total).map (·.scale 100)

/--
**A percentage is rounded half up exactly if no half lies between the exact hundredfold and the computed one**,
which is no farther away than 2^-38.  Up to 10^11 items that is a matter of the percentages alone that are a
half themselves.
-/
theorem percentage_halfUp_iff (hle : c ≤ t) (hpos : 0 < t) (hdigits : t < 10 ^ 15) :
    ∃ m d p, roundedHundredths c t = some (finite false m d) ∧
      |exactHundredths c t - size m d| ≤ 1 / 2 ^ 38 ∧
      percentage c t = .ok (some p) ∧ p.toText .json = hundredths ⌊size m d + 1 / 2⌋₊ ∧
      (p.toText .json = hundredths ⌊exactHundredths c t + 1 / 2⌋₊ ↔
        ∀ k : ℕ, (k - 1 / 2 ≤ size m d ↔ k - 1 / 2 ≤ exactHundredths c t)) ∧
      (t ≤ 10 ^ 11 → (p.toText .json = hundredths ⌊exactHundredths c t + 1 / 2⌋₊ ↔
        ∀ k : ℕ, exactHundredths c t = k - 1 / 2 → exactHundredths c t ≤ size m d)) := by
  obtain ⟨m, d, m', d', hquot, hscale, hrounds, hsize, herror⟩ := hundredfold_finite hle hpos
  have haway := hundredfold_away hpos hdigits hquot hscale herror
  have hfloor := floor?_addHalf hrounds.below hrounds.full (by linarith) haway
  obtain ⟨p, hpercentage, htext⟩ := percentage_of_hundredfold hpos hquot hscale hfloor hsize
  have hnear : |exactHundredths c t - size m' d'| ≤ 1 / 2 ^ 38 := herror.trans (by linarith)
  have hiff : p.toText .json = hundredths ⌊exactHundredths c t + 1 / 2⌋₊ ↔
      ∀ k : ℕ, ((k : ℚ) - 1 / 2 ≤ size m' d' ↔ (k : ℚ) - 1 / 2 ≤ exactHundredths c t) := by
    rw [htext, ← floor_half_eq_iff (size_nonneg m' d') (exactHundredths_nonneg c t)]
    exact ⟨hundredths_injective, congrArg hundredths⟩
  refine ⟨m', d', p, ?_, hnear, hpercentage, htext, hiff, fun hfew => hiff.trans ⟨?_, ?_⟩⟩
  · have hcast : (c : ℤ) * 100 = (c * 100 : ℕ) := by push_cast; rfl
    rw [roundedHundredths, hcast, ofQuotient?_natCast, hquot, ← hscale]
    rfl
  · intro hsides k htie
    rw [htie]
    exact (hsides k).mpr htie.ge
  · intro hties k
    by_cases htie : exactHundredths c t = k - 1 / 2
    · rw [← htie]
      exact ⟨fun _ => le_rfl, fun _ => hties k htie⟩
    · exact same_side hpos hfew hnear htie

/-- Two of three items are reached. -/
theorem percentage_two_thirds :
    (2 ≤ 3 ∧ 0 < 3 ∧ 3 < 10 ^ 15) ∧ ∃ p, percentage 2 3 = .ok (some p) ∧ p.toText .json = "66.67".toList := by
  refine ⟨by decide, ?_⟩
  obtain ⟨m, d, p, -, -, hpercentage, -, -, hties⟩ :=
    percentage_halfUp_iff (c := 2) (t := 3) (by decide) (by decide) (by decide)
  refine ⟨p, hpercentage, ?_⟩
  have htext := (hties (by decide)).mpr fun k htie => absurd htie ?_
  · rw [htext]
    have hfloor : ⌊exactHundredths 2 3 + 1 / 2⌋₊ = 6667 := by
      rw [exactHundredths, Nat.floor_eq_iff (by norm_num)]
      norm_num
    rw [hfloor]
    decide
  · unfold exactHundredths
    intro htie
    have hscaled : 6 * (k : ℚ) = 40003 := by
      push_cast at htie
      linarith
    have hnat : 6 * k = 40003 := by exact_mod_cast hscaled
    omega

/-- An exact half can be lost: 41 of 4000 items are 1.025 percent, and are written as 1.02. -/
theorem percentage_half_lost :
    ¬ ∀ c t : Nat, c ≤ t → 0 < t → t < 10 ^ 15 →
      ∃ p, percentage c t = .ok (some p) ∧ p.toText .json = hundredths ⌊exactHundredths c t + 1 / 2⌋₊ := by
  intro h
  obtain ⟨p, hpercentage, htext⟩ := h 41 4000 (by decide) (by decide) (by decide)
  have hp : (percentage 41 4000).toOption.map (·.map (·.toText .json)) = some (some "1.02".toList) := by
    decide +kernel
  have hfloor : ⌊exactHundredths 41 4000 + 1 / 2⌋₊ = 103 := by
    rw [exactHundredths, Nat.floor_eq_iff (by norm_num)]
    norm_num
  rw [hfloor] at htext
  push_cast at hpercentage
  rw [hpercentage] at hp
  have hlost := Option.some.inj (Option.some.inj hp)
  exact absurd (htext.symm.trans hlost) (by decide)

end Percentage

end SolidityKit.Coverage
