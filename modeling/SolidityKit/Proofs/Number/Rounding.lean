/-
How far a rounded number is from the exact one.

Every operation rounds one exact quotient.  What is known of the outcome is kept in one structure, `Rounds`:
the error is at most half a step, and the significand has all of its 53 bits unless the number is among the
very smallest ones.  From it come the bound on the relative error (`Rounds.error_le`) and the bound on the
distance of two quotients with one rounding (`Rounds.abs_sub_le`).

That the sum with one half loses nothing that matters to its whole part is another kind of fact
(`floor?_addHalf`): the rounding of the sum moves it by half a step at most, and the next whole number is a
full step away, unless the sum is just below one.

The number of units in one is far too great to be written down, so that it is kept closed here, and is opened
only as a power of two with a named exponent.
-/
import SolidityKit.Number.Binary64
import Mathlib

namespace SolidityKit.Binary64

/-! ### Units -/

theorem unitsPerOne_eq : unitsPerOne = 2 ^ unitDoublings := by
  unfold unitsPerOne
  generalize unitDoublings = n
  rfl

attribute [local irreducible] unitsPerOne unitDoublings

theorem unitsPerOne_pos : 0 < unitsPerOne := by
  rw [unitsPerOne_eq]
  exact Nat.two_pow_pos _

theorem cast_unitsPerOne_pos : (0 : ℚ) < unitsPerOne := by
  exact_mod_cast unitsPerOne_pos

theorem two_pow_le_unitsPerOne {k : Nat} (hk : k ≤ 1074) : (2 : ℚ) ^ k ≤ unitsPerOne := by
  have hone : unitDoublings = 1074 := by unfold unitDoublings; rfl
  have hle : 2 ^ k ≤ unitsPerOne := by
    rw [unitsPerOne_eq]
    exact Nat.pow_le_pow_right (by decide) (hone ▸ hk)
  exact_mod_cast hle

/-- The value of a finite number without its sign. -/
def size (m d : Nat) : ℚ := units m d / unitsPerOne

theorem size_nonneg (m d : Nat) : 0 ≤ size m d := by
  unfold size
  positivity

theorem size_mul (m d : Nat) : size m d * unitsPerOne = units m d :=
  div_mul_cancel₀ _ cast_unitsPerOne_pos.ne'

/-! ### Rounding a quotient -/

/-- The significand `m` and the doublings `d` are next to the number `q`. -/
structure Rounds (q : ℚ) (m d : Nat) : Prop where
  /-- The error is half of a step at most. -/
  error : |q * unitsPerOne - units m d| ≤ 2 ^ d / 2
  /-- All bits of the significand are used, unless the steps are the smallest ones. -/
  full : d = 0 ∨ 2 ^ 52 ≤ m
  /-- The significand has 53 bits. -/
  below : m < 2 ^ 53

theorem divHalfEven_error {b : Nat} (hb : 0 < b) (a : Nat) :
    |(a : ℚ) - divHalfEven a b * b| ≤ b / 2 := by
  have hsplit : (a : ℚ) = (a / b : ℕ) * b + (a % b : ℕ) := by
    exact_mod_cast (Nat.div_add_mod' a b).symm
  have hrest : ((a % b : ℕ) : ℚ) < b := by exact_mod_cast Nat.mod_lt a hb
  have hrest' : (0 : ℚ) ≤ (a % b : ℕ) := by positivity
  have hcases : divHalfEven a b = a / b ∧ 2 * (a % b) ≤ b ∨
      divHalfEven a b = a / b + 1 ∧ b ≤ 2 * (a % b) := by
    simp only [divHalfEven]
    split_ifs <;> omega
  rw [abs_le, hsplit]
  rcases hcases with ⟨hq, hr⟩ | ⟨hq, hr⟩
  · have hr : 2 * ((a % b : ℕ) : ℚ) ≤ b := by exact_mod_cast hr
    rw [hq]
    constructor <;> linarith
  · have hr : (b : ℚ) ≤ 2 * ((a % b : ℕ) : ℚ) := by exact_mod_cast hr
    rw [hq]
    push_cast
    constructor <;> linarith

/-- The number of doublings leaves 53 bits of the quotient. -/
theorem quotient_bounds {a b : Nat} :
    a / (b * 2 ^ (Nat.log2 (a / b) - 52)) < 2 ^ 53 ∧
      (Nat.log2 (a / b) - 52 = 0 ∨ 2 ^ 52 ≤ a / (b * 2 ^ (Nat.log2 (a / b) - 52))) := by
  rw [← Nat.div_div_eq_div_mul]
  generalize a / b = k
  have hlt : k < 2 ^ (Nat.log2 k + 1) := Nat.lt_log2_self
  constructor
  · refine Nat.div_lt_of_lt_mul ?_
    rw [← pow_add]
    exact hlt.trans_le (Nat.pow_le_pow_right (by decide) (by omega))
  · by_cases h0 : Nat.log2 k - 52 = 0
    · exact Or.inl h0
    · have hk : k ≠ 0 := by
        rintro rfl
        simp at h0
      have hle : 2 ^ Nat.log2 k ≤ k := Nat.log2_self_le hk
      refine Or.inr ((Nat.le_div_iff_mul_le (Nat.two_pow_pos _)).mpr ?_)
      rw [← pow_add]
      exact (Nat.pow_le_pow_right (by decide) (by omega)).trans hle

theorem rounds_nearest {b : Nat} (hb : 0 < b) (a : Nat) {q : ℚ} (hq : q * unitsPerOne * b = a) :
    Rounds q (nearest a b).1 (nearest a b).2 := by
  obtain ⟨hlt, hfull⟩ := quotient_bounds (a := a) (b := b)
  unfold nearest
  have hpow : ∀ k, Nat.pow 2 k = 2 ^ k := fun _ => rfl
  simp only [hpow]
  generalize hd : Nat.log2 (a / b) - 52 = d at *
  have hstep : 0 < b * 2 ^ d := Nat.mul_pos hb (Nat.two_pow_pos d)
  have herror := divHalfEven_error hstep a
  obtain ⟨hlow, hhigh⟩ := divHalfEven_bounds a (b * 2 ^ d)
  have hb' : (0 : ℚ) < b := by exact_mod_cast hb
  -- the error of the quotient, in units
  have hunits : |q * unitsPerOne - units (divHalfEven a (b * 2 ^ d)) d| ≤ 2 ^ d / 2 := by
    have hscaled : (a : ℚ) - divHalfEven a (b * 2 ^ d) * (b * 2 ^ d : ℕ) =
        (q * unitsPerOne - units (divHalfEven a (b * 2 ^ d)) d) * b := by
      rw [← hq, units, hpow]
      push_cast
      ring
    rw [hscaled, abs_mul, abs_of_pos hb'] at herror
    push_cast at herror
    refine le_of_mul_le_mul_right (herror.trans_eq ?_) hb'
    ring
  split
  · next hcarry =>
    refine ⟨?_, Or.inr le_rfl, by norm_num⟩
    have hsame : units (2 ^ 52) (d + 1) = units (2 ^ 53) d := by
      simp only [units, hpow]
      ring
    rw [hcarry, ← hsame] at hunits
    refine hunits.trans ?_
    rw [pow_succ]
    have : (0 : ℚ) < 2 ^ d := by positivity
    linarith
  · next hcarry =>
    refine ⟨hunits, ?_, ?_⟩
    · exact hfull.imp id fun h => h.trans hlow
    · dsimp only
      omega

/-- Rounding sees the quotient alone, and not how it is written. -/
theorem nearest_scale {k : Nat} (hk : 0 < k) (a b : Nat) : nearest (a * k) (b * k) = nearest a b := by
  have hround (c : Nat) : divHalfEven (a * k) (c * k) = divHalfEven a c := by
    simp only [divHalfEven, Nat.mul_div_mul_right _ _ hk, Nat.mul_mod_mul_right]
    have hleft : 2 * (a % c * k) = 2 * (a % c) * k := by ring
    rw [hleft]
    simp only [Nat.mul_lt_mul_right hk]
  have hstep (c : Nat) : divHalfEven (a * k) (b * k * c) = divHalfEven a (b * c) := by
    rw [Nat.mul_right_comm, hround]
  simp only [nearest, Nat.mul_div_mul_right _ _ hk, hstep]

theorem ofRatio_congr {num den num' den' : Nat} (hden : 0 < den) (hden' : 0 < den')
    (h : num * den' = num' * den)
    (negative : Bool) : ofRatio negative num den = ofRatio negative num' den' := by
  have hnearest (one : Nat) : nearest (num * one) den = nearest (num' * one) den' := by
    have hnum : num * one * den' = num' * one * den := by
      rw [Nat.mul_right_comm, h, Nat.mul_right_comm]
    rw [← nearest_scale hden' (num * one), ← nearest_scale hden (num' * one), hnum, Nat.mul_comm den]
  exact congrArg (bounded negative) (hnearest unitsPerOne)

theorem rounds_ratio (num : Nat) {den : Nat} (hden : 0 < den) :
    Rounds (num / den) (nearest (num * unitsPerOne) den).1 (nearest (num * unitsPerOne) den).2 := by
  refine rounds_nearest hden _ ?_
  have hden' : (den : ℚ) ≠ 0 := by exact_mod_cast hden.ne'
  push_cast
  field_simp

theorem bounded_eq_finite {negative s : Bool} {md : Nat × Nat} {m d : Nat}
    (h : bounded negative md = finite s m d) : md = (m, d) := by
  obtain ⟨m', d'⟩ := md
  simp only [bounded] at h
  split at h
  · cases h
    rfl
  · cases h

theorem rounds_of_ofRatio {negative s : Bool} {num den m d : Nat} (hden : 0 < den)
    (h : ofRatio negative num den = finite s m d) : Rounds (num / den) m d := by
  have hrounds := rounds_ratio num hden
  rwa [bounded_eq_finite h] at hrounds

theorem nearest_doublings_le (a b : Nat) : (nearest a b).2 ≤ Nat.log2 (a / b) - 52 + 1 := by
  unfold nearest
  dsimp only
  split <;> dsimp only <;> omega

/-- A quotient that is not too great has a finite number next to it. -/
theorem ofRatio_finite {num den k : Nat} (hden : 0 < den) (hk : k ≤ 900) (hle : num ≤ den * 2 ^ k)
    (negative : Bool) : ∃ m d, ofRatio negative num den = finite negative m d ∧ Rounds (num / den) m d := by
  have hlog : Nat.log2 (num * unitsPerOne / den) ≤ k + unitDoublings := by
    have hquot : num * unitsPerOne / den ≤ 2 ^ (k + unitDoublings) := by
      refine Nat.div_le_of_le_mul ?_
      calc num * unitsPerOne ≤ den * 2 ^ k * unitsPerOne := Nat.mul_le_mul_right _ hle
        _ = den * 2 ^ (k + unitDoublings) := by rw [unitsPerOne_eq, mul_assoc, ← pow_add]
    generalize num * unitsPerOne / den = n at hquot
    generalize k + unitDoublings = e at hquot
    rcases Nat.eq_zero_or_pos n with rfl | hpos
    · exact Nat.zero_le _
    · refine Nat.lt_succ_iff.mp ((Nat.log2_lt hpos.ne').mpr ?_)
      exact hquot.trans_lt (Nat.pow_lt_pow_right Nat.one_lt_two e.lt_succ_self)
  have hdoublings : (nearest (num * unitsPerOne) den).2 ≤ 2045 := by
    have hone : unitDoublings = 1074 := by unfold unitDoublings; rfl
    have := nearest_doublings_le (num * unitsPerOne) den
    omega
  have hrounds := rounds_ratio num hden
  unfold ofRatio
  generalize nearest (num * unitsPerOne) den = md at hdoublings hrounds
  obtain ⟨m, d⟩ := md
  exact ⟨m, d, if_pos hdoublings, hrounds⟩

/-! ### The size of the error -/

/-- The error is half of the 53rd bit of the number, or half of the smallest positive number. -/
theorem Rounds.error_le {q : ℚ} {m d : Nat} (h : Rounds q m d) :
    |q - size m d| ≤ size m d / 2 ^ 53 + 1 / unitsPerOne / 2 := by
  have hone := cast_unitsPerOne_pos
  have hstep : (2 : ℚ) ^ d / 2 ≤ units m d / 2 ^ 53 + 1 / 2 := by
    rcases h.full with rfl | hm
    · have : (0 : ℚ) ≤ units m 0 / 2 ^ 53 := by positivity
      linarith
    · have hunits : (2 : ℚ) ^ 52 * 2 ^ d ≤ units m d := by
        have hnat : 2 ^ 52 * 2 ^ d ≤ units m d := Nat.mul_le_mul_right _ hm
        exact_mod_cast hnat
      have hdiv : (2 : ℚ) ^ d / 2 ≤ units m d / 2 ^ 53 := by
        rw [div_le_div_iff₀ (by norm_num) (by norm_num)]
        linarith
      linarith
  have herror : |q - size m d| * unitsPerOne ≤ units m d / 2 ^ 53 + 1 / 2 := by
    rw [← abs_of_pos hone, ← abs_mul, sub_mul, size_mul]
    exact h.error.trans hstep
  rw [← size_mul] at herror
  refine le_of_mul_le_mul_right (herror.trans_eq ?_) hone
  field_simp

/-- Two quotients with the same rounding are close to each other. -/
theorem Rounds.abs_sub_le {q q' : ℚ} {m d : Nat} (h : Rounds q m d) (h' : Rounds q' m d) :
    |q - q'| ≤ size m d / 2 ^ 52 + 1 / unitsPerOne := by
  have hq := abs_le.mp h.error_le
  have hq' := abs_le.mp h'.error_le
  rw [abs_le]
  constructor <;> linarith [hq.1, hq.2, hq'.1, hq'.2]

theorem scale_finite {m d n k : Nat} (hk : k ≤ 900) (hsize : size m d * n ≤ 2 ^ k) (s : Bool) :
    ∃ m' d', (finite s m d).scale n = finite s m' d' ∧ Rounds (size m d * n) m' d' := by
  have hone := cast_unitsPerOne_pos
  have hle : units m d * n ≤ unitsPerOne * 2 ^ k := by
    have hscaled : size m d * n * unitsPerOne ≤ 2 ^ k * unitsPerOne := mul_le_mul_of_nonneg_right hsize hone.le
    rw [mul_right_comm, size_mul, mul_comm ((2 : ℚ) ^ k)] at hscaled
    exact_mod_cast hscaled
  obtain ⟨m', d', hscale, hrounds⟩ := ofRatio_finite unitsPerOne_pos hk hle s
  refine ⟨m', d', hscale, ?_⟩
  convert hrounds using 1
  unfold size
  push_cast
  ring

/-! ### Dropping the fraction of a sum with one half -/

/-- The step at which a number of units is rounded. -/
def step (s : Nat) : Nat := 2 ^ (Nat.log2 s - 52)

theorem units_nearest (a b : Nat) :
    units (nearest a b).1 (nearest a b).2 = divHalfEven a (b * step (a / b)) * step (a / b) := by
  unfold nearest units step
  have hpow : ∀ k, Nat.pow 2 k = 2 ^ k := fun _ => rfl
  simp only [hpow]
  split
  · next hcarry =>
    rw [hcarry]
    ring
  · rfl

/-- Rounding to a step stays below a multiple of a greater step, if that is more than half a step away. -/
theorem divHalfEven_mul_div {s step one : Nat} (hstep : 0 < step) (hdvd : step ∣ one)
    (hgap : step < 2 * ((s / one + 1) * one - s)) : divHalfEven s step * step / one = s / one := by
  obtain ⟨k, rfl⟩ := hdvd
  rw [Nat.mul_comm _ step, Nat.mul_div_mul_left _ _ hstep, ← Nat.div_div_eq_div_mul]
  rw [← Nat.div_div_eq_div_mul] at hgap
  have hsplit := Nat.div_add_mod s step
  have hrest := Nat.mod_lt s hstep
  have hcases : divHalfEven s step = s / step ∨ divHalfEven s step = s / step + 1 ∧ step ≤ 2 * (s % step) := by
    simp only [divHalfEven]
    split_ifs <;> omega
  rcases hcases with hdown | ⟨hup, hhalf⟩
  · rw [hdown]
  · rw [hup, Nat.succ_div, if_neg, Nat.add_zero]
    intro hdvd
    -- otherwise the next multiple would be one step up
    have hnext : (s / step / k + 1) * k = s / step + 1 := by
      rw [← Nat.succ_div_of_dvd hdvd, Nat.div_mul_cancel hdvd]
    have hvalue : (s / step / k + 1) * (step * k) = step * (s / step) + step := by
      rw [Nat.mul_left_comm, Nat.mul_comm _ k, Nat.mul_comm k, hnext]
      ring
    omega

theorem log2_eq {s p : Nat} (hlow : 2 ^ p ≤ s) (hhigh : s < 2 ^ (p + 1)) : Nat.log2 s = p := by
  have hs : s ≠ 0 := (Nat.two_pow_pos p).trans_le hlow |>.ne'
  exact (Nat.log2_eq_iff hs).mpr ⟨hlow, hhigh⟩

/-- The next multiple of `one` is more than half a step away. -/
def ClearOf (one s : Nat) : Prop := step s ∣ one ∧ step s < 2 * ((s / one + 1) * one - s)

section Sum

variable {m d h : Nat}

/-- A sum that is below one is clear of it, if it is by more than the last bit. -/
theorem clearOf_small (hh : 60 ≤ h) (hless : 2 ^ 53 * (m * 2 ^ d) + 2 ^ h < 2 ^ 53 * 2 ^ h) :
    ClearOf (2 ^ (h + 1)) (m * 2 ^ d + 2 ^ h) := by
  have hdouble : 2 ^ (h + 1) = 2 * 2 ^ h := by rw [pow_succ, Nat.mul_comm]
  have hfine : 2 ^ h = 2 ^ 52 * 2 ^ (h - 52) := by
    rw [← pow_add]
    congr 1
    omega
  have hsum : m * 2 ^ d + 2 ^ h < 2 ^ (h + 1) := by omega
  rw [ClearOf, step, log2_eq (Nat.le_add_left _ _) hsum]
  refine ⟨pow_dvd_pow 2 (by omega), ?_⟩
  rw [Nat.div_eq_of_lt hsum]
  omega

/-- A sum with as many bits as the first number has the same step, and so has the next multiple. -/
theorem clearOf_same (hdh : d ≤ h) (hlow : 2 ^ (d + 52) ≤ m * 2 ^ d) (hsum : m * 2 ^ d + 2 ^ h < 2 ^ (d + 53)) :
    ClearOf (2 ^ (h + 1)) (m * 2 ^ d + 2 ^ h) := by
  rw [ClearOf, step, log2_eq (hlow.trans (Nat.le_add_right _ _)) hsum, Nat.add_sub_cancel]
  refine ⟨pow_dvd_pow 2 (by omega), ?_⟩
  have hmultiple : m * 2 ^ d + 2 ^ h = 2 ^ d * (m + 2 ^ (h - d)) := by
    rw [Nat.mul_add, ← pow_add, Nat.mul_comm]
    congr 2
    omega
  have hlt := Nat.lt_div_mul_add (a := m * 2 ^ d + 2 ^ h) (Nat.two_pow_pos (h + 1))
  rw [← Nat.add_one_mul] at hlt
  have hgap : 2 ^ d ∣ ((m * 2 ^ d + 2 ^ h) / 2 ^ (h + 1) + 1) * 2 ^ (h + 1) - (m * 2 ^ d + 2 ^ h) := by
    refine Nat.dvd_sub ?_ ⟨_, hmultiple⟩
    exact Dvd.dvd.mul_left (pow_dvd_pow 2 (by omega)) _
  have hle := Nat.le_of_dvd (Nat.sub_pos_of_lt hlt) hgap
  have := Nat.two_pow_pos d
  omega

/-- A sum with one bit more is just above a power of two, and half of one away from the next multiple. -/
theorem clearOf_carry (hdh : d ≤ h) (hhd : h + 1 ≤ d + 53) (hhigh : m * 2 ^ d < 2 ^ (d + 53))
    (hsum : 2 ^ (d + 53) ≤ m * 2 ^ d + 2 ^ h) : ClearOf (2 ^ (h + 1)) (m * 2 ^ d + 2 ^ h) := by
  have hdouble : 2 ^ (h + 1) = 2 * 2 ^ h := by rw [pow_succ, Nat.mul_comm]
  have htop : m * 2 ^ d + 2 ^ h < 2 ^ (d + 53 + 1) := by
    have hhalf : 2 ^ h ≤ 2 ^ (d + 53) := Nat.pow_le_pow_right (by decide) (by omega)
    have := pow_succ 2 (d + 53)
    omega
  rw [ClearOf, step, log2_eq hsum htop, show d + 53 - 52 = d + 1 by omega]
  refine ⟨pow_dvd_pow 2 (by omega), ?_⟩
  obtain ⟨c, hc⟩ : ∃ c, 2 ^ (d + 53) = c * 2 ^ (h + 1) :=
    ⟨2 ^ (d + 53 - (h + 1)), by rw [← pow_add]; congr 1; omega⟩
  have hquot : (m * 2 ^ d + 2 ^ h) / 2 ^ (h + 1) = c := by
    refine Nat.div_eq_of_lt_le ?_ ?_
    · omega
    · rw [Nat.add_one_mul]
      omega
  have hstep : 2 ^ (d + 1) ≤ 2 ^ (h + 1) := Nat.pow_le_pow_right (by decide) (by omega)
  rw [hquot, Nat.add_one_mul c]
  omega

/-- The sum with one half is clear of the next whole number, unless the first number is next below one half. -/
theorem clearOf_sum (hh : 60 ≤ h) (hbelow : m < 2 ^ 53) (hsize : m * 2 ^ d < 2 ^ 15 * 2 ^ (h + 1))
    (haway : 2 ^ h ≤ m * 2 ^ d ∧ 2 ^ 52 ≤ m ∨ 2 ^ 53 * (m * 2 ^ d) + 2 ^ h < 2 ^ 53 * 2 ^ h) :
    ClearOf (2 ^ (h + 1)) (m * 2 ^ d + 2 ^ h) := by
  rcases haway with ⟨hhalf, hfull⟩ | hless
  · have hlow : 2 ^ (d + 52) ≤ m * 2 ^ d := by
      rw [pow_add, Nat.mul_comm]
      exact Nat.mul_le_mul_right _ hfull
    have hhigh : m * 2 ^ d < 2 ^ (d + 53) := by
      rw [pow_add, Nat.mul_comm (2 ^ d)]
      exact Nat.mul_lt_mul_of_pos_right hbelow (Nat.two_pow_pos d)
    have hdh : d ≤ h := by
      have hlt : 2 ^ (d + 52) < 2 ^ (15 + (h + 1)) := by
        rw [pow_add 2 15]
        exact hlow.trans_lt hsize
      have := (Nat.pow_lt_pow_iff_right Nat.one_lt_two).mp hlt
      omega
    have hhd : h + 1 ≤ d + 53 := (Nat.pow_lt_pow_iff_right Nat.one_lt_two).mp (hhalf.trans_lt hhigh)
    rcases lt_or_ge (m * 2 ^ d + 2 ^ h) (2 ^ (d + 53)) with hsame | hcarry
    · exact clearOf_same hdh hlow hsame
    · exact clearOf_carry hdh hhd hhigh hcarry
  · exact clearOf_small hh hless

end Sum

theorem floor?_finite (m d : Nat) : (finite false m d).floor? = some ((units m d / unitsPerOne : ℕ) : ℤ) := by
  simp only [floor?, Bool.false_eq_true, if_false]
  rw [Int.fdiv_eq_ediv_of_nonneg _ (Int.natCast_nonneg _), Int.natCast_ediv]

theorem unitsPerOne_double : ∃ h, 60 ≤ h ∧ unitsPerOne = 2 ^ (h + 1) := by
  have hdoublings : unitDoublings = 1073 + 1 := by unfold unitDoublings; rfl
  refine ⟨1073, by decide, ?_⟩
  rw [unitsPerOne_eq, hdoublings]

/-- In units, a number that is not next below one half is half a unit at least, or below it by more than
the last bit. -/
theorem half_or_below {m d h : Nat} (hh : 60 ≤ h) (hunit : unitsPerOne = 2 ^ (h + 1)) (hbelow : m < 2 ^ 53)
    (hfull : d = 0 ∨ 2 ^ 52 ≤ m) (haway : 1 / 2 ≤ size m d ∨ size m d + 1 / 2 ^ 54 < 1 / 2) :
    2 ^ h ≤ m * 2 ^ d ∧ 2 ^ 52 ≤ m ∨ 2 ^ 53 * (m * 2 ^ d) + 2 ^ h < 2 ^ 53 * 2 ^ h := by
  have hone := cast_unitsPerOne_pos
  have hdouble : 2 ^ (h + 1) = 2 * 2 ^ h := by rw [pow_succ, Nat.mul_comm]
  have hunits : units m d = m * 2 ^ d := rfl
  rcases haway with hge | hlt
  · have hscaled := mul_le_mul_of_nonneg_right hge hone.le
    rw [size_mul] at hscaled
    have hnat : unitsPerOne ≤ 2 * units m d := by
      have : (unitsPerOne : ℚ) ≤ 2 * units m d := by linarith
      exact_mod_cast this
    have hge : 2 ^ h ≤ m * 2 ^ d := by omega
    refine Or.inl ⟨hge, hfull.resolve_left ?_⟩
    rintro rfl
    have : 2 ^ 53 ≤ 2 ^ h := Nat.pow_le_pow_right (by decide) (by omega)
    omega
  · have hscaled := mul_lt_mul_of_pos_right hlt hone
    rw [add_mul, size_mul] at hscaled
    have hnat : 2 ^ 54 * units m d + unitsPerOne < 2 ^ 53 * unitsPerOne := by
      have : (2 : ℚ) ^ 54 * units m d + unitsPerOne < 2 ^ 53 * unitsPerOne := by linarith
      exact_mod_cast this
    right
    omega

/-- The sum with one half is rounded to its step. -/
theorem addHalf_units {m d : Nat} (hsum : units m d + unitsPerOne / 2 ≤ unitsPerOne * 2 ^ 16) :
    ∃ m' d', (finite false m d).addHalf = finite false m' d' ∧
      units m' d' = divHalfEven (units m d + unitsPerOne / 2) (step (units m d + unitsPerOne / 2)) *
        step (units m d + unitsPerOne / 2) := by
  obtain ⟨m', d', hfinite, -⟩ := ofRatio_finite unitsPerOne_pos (by decide) hsum false
  refine ⟨m', d', ?_, ?_⟩
  · simp only [addHalf, Bool.false_and, Bool.false_eq_true, if_false]
    exact hfinite
  · have hpair := bounded_eq_finite hfinite
    have hscale := nearest_scale unitsPerOne_pos (units m d + unitsPerOne / 2) 1
    rw [Nat.one_mul, hpair] at hscale
    have hrounded := units_nearest (units m d + unitsPerOne / 2) 1
    rwa [← hscale, Nat.one_mul, Nat.div_one] at hrounded

/-- **Adding one half and dropping the fraction is exact**, except for numbers next below one half. -/
theorem floor?_addHalf {m d : Nat} (hbelow : m < 2 ^ 53) (hfull : d = 0 ∨ 2 ^ 52 ≤ m)
    (hsize : size m d < 2 ^ 15) (haway : 1 / 2 ≤ size m d ∨ size m d + 1 / 2 ^ 54 < 1 / 2) :
    ((finite false m d).addHalf).floor? = some (⌊size m d + 1 / 2⌋₊ : ℤ) := by
  have hone := cast_unitsPerOne_pos
  obtain ⟨h, hh, hunit⟩ := unitsPerOne_double
  have hhalf : unitsPerOne / 2 = 2 ^ h := by
    rw [hunit, pow_succ, Nat.mul_div_cancel _ (by decide)]
  have hdouble : 2 ^ (h + 1) = 2 * 2 ^ h := by rw [pow_succ, Nat.mul_comm]
  have hunits : units m d = m * 2 ^ d := rfl
  have hbound : units m d < 2 ^ 15 * unitsPerOne := by
    have hscaled := mul_lt_mul_of_pos_right hsize hone
    rw [size_mul] at hscaled
    exact_mod_cast hscaled
  have hclear := clearOf_sum hh hbelow (by rw [← hunits, ← hunit]; exact hbound)
    (half_or_below hh hunit hbelow hfull haway)
  rw [← hunits, ← hhalf, ← hunit] at hclear
  -- the sum is rounded at a step of which one is a multiple
  obtain ⟨m', d', hadd, hrounded⟩ := addHalf_units (m := m) (d := d) (by omega)
  have hfloor : units m' d' / unitsPerOne = (units m d + unitsPerOne / 2) / unitsPerOne := by
    rw [hrounded]
    exact divHalfEven_mul_div (Nat.two_pow_pos _) hclear.1 hclear.2
  have hvalue : size m d + 1 / 2 = ((units m d + unitsPerOne / 2 : ℕ) : ℚ) / unitsPerOne := by
    have hone' : (unitsPerOne : ℚ) = 2 * (unitsPerOne / 2 : ℕ) := by
      have : unitsPerOne = 2 * (unitsPerOne / 2) := by omega
      exact_mod_cast this
    rw [eq_div_iff hone.ne', add_mul, size_mul]
    push_cast
    linarith
  rw [hadd, floor?_finite, hfloor, hvalue, Nat.floor_div_eq_div]

end SolidityKit.Binary64
