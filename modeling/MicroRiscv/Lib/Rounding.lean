import Mathlib.Algebra.Order.Round
import Mathlib.Data.Int.Log
import Mathlib.Tactic.Linarith
import Mathlib.Tactic.Positivity
import Mathlib.Tactic.Ring

/-!
# Rounding to a binary precision

`roundTo p x` is the nearest number with `p` significant bits, the even one of two that are
equally near. The exponent is not bounded.

1. `abs_sub_roundTo`: the relative error is at most `2 ^ (-p)`.
2. `roundTo_natCast`: natural numbers below `2 ^ p` are kept.
3. `floor_roundTo_div`: the rounded quotient of such a number has the same integer part as the
   exact one.
-/

namespace Rounding

variable {F : Type*} [Field F] [LinearOrder F] [IsStrictOrderedRing F] [FloorRing F]

/-- The nearest integer, the even one at the midpoints. -/
def roundHalfEven (x : F) : ℤ :=
  if Int.fract x < 1 / 2 then ⌊x⌋
  else if 1 / 2 < Int.fract x then ⌊x⌋ + 1
  else if Even ⌊x⌋ then ⌊x⌋ else ⌊x⌋ + 1

/-- The unit in the last of `p` places. -/
def ulp (p : ℕ) (x : F) : F := 2 ^ (Int.log 2 |x| + 1 - p)

/-- The nearest number with `p` significant bits. -/
def roundTo (p : ℕ) (x : F) : F := roundHalfEven (x / ulp p x) * ulp p x

/-! ## 1. The error -/

theorem abs_sub_roundHalfEven (x : F) : |x - roundHalfEven x| ≤ 1 / 2 := by
  have hx : x - ⌊x⌋ = Int.fract x := rfl
  have h0 := Int.fract_nonneg x
  have h1 := Int.fract_lt_one x
  have hdown : Int.fract x ≤ 1 / 2 → |x - ⌊x⌋| ≤ 1 / 2 := by
    intro hle
    rw [hx, abs_of_nonneg h0]
    exact hle
  have hup : 1 / 2 ≤ Int.fract x → |x - ((⌊x⌋ + 1 : ℤ) : F)| ≤ 1 / 2 := by
    intro hge
    rw [Int.cast_add, Int.cast_one, abs_le]
    constructor <;> linarith
  unfold roundHalfEven
  split
  · next hlt => exact hdown hlt.le
  · next hlt =>
    split
    · next hgt => exact hup hgt.le
    · next hgt =>
      split
      · exact hdown (not_lt.mp hgt)
      · exact hup (not_lt.mp hlt)

theorem roundHalfEven_intCast (n : ℤ) : roundHalfEven (n : F) = n := by
  have hhalf : (0 : F) < 1 / 2 := one_half_pos
  rw [roundHalfEven, Int.fract_intCast, if_pos hhalf, Int.floor_intCast]

theorem ulp_pos (p : ℕ) (x : F) : 0 < ulp p x := zpow_pos two_pos _

/-- Half a unit is small against the number. -/
theorem ulp_le (p : ℕ) {x : F} (hx : x ≠ 0) : ulp p x / 2 ≤ |x| * 2 ^ (-(p : ℤ)) := by
  have hlog : (2 : F) ^ Int.log 2 |x| ≤ |x| := by
    have h := Int.zpow_log_le_self (R := F) Nat.one_lt_two (abs_pos.mpr hx)
    rwa [Nat.cast_ofNat] at h
  have hsplit : ulp p x / 2 = 2 ^ Int.log 2 |x| * 2 ^ (-(p : ℤ)) := by
    unfold ulp
    rw [sub_eq_add_neg, zpow_add₀ two_ne_zero, zpow_add_one₀ two_ne_zero]
    ring
  rw [hsplit]
  exact mul_le_mul_of_nonneg_right hlog (zpow_pos two_pos _).le

theorem abs_sub_roundTo (p : ℕ) (x : F) : |x - roundTo p x| ≤ |x| * 2 ^ (-(p : ℤ)) := by
  have hulp := ulp_pos p x
  rcases eq_or_ne x 0 with rfl | hx
  · have hzero : roundHalfEven (0 : F) = 0 := by
      have h := roundHalfEven_intCast (F := F) 0
      rwa [Int.cast_zero] at h
    rw [roundTo, zero_div, hzero, Int.cast_zero, zero_mul, sub_zero, abs_zero, zero_mul]
  · have hscale : x - roundTo p x =
        (x / ulp p x - roundHalfEven (x / ulp p x)) * ulp p x := by
      rw [sub_mul, div_mul_cancel₀ x hulp.ne', roundTo]
    calc |x - roundTo p x|
        = |x / ulp p x - roundHalfEven (x / ulp p x)| * ulp p x := by
          rw [hscale, abs_mul, abs_of_pos hulp]
      _ ≤ 1 / 2 * ulp p x := mul_le_mul_of_nonneg_right (abs_sub_roundHalfEven _) hulp.le
      _ = ulp p x / 2 := by ring
      _ ≤ |x| * 2 ^ (-(p : ℤ)) := ulp_le p hx

/-! ## 2. Numbers that are kept -/

theorem roundTo_natCast {p n : ℕ} (h : n < 2 ^ p) : roundTo p (n : F) = n := by
  have hulp := ulp_pos p (n : F)
  have hlog : Int.log 2 |(n : F)| = Nat.log 2 n := by
    rw [Nat.abs_cast, Int.log_natCast]
  obtain ⟨m, hm⟩ : ∃ m : ℤ, (n : F) / ulp p (n : F) = m := by
    rcases Nat.eq_zero_or_pos n with rfl | hpos
    · exact ⟨0, by rw [Nat.cast_zero, zero_div, Int.cast_zero]⟩
    · have hle : Nat.log 2 n + 1 ≤ p := (Nat.log_lt_iff_lt_pow Nat.one_lt_two hpos.ne').mpr h
      obtain ⟨d, hd⟩ := Nat.exists_eq_add_of_le hle
      refine ⟨n * 2 ^ d, ?_⟩
      have hexp : ((Nat.log 2 n : ℤ) + 1 - p) = -(d : ℤ) := by
        rw [hd]
        push_cast
        ring
      rw [ulp, hlog, hexp, zpow_neg, div_inv_eq_mul, zpow_natCast]
      push_cast
      rfl
  rw [roundTo, hm, roundHalfEven_intCast, ← hm, div_mul_cancel₀ _ hulp.ne']

/-! ## 3. Quotients -/

/-- Rounding the quotient of a number with at most `p` bits keeps its integer part. -/
theorem floor_roundTo_div {p a b : ℕ} (ha : a < 2 ^ p) :
    ⌊roundTo p ((a : F) / b)⌋ = (a / b : ℕ) := by
  rcases Nat.eq_zero_or_pos b with rfl | hb
  · rw [Nat.cast_zero, div_zero, Nat.div_zero]
    have hzero := roundTo_natCast (F := F) (Nat.two_pow_pos p)
    rw [Nat.cast_zero] at hzero
    rw [hzero, Int.floor_zero, Nat.cast_zero]
  · have hbF : (0 : F) < b := Nat.cast_pos.mpr hb
    -- the error is below 1 / b, and the fractions with denominator b are that far apart
    have herr : |(a : F) / b - roundTo p ((a : F) / b)| < 1 / b := by
      refine lt_of_le_of_lt (abs_sub_roundTo p _) ?_
      have hlt : (a : F) < 2 ^ p := by exact_mod_cast ha
      rw [abs_of_nonneg (div_nonneg (Nat.cast_nonneg a) hbF.le), zpow_neg, zpow_natCast,
        ← div_eq_mul_inv, div_div, div_lt_div_iff₀ (by positivity) hbF, one_mul]
      calc (a : F) * b < 2 ^ p * b := mul_lt_mul_of_pos_right hlt hbF
        _ = b * 2 ^ p := mul_comm _ _
    rw [abs_lt] at herr
    have hsplit : (a : F) / b = (a / b : ℕ) + (a % b : ℕ) / b := by
      rw [div_eq_iff hbF.ne', add_mul, div_mul_cancel₀ _ hbF.ne']
      exact_mod_cast (Nat.div_add_mod' a b).symm
    rcases Nat.eq_zero_or_pos (a % b) with hzero | hpos
    · rw [hzero, Nat.cast_zero, zero_div, add_zero] at hsplit
      rw [hsplit, roundTo_natCast (Nat.lt_of_le_of_lt (Nat.div_le_self a b) ha), Int.floor_natCast]
    · have hlow : (1 : F) / b ≤ (a % b : ℕ) / b :=
        div_le_div_of_nonneg_right (by exact_mod_cast hpos) hbF.le
      have hhigh : ((a % b : ℕ) : F) / b ≤ 1 - 1 / b := by
        rw [le_sub_iff_add_le, ← add_div, div_le_one hbF]
        exact_mod_cast Nat.mod_lt a hb
      rw [Int.floor_eq_iff, Int.cast_natCast]
      constructor <;> linarith

end Rounding
