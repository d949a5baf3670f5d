import Mathlib.Data.BitVec
import Mathlib.Tactic.Linarith
import Mathlib.Tactic.Positivity

/-!
# Bit vectors: concatenation and shifts

Facts about `BitVec` at any width that the hardware models use: a concatenation is
determined by its parts, when a shift by the whole shift amount agrees with a shift by
the amount modulo the width, and when a vector is the sign extension of its low bits.
-/

namespace Bits

variable {v w : Nat}

/-- Two concatenations of the same shape are equal iff their parts are. -/
theorem append_inj {a c : BitVec v} {b d : BitVec w} : a ++ b = c ++ d ↔ a = c ∧ b = d := by
  constructor
  · intro h
    have hl := congrArg (BitVec.extractLsb' w v) h
    have hr := congrArg (BitVec.extractLsb' 0 w) h
    rw [BitVec.extractLsb'_append_eq_left, BitVec.extractLsb'_append_eq_left] at hl
    rw [BitVec.extractLsb'_append_eq_right, BitVec.extractLsb'_append_eq_right] at hr
    exact ⟨hl, hr⟩
  · rintro ⟨rfl, rfl⟩
    rfl

/-! ## Shifts by an amount that may exceed the width -/

/-- A left shift agrees with the shift by the reduced amount iff the amount is below the
width or the bits that the reduced shift keeps are all zero. -/
theorem shiftLeft_eq_mod_iff (hw : 0 < w) (a : BitVec w) (s : Nat) :
    a <<< s = a <<< (s % w) ↔ s < w ∨ 2 ^ (w - s % w) ∣ a.toNat := by
  have hm : s % w < w := Nat.mod_lt s hw
  rcases Nat.lt_or_ge s w with hs | hs
  · simp [Nat.mod_eq_of_lt hs, hs]
  · have hz : a <<< s = 0#w := BitVec.shiftLeft_eq_zero hs
    have hpow : 2 ^ w = 2 ^ (s % w) * 2 ^ (w - s % w) := by
      rw [← Nat.pow_add]; congr 1; omega
    rw [hz, eq_comm, ← BitVec.toNat_inj, BitVec.toNat_shiftLeft, BitVec.toNat_ofNat,
      Nat.zero_mod, ← Nat.dvd_iff_mod_eq_zero, Nat.shiftLeft_eq, hpow, Nat.mul_comm a.toNat,
      Nat.mul_dvd_mul_iff_left (Nat.two_pow_pos _)]
    simp [Nat.not_lt.mpr hs]

/-- A logical right shift agrees with the shift by the reduced amount iff the amount is
below the width or the reduced shift already moves every set bit out. -/
theorem ushiftRight_eq_mod_iff (a : BitVec w) (s : Nat) :
    a >>> s = a >>> (s % w) ↔ s < w ∨ a.toNat < 2 ^ (s % w) := by
  rcases Nat.lt_or_ge s w with hs | hs
  · simp [Nat.mod_eq_of_lt hs, hs]
  · have hz : a >>> s = 0#w := BitVec.ushiftRight_eq_zero hs
    rw [hz, eq_comm, ← BitVec.toNat_inj, BitVec.toNat_ushiftRight, BitVec.toNat_ofNat,
      Nat.zero_mod, Nat.shiftRight_eq_div_pow, Nat.div_eq_zero_iff]
    simp [Nat.not_lt.mpr hs]

/-- An arithmetic right shift is the floor of a division, whatever the amount is. -/
theorem toInt_sshiftRight_eq_ediv (a : BitVec w) (s : Nat) :
    (a.sshiftRight s).toInt = a.toInt / 2 ^ s := by
  rw [BitVec.toInt_sshiftRight, Int.shiftRight_eq_div_pow]
  norm_cast

/-- A floor division by a power of two gives the sign (`0` or `-1`) iff the dividend lies
in the window of that power. -/
theorem ediv_eq_sign_iff (x : Int) {p : Int} (hp : 0 < p) :
    x / p = (if x < 0 then -1 else 0) ↔ -p ≤ x ∧ x < p := by
  have hlo := Int.mul_ediv_self_le (x := x) hp.ne'
  have hhi := Int.lt_mul_ediv_self_add (x := x) hp
  split
  · next hneg =>
    constructor
    · intro h
      rw [h] at hlo hhi
      exact ⟨by linarith, by linarith⟩
    · rintro ⟨h, _⟩
      have h1 : x / p < 0 := Int.ediv_neg_of_neg_of_pos hneg hp
      have h2 : -1 ≤ x / p := (Int.le_ediv_iff_mul_le hp).mpr (by linarith)
      omega
  · next hpos =>
    constructor
    · intro h
      rw [h] at hlo hhi
      exact ⟨by linarith, by linarith⟩
    · rintro ⟨_, h⟩
      exact Int.ediv_eq_zero_of_lt (by omega) h

/-- An arithmetic right shift by the width or more leaves only copies of the sign. -/
theorem toInt_sshiftRight_of_ge (a : BitVec w) {s : Nat} (hs : w ≤ s) :
    (a.sshiftRight s).toInt = if a.toInt < 0 then -1 else 0 := by
  have hle : (2 : Int) ^ w ≤ 2 ^ s := pow_le_pow_right₀ (by omega) hs
  have hlo := BitVec.le_two_mul_toInt (x := a)
  have hhi := BitVec.two_mul_toInt_lt (x := a)
  rw [toInt_sshiftRight_eq_ediv, ediv_eq_sign_iff _ (by positivity)]
  have hpos : (0 : Int) < 2 ^ w := by positivity
  constructor <;> linarith

/-- An arithmetic right shift agrees with the shift by the reduced amount iff the amount
is below the width or the reduced shift already leaves only copies of the sign. -/
theorem sshiftRight_eq_mod_iff (a : BitVec w) (s : Nat) :
    a.sshiftRight s = a.sshiftRight (s % w) ↔
      s < w ∨ (-2 ^ (s % w) ≤ a.toInt ∧ a.toInt < 2 ^ (s % w)) := by
  rcases Nat.lt_or_ge s w with hs | hs
  · simp [Nat.mod_eq_of_lt hs, hs]
  · rw [← BitVec.toInt_inj, toInt_sshiftRight_of_ge a hs, toInt_sshiftRight_eq_ediv, eq_comm,
      ediv_eq_sign_iff _ (by positivity)]
    simp [Nat.not_lt.mpr hs]

/-! ## Sign extension -/

/-- A vector is the sign extension of its own low `k` bits iff its signed value fits
into `k` bits. -/
theorem eq_signExtend_setWidth_iff {k : Nat} (hk : 0 < k) (hkw : k ≤ w) (a : BitVec w) :
    a = (a.setWidth k).signExtend w ↔ -2 ^ (k - 1) ≤ a.toInt ∧ a.toInt < 2 ^ (k - 1) := by
  have hlow : ((a.setWidth k).signExtend w).toInt = a.toInt.bmod (2 ^ k) := by
    rw [BitVec.toInt_signExtend_of_le hkw, BitVec.toInt_setWidth, BitVec.toInt_eq_toNat_bmod,
      Int.bmod_bmod_of_dvd (Nat.pow_dvd_pow 2 hkw)]
  have hpow : (2 : Int) ^ k = 2 * 2 ^ (k - 1) := by
    rw [← pow_succ']
    congr 1
    omega
  rw [← BitVec.toInt_inj, hlow, eq_comm, Int.bmod_eq_iff (Nat.two_pow_pos k)]
  push_cast
  rw [hpow]
  constructor
  · rintro ⟨hlo, hhi, _⟩
    omega
  · rintro ⟨hlo, hhi⟩
    refine ⟨by omega, by omega, by simp⟩

end Bits
