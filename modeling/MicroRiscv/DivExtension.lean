import Mathlib.Data.Rat.Floor
import MicroRiscv.Divu
import MicroRiscv.Lib.Rounding

/-!
# DIVU in the simulator

`div_extension.py` divides the registers as Python numbers: a negative one is shifted to its
unsigned value, and the quotient is a float that is cut to an integer. A float has 53 bits, so
the quotient of two 32-bit numbers survives this.

Results:
1. `divide_eq`: `divide` is the unsigned division of the registers, with or without signs.
2. `divide_spec`: a DIVU of the single-cycle core, which divides the low bytes, leaves the same
   word in `rd` exactly if the bytes have the quotient of the registers.
-/

namespace MicroRiscv

namespace DivExtension

/-- `rs1 / rs2` for integers: the nearest float. -/
def trueDiv (rs1 rs2 : Int) : ℚ := Rounding.roundTo 53 ((rs1 : ℚ) / rs2)

/-- `int(x)`: towards zero. -/
def int (x : ℚ) : Int := if 0 ≤ x then ⌊x⌋ else ⌈x⌉

/-- `divide` of `div_extension.py`. -/
def divide (rs1 rs2 : Int) : Int :=
  let rs1 := if rs1 < 0 then rs1 + 2 ^ 32 else rs1
  let rs2 := if rs2 < 0 then rs2 + 2 ^ 32 else rs2
  if rs2 = 0 then 2 ^ 32 - 1 else int (trueDiv rs1 rs2)

/-- The number is the register, read with or without a sign. -/
def Reads (x : Int) (w : Word) : Prop := x = w.toNat ∨ x = w.toInt

/-- DIVU on whole registers. -/
def divuWord (a b : Word) : Word := if b = 0#32 then 0xffffffff#32 else a / b

/-- Both readings are shifted to the unsigned one. -/
theorem unsigned_of_reads {x : Int} {w : Word} (h : Reads x w) :
    (if x < 0 then x + 2 ^ 32 else x) = w.toNat := by
  have hlt := w.isLt
  rcases h with rfl | rfl
  · exact if_neg (Int.not_lt.mpr (Int.natCast_nonneg _))
  · rw [BitVec.toInt_eq_toNat_cond]
    split
    · exact if_neg (Int.not_lt.mpr (Int.natCast_nonneg _))
    · rw [if_pos (Int.sub_neg_of_lt (Int.ofNat_lt.mpr hlt))]
      exact Int.sub_add_cancel _ _

/-- A quotient of natural numbers below `2 ^ 53` is cut to the integer quotient. -/
theorem int_trueDiv {m n : Nat} (h : m < 2 ^ 53) : int (trueDiv m n) = (m / n : Nat) := by
  have hfloor : ⌊Rounding.roundTo 53 ((m : ℚ) / n)⌋ = (m / n : Nat) :=
    Rounding.floor_roundTo_div h
  have hnonneg : 0 ≤ Rounding.roundTo 53 ((m : ℚ) / n) := by
    rw [← Int.floor_nonneg, hfloor]
    exact Int.natCast_nonneg _
  unfold int trueDiv
  rw [Int.cast_natCast, Int.cast_natCast, if_pos hnonneg, hfloor]

/-- The float in between does not show: `divide` is DIVU on the registers. -/
theorem divide_eq {x y : Int} {a b : Word} (hx : Reads x a) (hy : Reads y b) :
    divide x y = (divuWord a b).toNat := by
  have ha : a.toNat < 2 ^ 53 := Nat.lt_trans a.isLt (by decide)
  have hzero : (b.toNat : Int) = 0 ↔ b = 0#32 := by
    rw [Int.natCast_eq_zero, ← BitVec.toNat_inj]
    rfl
  unfold divide divuWord
  dsimp only
  rw [unsigned_of_reads hx, unsigned_of_reads hy]
  by_cases hb : b = 0#32
  · rw [if_pos (hzero.mpr hb), if_pos hb]
    rfl
  · rw [if_neg (hb ∘ hzero.mp), if_neg hb, int_trueDiv ha, BitVec.toNat_udiv]

theorem toNat_lowByte (w : Word) : (SingleCycle.lowByte w).toNat = w.toNat % 256 :=
  BitVec.extractLsb'_toNat 0 8 w

theorem toNat_divuValue {a b : BitVec 8} (hb : b ≠ 0#8) :
    (SingleCycle.divuValue a b).toNat = a.toNat / b.toNat := by
  have hlt : a.toNat / b.toNat < 2 ^ 32 :=
    Nat.lt_of_le_of_lt (Nat.div_le_self _ _) (Nat.lt_trans a.isLt (by decide))
  rw [SingleCycle.divuValue, if_neg hb, BitVec.toNat_setWidth, BitVec.toNat_udiv,
    Nat.mod_eq_of_lt hlt]

/-- A divisor that is zero in its low byte only is a division by zero for the core. -/
theorem divuWord_eq_core_iff {a b : Word} :
    (divuWord a b).toNat =
        (SingleCycle.divuValue (SingleCycle.lowByte a) (SingleCycle.lowByte b)).toNat ↔
      b = 0#32 ∨ (b.toNat % 256 ≠ 0 ∧
        a.toNat / b.toNat = a.toNat % 256 / (b.toNat % 256)) := by
  have hbyte : SingleCycle.lowByte b = 0#8 ↔ b.toNat % 256 = 0 := by
    rw [← toNat_lowByte, ← BitVec.toNat_inj]
    rfl
  by_cases hb : b = 0#32
  · subst hb
    exact iff_of_true rfl (.inl rfl)
  · have hpos : 0 < b.toNat := Nat.pos_of_ne_zero fun h => hb (BitVec.eq_of_toNat_eq h)
    rw [divuWord, if_neg hb, BitVec.toNat_udiv, or_iff_right hb]
    by_cases hlow : SingleCycle.lowByte b = 0#8
    · -- the divisor is 256 at least, so the quotient has not all bits set
      have hle : 256 ≤ b.toNat := Nat.le_of_dvd hpos (Nat.dvd_of_mod_eq_zero (hbyte.mp hlow))
      have hquot : a.toNat / b.toNat < 2 ^ 32 - 1 := by
        rw [Nat.div_lt_iff_lt_mul hpos]
        calc a.toNat < 2 ^ 32 := a.isLt
          _ ≤ (2 ^ 32 - 1) * 256 := by decide
          _ ≤ (2 ^ 32 - 1) * b.toNat := Nat.mul_le_mul_left _ hle
      have hall : (SingleCycle.divuValue (SingleCycle.lowByte a) (SingleCycle.lowByte b)).toNat =
          2 ^ 32 - 1 := by
        rw [SingleCycle.divuValue, if_pos hlow]
        rfl
      rw [hall]
      exact iff_of_false hquot.ne fun h => h.1 (hbyte.mp hlow)
    · rw [toNat_divuValue hlow, toNat_lowByte, toNat_lowByte]
      exact (and_iff_right fun h => hlow (hbyte.mpr h)).symm

open SingleCycle

/-- In a run of the core, a DIVU that starts in cycle `n` and keeps its quotient comes to an end,
and then `rd` has the word that the simulator computes from the operands, whatever their reading,
exactly if the low bytes have the quotient of the registers. The simulator itself divides the
registers without signs, whatever the float in between. -/
theorem divide_spec {env : Env} {plat : Platform} {n : Nat}
    (hfetch : (run env plat n).FetchesDivu env) (hidle : (run env plat n).div.stateP = .init)
    (hkeeps : KeepsQuotient env (run env plat n)) :
    let s := run env plat n
    let w := s.instruction env
    let a := s.xP (rs1Field w)
    let b := s.xP (rs2Field w)
    ∀ x y : Int, Reads x a → Reads y b →
      divide x y = (divuWord a b).toNat ∧
      ∃ m, (∀ j, j < m → (run env plat (n + j)).pcP = s.pcP) ∧
        (run env plat (n + m)).pcP = s.pcP + 4#32 ∧
        (rd w ≠ 0#5 → (divide x y = ((run env plat (n + m)).xP (rd w)).toNat ↔
          b = 0#32 ∨ (b.toNat % 256 ≠ 0 ∧
            a.toNat / b.toNat = a.toNat % 256 / (b.toNat % 256)))) := by
  intro s w a b x y hx hy
  obtain ⟨m, hstays, hdone⟩ := (divuCorrect_iff (run_x0 env plat n) hfetch hidle).mpr hkeeps
  have hrun : ∀ j, run env plat (n + j) = (SingleCycle.step env)^[j] s := by
    intro j
    rw [Nat.add_comm]
    exact Function.iterate_add_apply _ _ _ _
  refine ⟨divide_eq hx hy, m, fun j hj => ?_, ?_, fun hrd => ?_⟩
  · rw [hrun]
    exact hstays j hj
  · rw [hrun]
    exact hdone.pcP
  · have hvalue : (run env plat (n + m)).xP (rd w) = divuValue (lowByte a) (lowByte b) := by
      rw [hrun, hdone.xP]
      unfold regFileN
      rw [if_neg hrd, if_pos ⟨rfl, rfl⟩]
      rfl
    rw [hvalue, divide_eq hx hy, Int.natCast_inj]
    exact divuWord_eq_core_iff

/-- ADDI x1, x0, -1; ADDI x2, x0, 3; DIVU x3, x1, x2: the simulator divides 0xffffffff by 3, the
core 255. -/
theorem divide_minus_one_by_three :
    let plat := Platform.ofProgram [0xfff00093#32, 0x00300113#32, 0x0220d1b3#32]
    divide (-1) 3 = 0x55555555 ∧
    ∃ m, (run Env.zero plat (2 + m)).pcP = 12#32 ∧
      divide (-1) 3 ≠ ((run Env.zero plat (2 + m)).xP 3#5).toNat := by
  intro plat
  have hfetch : (run Env.zero plat 2).FetchesDivu Env.zero := ⟨by decide, by decide, by decide⟩
  obtain ⟨hword, m, _, hpc, hcore⟩ := divide_spec hfetch (by decide) (.inr (.inl (by decide)))
    (-1) 3 (.inr (by decide)) (.inl (by decide))
  have hrd : rd ((run Env.zero plat 2).instruction Env.zero) = 3#5 := by decide
  rw [hrd] at hcore
  exact ⟨hword.trans (by decide), m, hpc.trans (by decide), (hcore (by decide)).not.mpr (by decide)⟩

end DivExtension

end MicroRiscv
