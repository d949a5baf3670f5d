import MicroRiscv.Datapath
import MicroRiscv.Lib.Subtraction

/-!
# The 8-bit divider

The divider of the single-cycle core subtracts the divisor from the dividend once
per cycle. Its inputs are sampled anew in every cycle; it has no copy of the
divisor. `Running` relates it to repeated subtraction with the divisors it meets.
-/

namespace MicroRiscv

/-- The states of the divider; the fourth encoding is never entered. -/
inductive DivState
  | init | busy | finish
deriving DecidableEq, Repr

structure Divider where
  stateP : DivState
  subtrahendP : BitVec 8
  quotientP : BitVec 9
deriving DecidableEq, Repr

namespace Divider

/-- The state after reset. -/
def reset : Divider := ⟨.init, 0#8, 0#9⟩

def finishO (d : Divider) : Bool := d.stateP = .finish
def busyO (d : Divider) : Bool := d.stateP = .busy
def quotientO (d : Divider) : BitVec 9 := d.quotientP

theorem finishO_of_init {d : Divider} (h : d.stateP = .init) : d.finishO = false := by
  rw [finishO, h]
  rfl

theorem finishO_of_busy {d : Divider} (h : d.stateP = .busy) : d.finishO = false := by
  rw [finishO, h]
  rfl

theorem finishO_of_finish {d : Divider} (h : d.stateP = .finish) : d.finishO = true := by
  rw [finishO, h]
  rfl

/-- `subtrahend_n`. -/
def subtrahendN (d : Divider) (dividend divisor : BitVec 8) : BitVec 8 :=
  match d.stateP with
  | .init => dividend
  | .busy => if divisor ≤ d.subtrahendP then d.subtrahendP - divisor else d.subtrahendP
  | .finish => d.subtrahendP

/-- `quotient_n`. -/
def quotientN (d : Divider) (start : Bool) (divisor : BitVec 8) : BitVec 9 :=
  match d.stateP with
  | .init => if divisor = 0#8 ∧ start = true then 0x1ff#9 else 0#9
  | .busy => if divisor ≤ d.subtrahendP then d.quotientP + 1#9 else d.quotientP
  | .finish => d.quotientP

/-- `state_n`. The busy state compares the next subtrahend. -/
def stateN (d : Divider) (start : Bool) (dividend divisor : BitVec 8) : DivState :=
  match d.stateP with
  | .init =>
    if start = true ∧ divisor ≠ 0#8 then .busy
    else if start = true ∧ divisor = 0#8 then .finish
    else .init
  | .busy => if divisor ≤ d.subtrahendN dividend divisor then .busy else .finish
  | .finish => .init

/-- One clock edge. -/
def step (d : Divider) (start : Bool) (dividend divisor : BitVec 8) : Divider :=
  ⟨d.stateN start dividend divisor, d.subtrahendN dividend divisor, d.quotientN start divisor⟩

/-- Without a start an idle divider stays idle. -/
theorem step_init_stateP {d : Divider} (h : d.stateP = .init) (a b : BitVec 8) :
    (d.step false a b).stateP = .init := by
  simp [step, stateN, h]

/-- A finished divider returns to `INIT`, whatever its inputs are. -/
theorem step_finish_stateP {d : Divider} (h : d.stateP = .finish) (s : Bool) (a b : BitVec 8) :
    (d.step s a b).stateP = .init := by
  simp [step, stateN, h]

/-! ## The busy cycles -/

open RepeatedSubtraction

/-- The divider has subtracted the first `k` of the divisors `d 1, d 2, …` from `a`. -/
structure Running (dv : Divider) (d : Nat → Nat) (a k : Nat) : Prop where
  busy : dv.stateP = .busy
  subtrahend : dv.subtrahendP.toNat + total d k = a
  quotient : dv.quotientP = BitVec.ofNat 9 k

theorem running_start {dv : Divider} (h : dv.stateP = .init) (d : Nat → Nat) (a : BitVec 8)
    {b : BitVec 8} (hb : b ≠ 0#8) : (dv.step true a b).Running d a.toNat 0 := by
  constructor <;> simp [step, stateN, subtrahendN, quotientN, h, hb]

/-- A divisor of zero is answered at once. -/
theorem step_start_zero {dv : Divider} (h : dv.stateP = .init) (a : BitVec 8) :
    (dv.step true a 0#8).stateP = .finish ∧ (dv.step true a 0#8).quotientP = 0x1ff#9 := by
  constructor <;> simp [step, stateN, quotientN, h]

section Busy

variable {dv : Divider} {d : Nat → Nat} {a k : Nat} {b : BitVec 8}

/-- The comparator of the busy state. -/
theorem Running.le_iff (h : dv.Running d a k) (hb : b.toNat = d (k + 1)) :
    b ≤ dv.subtrahendP ↔ total d (k + 1) ≤ a := by
  have hsub := h.subtrahend
  rw [BitVec.le_def, hb, total_succ]
  omega

theorem Running.step_continues (h : dv.Running d a k) (s : Bool) (x : BitVec 8)
    (hb : b.toNat = d (k + 1)) (hc : Continues d a (k + 1)) :
    (dv.step s x b).Running d a (k + 1) := by
  have hsub := h.subtrahend
  have htotal := total_succ d k
  unfold Continues at hc
  have hle : b ≤ dv.subtrahendP := (h.le_iff hb).mpr (by omega)
  have hN : dv.subtrahendN x b = dv.subtrahendP - b := by
    simp [subtrahendN, h.busy, hle]
  have hNnat : (dv.subtrahendP - b).toNat = dv.subtrahendP.toNat - b.toNat :=
    BitVec.toNat_sub_of_le hle
  constructor
  · have hagain : b ≤ dv.subtrahendP - b := by
      rw [BitVec.le_def, hNnat, hb]
      omega
    simp [step, stateN, h.busy, hN, hagain]
  · show (dv.subtrahendN x b).toNat + _ = a
    rw [hN, hNnat, hb]
    omega
  · show dv.quotientN s b = _
    simp only [quotientN, h.busy, hle, if_true, h.quotient]
    rw [BitVec.ofNat_add]

theorem Running.step_stops (h : dv.Running d a k) (s : Bool) (x : BitVec 8)
    (hb : b.toNat = d (k + 1)) (hc : ¬ Continues d a (k + 1)) :
    (dv.step s x b).stateP = .finish ∧
    (dv.step s x b).quotientP = BitVec.ofNat 9 (count d a (k + 1)) := by
  have hsub := h.subtrahend
  have htotal := total_succ d k
  unfold Continues at hc
  by_cases hle : b ≤ dv.subtrahendP
  · -- the divisor fits once, but not twice
    have hfit := (h.le_iff hb).mp hle
    have hNnat : (dv.subtrahendP - b).toNat = dv.subtrahendP.toNat - b.toNat :=
      BitVec.toNat_sub_of_le hle
    have hagain : ¬ b ≤ dv.subtrahendP - b := by
      rw [BitVec.le_def, hNnat, hb]
      omega
    constructor
    · simp [step, stateN, subtrahendN, h.busy, hle, hagain]
    · simp only [step, quotientN, h.busy, hle, if_true, h.quotient, count, if_pos hfit]
      rw [BitVec.ofNat_add]
  · have hover : ¬ total d (k + 1) ≤ a := fun hfit => hle ((h.le_iff hb).mpr hfit)
    constructor
    · simp [step, stateN, subtrahendN, h.busy, hle]
    · simp [step, quotientN, h.busy, hle, h.quotient, count, hover]

end Busy

end Divider

end MicroRiscv
