import MicroRiscv.Pipeline

/-!
# The reset of the pipelined core

The reset leaves one register as it was, the write enable in WB. Beside it the reset
clears the destination register in WB, and a write enable for `x0` is dead: the register
file drops the write and no bypass matches. `Congruent` relates two states that may differ
in a dead write enable.

Results:
1. `Congruent.step_eq`: congruent states have the same next state.
2. `reset_congruent`: any two states are congruent after reset, given the same devices.
3. `reset_complete`: the runs after reset are the same at every port.
-/

namespace MicroRiscv

namespace Pipeline

/-! ## Definitions -/

/-- The state after reset, with the devices given from outside. -/
def resetWith (s : Pipeline) (plat : Platform) : Pipeline :=
  { s with plat := plat : Pipeline }.reset

/-- What can be seen of two states is the same: the instruction address, the data enables,
`cpu_finish_o` and the register file, and while an enable is high the data address and the
write data. -/
structure SamePorts (s t : Pipeline) : Prop where
  instrAddr : s.pcP = t.pcP
  dataRe : s.exWb.aluMemReadExP = t.exWb.aluMemReadExP
  dataWe : s.exWb.aluMemWriteExP = t.exWb.aluMemWriteExP
  finish : s.cpuFinishO = t.cpuFinishO
  registers : s.xP = t.xP
  dataAddr : s.exWb.aluMemReadExP = true ∨ s.exWb.aluMemWriteExP = true →
    s.exWb.aluResultP = t.exWb.aluResultP
  dataWdata : s.exWb.aluMemReadExP = true ∨ s.exWb.aluMemWriteExP = true →
    s.exWb.regData2ExP = t.exWb.regData2ExP

/-- `t` is `s` but for the write enable in WB, which is dead: it writes `x0`. -/
structure Congruent (s t : Pipeline) : Prop where
  eq_upto : t = { s with exWb := { s.exWb with aluRegWriteExP := t.exWb.aluRegWriteExP } }
  rdExP : s.exWb.rdExP = 0#5
  x0 : s.xP 0#5 = 0#32

/-! ## 1. One step -/

/-- Nothing is bypassed from a write of `x0`. -/
theorem bypass_of_rdExP {env : Env} {s : Pipeline} (h : s.exWb.rdExP = 0#5) (rs : RegIdx)
    (v : Word) : s.bypass env rs v = v := by
  have hoff : forwardReg s.exWb rs = false := by simp [forwardReg, h]
  rw [bypass, hoff]
  rfl

theorem Congruent.samePorts {s t : Pipeline} (h : Congruent s t) : SamePorts s t := by
  constructor <;> rw [h.eq_upto] <;> intros <;> rfl

/-- A dead write enable has no influence on the next state. -/
theorem Congruent.step_eq {env : Env} {s t : Pipeline} (h : Congruent s t) :
    t.step env = s.step env := by
  have hrd : t.exWb.rdExP = 0#5 := by rw [h.eq_upto]; exact h.rdExP
  have hx : regFileN t.xP t.exWb.aluRegWriteExP t.exWb.rdExP (t.regWriteData env) =
      regFileN s.xP s.exWb.aluRegWriteExP s.exWb.rdExP (s.regWriteData env) := by
    have hxP : t.xP = s.xP := by rw [h.eq_upto]
    rw [hrd, h.rdExP, hxP, regFileN_x0 h.x0, regFileN_x0 h.x0]
  unfold step
  simp only [bypass_of_rdExP hrd, bypass_of_rdExP h.rdExP, hx]
  rw [h.eq_upto]
  rfl

/-! ## 2. The reset -/

theorem reset_congruent (s t : Pipeline) (plat : Platform) :
    Congruent (s.resetWith plat) (t.resetWith plat) where
  eq_upto := rfl
  rdExP := rfl
  x0 := rfl

/-! ## 3. The runs after reset -/

/-- The write enable that survives the reset is gone after the first clock edge. -/
theorem reset_run_eq (env : Env) (s t : Pipeline) (plat : Platform) (n : Nat) :
    (step env)^[n + 1] (t.resetWith plat) = (step env)^[n + 1] (s.resetWith plat) := by
  rw [Function.iterate_succ_apply, Function.iterate_succ_apply,
    (reset_congruent s t plat).step_eq]

/-- The reset is complete: from any two states, with the same devices, the two runs
cannot be told apart in any cycle. -/
theorem reset_complete (env : Env) (plat : Platform) (s t : Pipeline) (n : Nat) :
    SamePorts ((step env)^[n] (s.resetWith plat)) ((step env)^[n] (t.resetWith plat)) := by
  cases n with
  | zero => exact (reset_congruent s t plat).samePorts
  | succ n =>
    rw [reset_run_eq env s t plat n]
    exact ⟨rfl, rfl, rfl, rfl, rfl, fun _ => rfl, fun _ => rfl⟩

end Pipeline

end MicroRiscv
