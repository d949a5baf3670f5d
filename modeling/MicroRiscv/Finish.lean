import MicroRiscv.Decoder

/-!
# Finishing in the single-cycle core

`cpu_finish_o` is raised for two causes, EBREAK and an illegal instruction, but the PC
mux holds the PC for the first one only. After an EBREAK nothing changes any more
(`step_of_halts`, `run_frozen`); after an illegal instruction the core goes on with the
next word (`step_of_illegal`). So finishing is final exactly when the finishing word is
the halting one (`finish_final_iff`).
-/

namespace MicroRiscv

namespace SingleCycle

variable {env : Env} {s : SingleCycle}

/-- The first cycle in which `cpu_finish_o` is high. -/
def FirstFinish (env : Env) (plat : Platform) (n : Nat) : Prop :=
  (run env plat n).cpuFinishO env = true ∧ ∀ k, k < n → (run env plat k).cpuFinishO env = false

/-- From cycle `n` on `cpu_finish_o` stays high and PC, registers, memory, `stdout` and
the `stdin` position do not change. -/
def FinishIsFinal (env : Env) (plat : Platform) (n : Nat) : Prop :=
  ∀ m, n ≤ m →
    (run env plat m).cpuFinishO env = true ∧ (run env plat m).pcP = (run env plat n).pcP ∧
    (run env plat m).xP = (run env plat n).xP ∧ (run env plat m).plat = (run env plat n).plat

/-- The word fetched in the state `s` halts: opcode, funct12, funct3 and rd are those of
EBREAK. -/
def FetchesHalt (env : Env) (s : SingleCycle) : Prop :=
  let w := instrRdata env s.plat s.pcP
  opcode w = opcSystem ∧ funct12 w = 1#12 ∧ funct3 w = 0#3 ∧ rd w = 0#5

theorem ctrl_of_halts (h : FetchesHalt env s) : (s.signals env).ctrl = { cpuHalt := true } :=
  decoder_of_accepts (m := .ebreak) h

/-- One step on a halting word leaves the PC, the registers and the devices alone. -/
theorem step_of_halts (h0 : s.xP 0#5 = 0#32) (h : FetchesHalt env s) :
    (s.step env).toArch = s.toArch := by
  have hc := ctrl_of_halts h
  have hpc : s.pcN env = s.pcP := by
    simp [pcN, pcStall, hc, pcMux]
  show s.toArch.edge (s.signals env) (s.pcN env) (s.writeData env) = s.toArch
  rw [edge_idle h0 _ _ (by rw [hc]) (by rw [hc]) (by rw [hc]), hpc]

theorem cpuFinishO_of_halts (h : FetchesHalt env s) : s.cpuFinishO env = true := by
  rw [cpuFinishO, ctrl_of_halts h]
  rfl

/-- The run after a halting word: every later state has the same PC, registers and
devices, hence fetches the same word again. -/
theorem run_frozen {plat : Platform} {n : Nat} (h : FetchesHalt env (run env plat n)) (d : Nat) :
    (run env plat (n + d)).toArch = (run env plat n).toArch := by
  induction d with
  | zero => rfl
  | succ d ih =>
    have hd : FetchesHalt env (run env plat (n + d)) := by
      unfold FetchesHalt
      rw [ih]
      exact h
    rw [← Nat.add_assoc, run_succ, step_of_halts (run_x0 env plat (n + d)) hd, ih]

/-- One step on an illegal word advances the PC by 4. -/
theorem step_of_illegal (h : (s.signals env).ctrl.illegalInsn = true) :
    (s.step env).pcP = s.pcP + 4#32 := by
  have hc : (s.signals env).ctrl = { illegalInsn := true } := decoder_of_illegalInsn h
  have hsrc : (s.signals env).pcSrc = false := signals_pcSrc_off hc rfl rfl
  show s.pcN env = s.pcP + 4#32
  simp only [pcN, pcStall, hc, hsrc, pcMux]
  rfl

end SingleCycle

open SingleCycle

/-- Finishing is final exactly when the finishing word is the halting one. With the
other cause, an illegal instruction, the PC moves in the very next cycle. -/
theorem finish_final_iff {env : Env} {plat : Platform} {n : Nat} (hn : FirstFinish env plat n) :
    FinishIsFinal env plat n ↔ FetchesHalt env (run env plat n) := by
  constructor
  · intro hfinal
    have hfin := hn.1
    unfold cpuFinishO at hfin
    rw [Bool.or_eq_true] at hfin
    rcases hfin with hill | hhalt
    · have hpc := (hfinal (n + 1) (Nat.le_succ n)).2.1
      rw [run_succ, step_of_illegal hill, add_eq_left] at hpc
      exact absurd hpc (by decide)
    · exact decoder_cpuHalt_iff.mp hhalt
  · intro hhalt m hm
    obtain ⟨d, rfl⟩ := Nat.exists_eq_add_of_le hm
    have hfrozen := run_frozen hhalt d
    refine ⟨?_, by rw [hfrozen], by rw [hfrozen], by rw [hfrozen]⟩
    apply cpuFinishO_of_halts
    unfold FetchesHalt
    rw [hfrozen]
    exact hhalt

/-- ADDI x1, x0, 7; JAL x0, 8; an illegal word; EBREAK: the run finishes in cycle 2. -/
theorem finish_final_ebreak :
    FinishIsFinal Env.zero
      (Platform.ofProgram [0x00700093#32, 0x0080006f#32, 0#32, ebreakWord]) 2 := by
  have hn : FirstFinish Env.zero
      (Platform.ofProgram [0x00700093#32, 0x0080006f#32, 0#32, ebreakWord]) 2 :=
    ⟨by decide, by decide⟩
  have hhalt : FetchesHalt Env.zero (run Env.zero
      (Platform.ofProgram [0x00700093#32, 0x0080006f#32, 0#32, ebreakWord]) 2) :=
    ⟨by decide, by decide, by decide, by decide⟩
  exact (finish_final_iff hn).mpr hhalt

/-- The all-zero word at address 0 is illegal; one cycle later the PC is 4. -/
theorem finish_not_final_illegal :
    ¬ ∀ (env : Env) (plat : Platform) (n : Nat),
      FirstFinish env plat n → FinishIsFinal env plat n := by
  intro h
  have hn : FirstFinish Env.zero (Platform.ofProgram []) 0 :=
    ⟨by decide, fun k hk => absurd hk (Nat.not_lt_zero k)⟩
  have hpc := (h Env.zero (Platform.ofProgram []) 0 hn 1 (by decide)).2.1
  exact absurd hpc (by decide)

end MicroRiscv
