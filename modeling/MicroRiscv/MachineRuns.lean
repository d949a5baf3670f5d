import MicroRiscv.Finish
import MicroRiscv.MachineSimulation

/-!
# Every core runs an RV32I program to its EBREAK

A program that ends after `K` RV32I instructions (`Machine.EndsAfter`) meets the assumptions of
every core of the repository: the single-cycle core has no division to do, and the pipelined
cores find neither the opcode SYSTEM nor a store to their own code on the path. All four have the
registers, the memory and the output of the RV32I machine when the EBREAK is in their last stage.

The single-cycle and the 2-stage core then raise `cpu_finish_o`; the 3- and the 4-stage core do
so only if the instruction in front of the EBREAK transfers or has a zero in the bits of rd.
-/

namespace MicroRiscv

/-! ## 1. Programs that end -/

namespace Machine

/-- The state after `k` instructions. -/
def after (s : Machine) (k : Nat) : Machine := step^[k] s

theorem after_succ (s : Machine) (k : Nat) : s.after (k + 1) = (s.after k).step :=
  Function.iterate_succ_apply' _ _ _

/-- The machine in front of the first instruction, on the devices `plat` and with `noise` for the
loads from unmapped addresses. -/
def ofPlatform (env : Env) (plat : Platform) (noise : Nat → Word) : Machine where
  regs := (boot [] []).regs
  pc := resetAddr
  mem := plat.mem
  stdin := fun n => env.stdinBuffer (plat.stdinPointer + BitVec.ofNat 8 n)
  noise := noise
  stdout := plat.stdout

/-- The first `K` instructions are RV32I, none of them is EBREAK and none stores to the code of
the path; behind them there is EBREAK. -/
structure EndsAfter (s : Machine) (K : Nat) : Prop where
  conforms : ∀ k, k < K → (s.after k).Conforms
  running : ∀ k, k < K → mnemonicOf (s.after k).fetch ≠ some .ebreak
  keepsCode : ∀ j k a x, j < K → k ≤ K → (s.after j).storeAddr = some a → a < memSize →
    inWord a x → x < memSize → ¬ inWord (s.after k).pc x
  pc : (s.after K).pc < memSize
  ebreak : (s.after K).fetch = ebreakWord

end Machine

namespace Sequential

variable {env : Env} {plat : Platform} {K k : Nat}

theorem machineAt_zero :
    machineAt env plat 0 = Machine.ofPlatform env plat (unmappedValue env plat) := by
  refine machineAt_ext rfl rfl rfl rfl ?_ rfl
  show (fun n => unmappedValue env plat (0 + n)) = unmappedValue env plat
  simp only [Nat.zero_add]

/-- The RV32I machine of a path. -/
noncomputable def machine (env : Env) (plat : Platform) : Machine :=
  Machine.ofPlatform env plat (unmappedValue env plat)

theorem machineAt_eq_after (h : (machine env plat).EndsAfter K) (hk : k ≤ K) :
    machineAt env plat k = (machine env plat).after k := by
  have hrun : machineAt env plat k = Machine.step^[k] (machineAt env plat 0) := by
    apply machineAt_run
    rw [machineAt_zero]
    exact fun j hj => h.conforms j (Nat.lt_of_lt_of_le hj hk)
  rw [machineAt_zero] at hrun
  exact hrun

theorem instruction_eq_fetch (h : (machine env plat).EndsAfter K) (hk : k ≤ K) :
    instruction env plat k = ((machine env plat).after k).fetch := by
  rw [← machineAt_eq_after h hk]
  refine (machineAt_fetch ?_).symm
  rw [machineAt_eq_after h hk]
  rcases Nat.lt_or_eq_of_le hk with hlt | rfl
  · exact (h.conforms k hlt).pc
  · exact h.pc

/-- The instruction of a step, which is not EBREAK. -/
theorem exists_mnemonic (h : (machine env plat).EndsAfter K) (hk : k < K) :
    ∃ m, mnemonicOf (instruction env plat k) = some m ∧ m ≠ .ebreak := by
  obtain ⟨m, hm, -⟩ := (h.conforms k hk).operands
  refine ⟨m, instruction_eq_fetch h hk.le ▸ hm, ?_⟩
  rintro rfl
  exact h.running k hk hm

/-- Only SW writes. -/
theorem storeAddr_of_dataWe (h : (machine env plat).EndsAfter K) (hk : k < K)
    (hwe : (effects env (run env plat k)).dataWe = true) :
    ((machine env plat).after k).storeAddr = some (effects env (run env plat k)).dataAddr := by
  obtain ⟨m, hm, -⟩ := exists_mnemonic h hk
  have hctrl : (signals env (run env plat k)).ctrl.aluMemWrite = true := hwe
  rw [ctrl_eq hm] at hctrl
  obtain rfl : m = .sw := by
    cases m with
    | sw => rfl
    | _ => cases hctrl
  have haddr := accessAddr_eq hm
  unfold Machine.storeAddr
  rw [← machineAt_eq_after h hk.le, machineAt_fetch
    (by rw [machineAt_eq_after h hk.le]; exact (h.conforms k hk).pc), if_pos hm]
  show _ = some (accessAddr env plat k)
  rw [haddr, ← sImm_eq_immediateS]
  rfl

/-- A program that ends meets the assumptions on a path. -/
theorem pipelinableTo_of_endsAfter (h : (machine env plat).EndsAfter K) :
    PipelinableTo env plat K where
  noSystem := by
    intro k hk hop
    obtain ⟨m, hm, hebreak⟩ := exists_mnemonic h hk
    exact hebreak (DecoderLemmas.isEncoding_eq (mnemonicOf_eq_some hm).1 hop (by decide))
  noSelfModification := by
    rintro j k x hj hk ⟨hwe, hsel, hin, hlt⟩ ⟨-, hfetch⟩
    refine h.keepsCode j k _ x hj hk (storeAddr_of_dataWe h hj hwe) (memSel_iff.mp hsel) hin hlt ?_
    rw [← machineAt_eq_after h hk]
    exact hfetch

theorem instruction_last (h : (machine env plat).EndsAfter K) :
    instruction env plat K = ebreakWord :=
  (instruction_eq_fetch h le_rfl).trans h.ebreak

end Sequential

/-! ## 2. The single-cycle core -/

namespace SingleCycle

variable {env : Env} {plat : Platform} {K : Nat}

/-- What the single-cycle core shows of a run: every cycle an instruction. -/
def coreRun (env : Env) (plat : Platform) : CoreRun where
  occupied := fun _ => true
  retired := fun n => n
  arch := fun n => (run env plat n).toArch
  finish := fun n => (run env plat n).cpuFinishO env

/-- Without a division the core is the sequential machine. -/
theorem run_eq_sequential (h : ∀ k, k < K →
      ∃ m, mnemonicOf (Sequential.instruction env plat k) = some m) :
    ∀ k, k ≤ K → (run env plat k).toArch = Sequential.run env plat k := by
  intro k hk
  induction k with
  | zero => rfl
  | succ k ih =>
    obtain ⟨m, hm⟩ := h k hk
    have harch := ih (Nat.le_of_succ_le hk)
    obtain ⟨henc, hdivu⟩ := mnemonicOf_eq_some hm
    -- the decoders differ in DIVU only
    have hdecode : decode (Sequential.instruction env plat k) =
        Sequential.decode (Sequential.instruction env plat k) := by
      rw [Sequential.decode_of_mnemonicOf hm]
      exact decoder_of_accepts (DecoderLemmas.isEncoding_accepts henc)
    have hsig : (run env plat k).signals env = Sequential.signals env (Sequential.run env plat k) := by
      show MicroRiscv.signals env decode (run env plat k).toArch = _
      rw [harch]
      exact signals_congr hdecode
    have hstart : ((run env plat k).signals env).ctrl.startI = false := by
      rw [hsig, Sequential.ctrl_eq hm]
      cases m with
      | divu => exact absurd rfl hdivu
      | _ => rfl
    rw [run_succ, step_of_not_startI hstart, Sequential.run_succ, hsig, harch]
    rfl

theorem run_eq_of_endsAfter (h : (Sequential.machine env plat).EndsAfter K) {k : Nat} (hk : k ≤ K) :
    (run env plat k).toArch = Sequential.run env plat k :=
  run_eq_sequential (fun _ hj => (Sequential.exists_mnemonic h hj).imp fun _ => And.left) k hk

theorem cycleOf_zero (env : Env) (plat : Platform) (K : Nat) :
    Sequential.cycleOf env plat 0 K = K := by
  show 0 + K + 0 * _ = K
  rw [Nat.zero_mul, Nat.add_zero, Nat.zero_add]

theorem agrees_last (h : (Sequential.machine env plat).EndsAfter K) :
    ((coreRun env plat).arch (Sequential.cycleOf env plat 0 K)).Agrees
      (Sequential.run env plat K) := by
  rw [cycleOf_zero]
  show (run env plat K).toArch.Agrees _
  rw [run_eq_of_endsAfter h le_rfl]
  exact ⟨rfl, rfl⟩

/-- The single-cycle core on a program that ends. -/
theorem finishesAt (h : (Sequential.machine env plat).EndsAfter K) :
    (coreRun env plat).FinishesAt env plat 0 K True := by
  have hword : ∀ k, k ≤ K →
      instrRdata env (run env plat k).plat (run env plat k).pcP = Sequential.instruction env plat k := by
    intro k hk
    rw [run_eq_of_endsAfter h hk]
    rfl
  have hcycle := cycleOf_zero env plat K
  constructor
  · intro k hk
    rw [hcycle] at hk
    obtain ⟨m, hm, hebreak⟩ := Sequential.exists_mnemonic h hk
    have hctrl : ((run env plat k).signals env).ctrl = m.ctrl := by
      show decode (instrRdata env (run env plat k).plat (run env plat k).pcP) = m.ctrl
      rw [hword k hk.le]
      exact decoder_of_accepts (DecoderLemmas.isEncoding_accepts (mnemonicOf_eq_some hm).1)
    show (run env plat k).cpuFinishO env = false
    unfold cpuFinishO
    rw [hctrl]
    cases m with
    | ebreak => exact absurd rfl hebreak
    | _ => rfl
  · rw [hcycle]
    refine iff_of_true (cpuFinishO_of_halts ?_) trivial
    unfold FetchesHalt
    rw [hword K le_rfl, Sequential.instruction_last h]
    exact ⟨by decide, by decide, by decide, by decide⟩

end SingleCycle

/-! ## 3. The four cores -/

/-- When the `K`-th instruction is in the last stage, registers, memory and output are those of
the RV32I machine `t`, and `cpu_finish_o` is high for the first time, if at all. -/
structure CoreRun.RunsProgram (c : CoreRun) (env : Env) (plat : Platform) (d K : Nat)
    (raised : Prop) (t : Machine) : Prop extends c.FinishesAt env plat d K raised where
  regs : (c.arch (Sequential.cycleOf env plat d K)).xP = t.regs.x
  mem : (c.arch (Sequential.cycleOf env plat d K)).plat.mem = t.mem
  stdout : (c.arch (Sequential.cycleOf env plat d K)).plat.stdout = t.stdout

section Cores

variable {env : Env} {plat : Platform} {c : CoreRun} {d K : Nat} {raised : Prop}

theorem CoreRun.runsProgram_of_agrees (h : (Sequential.machine env plat).EndsAfter K)
    (hfin : c.FinishesAt env plat d K raised)
    (ha : (c.arch (Sequential.cycleOf env plat d K)).Agrees (Sequential.run env plat K)) :
    c.RunsProgram env plat d K raised ((Sequential.machine env plat).after K) := by
  rw [← Sequential.machineAt_eq_after h le_rfl]
  exact ⟨hfin, ha.xP, congrArg Platform.mem ha.plat, congrArg Platform.stdout ha.plat⟩

theorem looksLike_last (h : (Sequential.machine env plat).EndsAfter K) :
    LooksLikeEbreak (Sequential.instruction env plat K) := by
  rw [Sequential.instruction_last h]
  exact ⟨by decide, by decide, by decide⟩

theorem SingleCycle.runsProgram (h : (Sequential.machine env plat).EndsAfter K) :
    (SingleCycle.coreRun env plat).RunsProgram env plat 0 K True
      ((Sequential.machine env plat).after K) :=
  CoreRun.runsProgram_of_agrees h (SingleCycle.finishesAt h) (SingleCycle.agrees_last h)

theorem TwoStage.runsProgram {s : TwoStage} (h : (Sequential.machine env s.plat).EndsAfter K) :
    (s.coreRun env).RunsProgram env s.plat 1 K True
      ((Sequential.machine env s.plat).after K) := by
  have hp := (Sequential.pipelinableTo_of_endsAfter h).haltFree
  have hhalt : IsHaltWord (Sequential.instruction env s.plat K) := by
    refine ⟨looksLike_last h, ?_⟩
    rw [Sequential.instruction_last h]
    decide
  obtain ⟨hlow, hhigh⟩ := TwoStage.finishesAt hp
  exact CoreRun.runsProgram_of_agrees h ⟨hlow, hhigh.trans (iff_of_true hhalt trivial)⟩
    ((TwoStage.onTime hp).state K le_rfl)

theorem ThreeStage.runsProgram {s : ThreeStage} (h : (Sequential.machine env s.plat).EndsAfter K) :
    (s.coreRun env).RunsProgram env s.plat 2 K (Sequential.AheadNamesX0 env s.plat K)
      ((Sequential.machine env s.plat).after K) :=
  have hp := Sequential.pipelinableTo_of_endsAfter h
  CoreRun.runsProgram_of_agrees h (ThreeStage.finishesAt hp (looksLike_last h))
    ((ThreeStage.onTime hp).state K le_rfl)

theorem Pipeline.runsProgram {s : Pipeline} (h : (Sequential.machine env s.plat).EndsAfter K) :
    (s.coreRun env).RunsProgram env s.plat 3 K (Sequential.AheadNamesX0 env s.plat K)
      ((Sequential.machine env s.plat).after K) :=
  have hp := Sequential.pipelinableTo_of_endsAfter h
  CoreRun.runsProgram_of_agrees h (Pipeline.finishesAt hp (looksLike_last h))
    ((Pipeline.onTime hp).state K le_rfl)

end Cores

end MicroRiscv
