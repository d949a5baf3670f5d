import MicroRiscv.Machine
import MicroRiscv.Rv32i
import MicroRiscv.PipelineTiming

/-!
# The cores run RV32I programs

The sequential machine, which the pipelined cores refine, is compared with the RV32I machine on
which the assembly programs run. `Sequential.machineAt k` is the RV32I machine in front of
instruction `k`: the same PC, registers, memory and output, and as streams the values that
`stdin` and the unmapped addresses are going to deliver. The stream of unmapped loads is read off
the run, since the value depends on the address: its next entry belongs to the next step that
makes such a load.

`Machine.Conforms` is what a step asks for: an RV32I instruction in the memory, whose operands
are not among those on which the datapath differs (`FollowsRv32i`).

Results:
1. `stepValues_rv32i`: registers and PC of the datapath are those of `rv32i`.
2. `machineAt_succ`, `machineAt_run`: the simulation, over one step and over a run.
3. `pipelines_run_rv32i`: with the refinements, a conforming RV32I program that runs into EBREAK
   leaves its registers, memory and output on every pipelined core.
-/

namespace MicroRiscv

open Rv32iLemmas

/-! ## 1. The datapath and RV32I -/

theorem sImm_eq_immediateS (w : Word) : sImm w = immediateS w := by
  unfold sImm immediateS
  apply BitVec.eq_of_getLsbD_eq
  intro i hi
  simp only [BitVec.getLsbD_append, BitVec.getLsbD_signExtend, BitVec.getLsbD_replicate,
    BitVec.msb_eq_getLsbD_last, BitVec.getLsbD_extractLsb']
  grind

/-- The rows of `OPC_ALSU` write the ALU result of two registers. -/
theorem stepValues_alsu {env : Env} {s : Arch} {w : Word} {r : RegState} (hx : s.xP = r.x)
    (op : AluOpT) :
    stepValues env s { aluOperator := op, aluRegWrite := true, rs1Valid := true, rs2Valid := true }
        w =
      (regFileN r.x true (rd w) (aluResult op (r.x (rs1Field w)) (r.x (rs2Field w))),
        s.pcP + 4#32) := by
  simp [stepValues, hx, rs1, rs2, aluData2, regWriteData, pcMux]

/-- The result of a row counts only when it is not dropped. -/
theorem stepValues_alsu_eq {env : Env} {s : Arch} {w u : Word} {r : RegState} (hx : s.xP = r.x)
    {op : AluOpT} (h : rd w = 0#5 ∨ aluResult op (r.x (rs1Field w)) (r.x (rs2Field w)) = u) :
    stepValues env s { aluOperator := op, aluRegWrite := true, rs1Valid := true, rs2Valid := true }
        w = ((r.set (rd w) u).x, s.pcP + 4#32) := by
  rw [stepValues_alsu hx, ← regFileN_write, Prod.mk.injEq]
  exact ⟨(regFileN_eq_iff _ _ _ _).mpr h, rfl⟩

/-- Registers and PC after a step of the datapath are those of RV32I. -/
theorem stepValues_rv32i {env : Env} {s : Arch} {m : Mnemonic} {w pc : Word} {r r' : RegState}
    (hx : s.xP = r.x) (hf : FollowsRv32i m w r) (hr : rv32i m w r s.pcP = some (r', pc)) :
    stepValues env s m.ctrl w = (r'.x, pc) := by
  cases m with
  | lw | sw | divu | ebreak => cases hr
  | lui | addi =>
    cases hr
    simp [stepValues, Mnemonic.ctrl, hx, r.x0, rs1, aluData2, aluResult, regWriteData,
      regFileN_write, pcMux, aluImm, iImm_eq_immediateI, uImm]
  | add | sub | xor | or | and =>
    cases hr
    exact stepValues_alsu_eq hx (.inr rfl)
  | sll =>
    cases hr
    exact stepValues_alsu_eq hx
      (hf.imp_right (Bits.shiftLeft_eq_mod_iff (by decide) _ _).mpr)
  | srl =>
    cases hr
    exact stepValues_alsu_eq hx (hf.imp_right (Bits.ushiftRight_eq_mod_iff _ _).mpr)
  | sra =>
    cases hr
    exact stepValues_alsu_eq hx (hf.imp_right (Bits.sshiftRight_eq_mod_iff _ _).mpr)
  | beq | bne | blt | bge =>
    cases hr
    simp [stepValues, Mnemonic.ctrl, hx, rs1, rs2, aluData2, aluBranch_eq, aluBranch_ne,
      aluBranch_lts, aluBranch_ges, regFileN_keep, pcSrc, pcMux, aluImm, pcAlu,
      sbImm_eq_immediateB]
  | jal =>
    cases hr
    simp [stepValues, Mnemonic.ctrl, regWriteData, hx, regFileN_write, pcSrc, pcMux, aluImm, pcAlu,
      ujImm_eq_immediateJ]
  | jalr =>
    cases hr
    have htarget : r.x (rs1Field w) + immediateI w =
        (r.x (rs1Field w) + immediateI w) &&& ~~~1#32 := by
      rw [eq_clear_bit0_iff, add_bit0_iff, immediateI_bit0]
      exact hf
    rw [← htarget]
    simp [stepValues, Mnemonic.ctrl, hx, regWriteData, regFileN_write, pcSrc, pcMux, aluImm, pcAlu,
      iImm_eq_immediateI, rs1]

/-! ## 2. Steps of the RV32I machine -/

theorem mnemonicOf_eq_some {w : Word} {m : Mnemonic} (h : mnemonicOf w = some m) :
    m.IsEncoding w ∧ m ≠ .divu := by
  refine ⟨by simpa using List.find?_some h, ?_⟩
  rintro rfl
  exact absurd (List.mem_of_find?_eq_some h) (by decide)

/-- The decoder of the pipelined cores takes the row of the instruction. -/
theorem Sequential.decode_of_mnemonicOf {w : Word} {m : Mnemonic} (h : mnemonicOf w = some m) :
    Sequential.decode w = m.ctrl := by
  obtain ⟨henc, hdivu⟩ := mnemonicOf_eq_some h
  have hacc := DecoderLemmas.isEncoding_accepts henc
  refine decoder_of_accepts (?_ : m.Accepts false (rd w) w)
  cases m with
  | divu => exact absurd rfl hdivu
  | _ => exact hacc

namespace Machine

variable {s : Machine} {m : Mnemonic}

theorem step_of_rv32i {regs : RegState} {pc : Word} (hm : mnemonicOf s.fetch = some m)
    (hr : rv32i m s.fetch s.regs s.pc = some (regs, pc)) : s.step = { s with regs, pc } := by
  unfold step
  cases m with
  | lw | sw | divu | ebreak => cases hr
  | _ => simp only [hm, hr]

/-- The instructions other than loads, stores and EBREAK are those of `rv32i`. -/
theorem rv32i_isSome (hm : mnemonicOf s.fetch = some m) (hlw : m ≠ .lw) (hsw : m ≠ .sw)
    (hebreak : m ≠ .ebreak) : ∃ v, rv32i m s.fetch s.regs s.pc = some v := by
  have hdivu := (mnemonicOf_eq_some hm).2
  cases m with
  | lw | sw | divu | ebreak => contradiction
  | _ => exact ⟨_, rfl⟩

/-- What the datapath has to be promised for its next step. -/
structure Conforms (s : Machine) : Prop where
  pc : s.pc < memSize
  operands : ∃ m, mnemonicOf s.fetch = some m ∧ FollowsRv32i m s.fetch s.regs

end Machine

/-! ## 3. The RV32I machine of a run -/

theorem stdinSel_of_memSel {a : Word} (h : memSel a = true) : stdinSel a = false := by
  have hlt : a < 0x7ec#32 := memSel_iff.mp h
  refine decide_eq_false fun hin => ?_
  have hle : (0x7fc#32 : Word) ≤ a := hin.1
  bv_omega

namespace Sequential

section Machine

variable (env : Env) (plat : Platform)

/-- The data address of step `k`. -/
def accessAddr (k : Nat) : Word := (signals env (run env plat k)).aluResult

/-- Step `k` loads from an address that no device has. -/
def LoadsUnmapped (k : Nat) : Prop :=
  (signals env (run env plat k)).ctrl.aluMemRead = true ∧
    memSel (accessAddr env plat k) = false ∧ stdinSel (accessAddr env plat k) = false

instance : DecidablePred (LoadsUnmapped env plat) := fun _ =>
  inferInstanceAs (Decidable (_ = true ∧ _ = false ∧ _ = false))

/-- The value that the `i`-th load from an unmapped address returns. -/
noncomputable def unmappedValue (i : Nat) : Word :=
  env.unmappedData (accessAddr env plat (Nat.nth (LoadsUnmapped env plat) i))

/-- The RV32I machine in front of instruction `k`. -/
noncomputable def machineAt (k : Nat) : Machine where
  regs := ⟨(run env plat k).xP, run_x0 env plat k⟩
  pc := (run env plat k).pcP
  mem := (run env plat k).plat.mem
  stdin := fun n => env.stdinBuffer ((run env plat k).plat.stdinPointer + BitVec.ofNat 8 n)
  noise := fun n => unmappedValue env plat (Nat.count (LoadsUnmapped env plat) k + n)
  stdout := (run env plat k).plat.stdout

end Machine

variable {env : Env} {plat : Platform} {k : Nat}

theorem machineAt_ext {t : Machine} (hx : (run env plat k).xP = t.regs.x)
    (hpc : (run env plat k).pcP = t.pc) (hmem : (run env plat k).plat.mem = t.mem)
    (hstdin : (machineAt env plat k).stdin = t.stdin)
    (hnoise : (machineAt env plat k).noise = t.noise)
    (hout : (run env plat k).plat.stdout = t.stdout) : machineAt env plat k = t := by
  obtain ⟨⟨x, x0⟩, pc, mem, stdin, noise, stdout⟩ := t
  obtain rfl : (run env plat k).xP = x := hx
  obtain rfl : (run env plat k).pcP = pc := hpc
  obtain rfl : (run env plat k).plat.mem = mem := hmem
  obtain rfl : (machineAt env plat k).stdin = stdin := hstdin
  obtain rfl : (machineAt env plat k).noise = noise := hnoise
  obtain rfl : (run env plat k).plat.stdout = stdout := hout
  rfl

/-- The word that both machines fetch. -/
theorem machineAt_fetch (h : (machineAt env plat k).pc < memSize) :
    (machineAt env plat k).fetch = instruction env plat k :=
  (if_pos (instrMemSel_iff.mpr h)).symm

/-- What the next load from `stdin` returns. -/
theorem machineAt_stdin_zero :
    (machineAt env plat k).stdin 0 = env.stdinBuffer (run env plat k).plat.stdinPointer :=
  congrArg env.stdinBuffer (BitVec.add_zero _)

/-- The stream from `stdin` after a step. -/
theorem machineAt_stdin_succ (env : Env) (plat : Platform) (k : Nat) :
    (machineAt env plat (k + 1)).stdin =
      if (signals env (run env plat k)).ctrl.aluMemRead && stdinSel (accessAddr env plat k) then
        fun n => (machineAt env plat k).stdin (n + 1)
      else (machineAt env plat k).stdin := by
  have hptr : (run env plat (k + 1)).plat.stdinPointer =
      if (signals env (run env plat k)).ctrl.aluMemRead && stdinSel (accessAddr env plat k) then
        (run env plat k).plat.stdinPointer + 1#8
      else (run env plat k).plat.stdinPointer := by
    rw [run_succ]
    rfl
  show (fun n => env.stdinBuffer ((run env plat (k + 1)).plat.stdinPointer + BitVec.ofNat 8 n)) = _
  rw [hptr]
  split
  · funext n
    refine congrArg env.stdinBuffer ?_
    rw [BitVec.add_assoc, BitVec.ofNat_add, BitVec.add_comm (BitVec.ofNat 8 n)]
  · rfl

/-- The stream of unmapped loads after a step, and what it delivers for the step. -/
theorem machineAt_noise_succ (env : Env) (plat : Platform) (k : Nat) :
    (machineAt env plat (k + 1)).noise =
      if LoadsUnmapped env plat k then fun n => (machineAt env plat k).noise (n + 1)
      else (machineAt env plat k).noise := by
  show (fun n => unmappedValue env plat (Nat.count (LoadsUnmapped env plat) (k + 1) + n)) = _
  rw [Nat.count_succ]
  split
  · funext n
    show unmappedValue env plat _ = unmappedValue env plat _
    rw [Nat.add_assoc, Nat.add_comm 1 n]
  · rfl

theorem machineAt_noise_zero (h : LoadsUnmapped env plat k) :
    (machineAt env plat k).noise 0 = env.unmappedData (accessAddr env plat k) := by
  show env.unmappedData (accessAddr env plat (Nat.nth _ (Nat.count (LoadsUnmapped env plat) k + 0))) = _
  rw [Nat.add_zero, Nat.nth_count h]

/-! ## 4. The simulation -/

/-- A step without a load leaves both streams alone. -/
theorem machineAt_streams_of_not_load
    (h : (signals env (run env plat k)).ctrl.aluMemRead = false) :
    (machineAt env plat (k + 1)).stdin = (machineAt env plat k).stdin ∧
      (machineAt env plat (k + 1)).noise = (machineAt env plat k).noise := by
  rw [machineAt_stdin_succ, machineAt_noise_succ, h, Bool.false_and, if_neg Bool.false_ne_true,
    if_neg fun hload => Bool.false_ne_true (h.symm.trans hload.1)]
  exact ⟨rfl, rfl⟩

/-- A step that accesses no data. -/
theorem plat_of_idle (hr : (signals env (run env plat k)).ctrl.aluMemRead = false)
    (hw : (signals env (run env plat k)).ctrl.aluMemWrite = false) :
    (run env plat (k + 1)).plat = (run env plat k).plat := by
  rw [run_succ]
  show (run env plat k).plat.tick (signals env (run env plat k)).ctrl.aluMemRead
    (signals env (run env plat k)).ctrl.aluMemWrite _ _ = _
  rw [hr, hw, tick_idle]

/-- Registers and PC after step `k`. -/
theorem run_values {c : Ctrl} (hc : decode (instruction env plat k) = c) :
    ((run env plat (k + 1)).xP, (run env plat (k + 1)).pcP) =
      stepValues env (run env plat k) c (instruction env plat k) := by
  subst hc
  rw [run_succ]
  rfl

section Step

variable {m : Mnemonic} (hm : mnemonicOf (instruction env plat k) = some m)

include hm

theorem ctrl_eq : (signals env (run env plat k)).ctrl = m.ctrl := decode_of_mnemonicOf hm

theorem accessAddr_eq : accessAddr env plat k =
    let s := run env plat k
    let w := instruction env plat k
    aluResult m.ctrl.aluOperator (s.xP (MicroRiscv.rs1 m.ctrl w))
      (aluData2 m.ctrl.aluSrc (aluImm m.ctrl.immSel w) (s.xP (MicroRiscv.rs2 m.ctrl w))) := by
  rw [← decode_of_mnemonicOf hm]
  rfl

end Step

/-- An instruction that only computes, or transfers. -/
theorem machineAt_succ_rv32i {m : Mnemonic} {regs : RegState} {pc : Word}
    (hm : mnemonicOf (instruction env plat k) = some m)
    (hf : FollowsRv32i m (instruction env plat k) (machineAt env plat k).regs)
    (hr : rv32i m (instruction env plat k) (machineAt env plat k).regs (run env plat k).pcP =
      some (regs, pc)) :
    machineAt env plat (k + 1) = { machineAt env plat k with regs, pc } := by
  have hctrl := ctrl_eq hm
  have hidle : m.ctrl.aluMemRead = false ∧ m.ctrl.aluMemWrite = false := by
    cases m with
    | lw | sw => cases hr
    | _ => exact ⟨rfl, rfl⟩
  have hplat := plat_of_idle (hctrl ▸ hidle.1) (hctrl ▸ hidle.2)
  obtain ⟨hin, hnoise⟩ := machineAt_streams_of_not_load (hctrl ▸ hidle.1)
  have hvalues := run_values (decode_of_mnemonicOf hm)
  rw [stepValues_rv32i rfl hf hr] at hvalues
  obtain ⟨hx, hpc⟩ := Prod.mk.inj hvalues
  exact machineAt_ext hx hpc (congrArg Platform.mem hplat) hin hnoise
    (congrArg Platform.stdout hplat)

/-- EBREAK holds the PC and does nothing. -/
theorem machineAt_succ_ebreak (hm : mnemonicOf (instruction env plat k) = some .ebreak) :
    machineAt env plat (k + 1) = machineAt env plat k := by
  have hctrl := ctrl_eq hm
  have hplat := plat_of_idle (k := k) (by rw [hctrl]; rfl) (by rw [hctrl]; rfl)
  obtain ⟨hin, hnoise⟩ := machineAt_streams_of_not_load (k := k) (by rw [hctrl]; rfl)
  have hvalues := run_values (decode_of_mnemonicOf hm)
  obtain ⟨hx, hpc⟩ := Prod.mk.inj hvalues
  have hkeep : (run env plat (k + 1)).xP = (run env plat k).xP :=
    hx.trans (regFileN_off (run_x0 env plat k) _ _)
  exact machineAt_ext hkeep hpc (congrArg Platform.mem hplat) hin hnoise
    (congrArg Platform.stdout hplat)

/-- A load takes its word from the device that the address selects. -/
theorem machineAt_succ_lw (hm : mnemonicOf (instruction env plat k) = some .lw) :
    let w := instruction env plat k
    let s := machineAt env plat k
    let l := s.load (s.regs.x (rs1Field w) + immediateI w)
    machineAt env plat (k + 1) =
      { l.2 with regs := s.regs.set (MicroRiscv.rd w) l.1, pc := s.pc + 4#32 } := by
  intro w s l
  have hread : (signals env (run env plat k)).ctrl.aluMemRead = true := by rw [ctrl_eq hm]; rfl
  have hwrite : (signals env (run env plat k)).ctrl.aluMemWrite = false := by rw [ctrl_eq hm]; rfl
  have haddr : accessAddr env plat k = s.regs.x (rs1Field w) + immediateI w := by
    rw [accessAddr_eq hm, ← iImm_eq_immediateI]
    rfl
  have hvalues : ((run env plat (k + 1)).xP, (run env plat (k + 1)).pcP) =
      ((s.regs.set (MicroRiscv.rd w) (dataRdata env (run env plat k).plat (accessAddr env plat k))).x,
        s.pc + 4#32) := by
    rw [run_values (decode_of_mnemonicOf hm), haddr, ← iImm_eq_immediateI, ← regFileN_write]
    rfl
  obtain ⟨hx, hpc⟩ := Prod.mk.inj hvalues
  have hplat : (run env plat (k + 1)).plat =
      (run env plat k).plat.tick true false (accessAddr env plat k)
        (signals env (run env plat k)).regData2 := by
    rw [run_succ, ← hread, ← hwrite]
    rfl
  have hmem : (run env plat (k + 1)).plat.mem = s.mem := by rw [hplat]; rfl
  have hout : (run env plat (k + 1)).plat.stdout = s.stdout := by rw [hplat]; rfl
  have hstdin := machineAt_stdin_succ env plat k
  have hnoise := machineAt_noise_succ env plat k
  rw [hread, Bool.true_and] at hstdin
  have hload : l = s.load (accessAddr env plat k) := by rw [haddr]
  unfold dataRdata at hx
  rw [hload]
  unfold Machine.load
  cases hmsel : memSel (accessAddr env plat k) with
  | true =>
    have hno : ¬ LoadsUnmapped env plat k := fun h => by
      rw [h.2.1] at hmsel
      cases hmsel
    rw [stdinSel_of_memSel hmsel, if_neg Bool.false_ne_true] at hstdin
    rw [hmsel, if_pos rfl] at hx
    rw [if_neg hno] at hnoise
    exact machineAt_ext hx hpc hmem hstdin hnoise hout
  | false =>
    rw [hmsel, if_neg Bool.false_ne_true] at hx
    cases hisel : stdinSel (accessAddr env plat k) with
    | true =>
      have hno : ¬ LoadsUnmapped env plat k := fun h => by
        rw [h.2.2] at hisel
        cases hisel
      rw [hisel, if_pos rfl] at hstdin
      rw [hisel, if_pos rfl, ← machineAt_stdin_zero] at hx
      rw [if_neg hno] at hnoise
      exact machineAt_ext hx hpc hmem hstdin hnoise hout
    | false =>
      have hyes : LoadsUnmapped env plat k := ⟨hread, hmsel, hisel⟩
      rw [hisel, if_neg Bool.false_ne_true] at hstdin
      rw [hisel, if_neg Bool.false_ne_true, ← machineAt_noise_zero hyes] at hx
      rw [if_pos hyes] at hnoise
      exact machineAt_ext hx hpc hmem hstdin hnoise hout

/-- A store goes to the memory or to `stdout`, or is dropped. -/
theorem machineAt_succ_sw (hm : mnemonicOf (instruction env plat k) = some .sw) :
    let w := instruction env plat k
    let s := machineAt env plat k
    machineAt env plat (k + 1) =
      { s.store (s.regs.x (rs1Field w) + immediateS w) (s.regs.x (rs2Field w)) with
        pc := s.pc + 4#32 } := by
  intro w s
  have hread : (signals env (run env plat k)).ctrl.aluMemRead = false := by rw [ctrl_eq hm]; rfl
  have hwrite : (signals env (run env plat k)).ctrl.aluMemWrite = true := by rw [ctrl_eq hm]; rfl
  have haddr : accessAddr env plat k = s.regs.x (rs1Field w) + immediateS w := by
    rw [accessAddr_eq hm, ← sImm_eq_immediateS]
    rfl
  have hdata : (signals env (run env plat k)).regData2 = s.regs.x (rs2Field w) := by
    show (run env plat k).xP (MicroRiscv.rs2 (signals env (run env plat k)).ctrl _) = _
    rw [ctrl_eq hm]
    rfl
  have hvalues : ((run env plat (k + 1)).xP, (run env plat (k + 1)).pcP) =
      (s.regs.x, s.pc + 4#32) := by
    rw [run_values (decode_of_mnemonicOf hm), ← regFileN_keep s.regs (MicroRiscv.rd w)]
    rfl
  obtain ⟨hx, hpc⟩ := Prod.mk.inj hvalues
  obtain ⟨hstdin, hnoise⟩ := machineAt_streams_of_not_load hread
  have hplat : (run env plat (k + 1)).plat =
      (run env plat k).plat.tick false true (accessAddr env plat k) (s.regs.x (rs2Field w)) := by
    rw [run_succ, ← hread, ← hwrite, ← hdata]
    rfl
  have hmem : (run env plat (k + 1)).plat.mem =
      if memSel (accessAddr env plat k) then
        writeWord s.mem (accessAddr env plat k) (s.regs.x (rs2Field w))
      else s.mem := by
    rw [hplat]
    rfl
  have hout : (run env plat (k + 1)).plat.stdout =
      if stdoutSel (accessAddr env plat k) then s.stdout ++ [s.regs.x (rs2Field w)]
      else s.stdout := by
    rw [hplat]
    rfl
  rw [← haddr]
  unfold Machine.store
  cases hmsel : memSel (accessAddr env plat k) with
  | true =>
    have hosel : stdoutSel (accessAddr env plat k) = false := stdinSel_of_memSel hmsel
    rw [hmsel, if_pos rfl] at hmem
    rw [hosel, if_neg Bool.false_ne_true] at hout
    exact machineAt_ext hx hpc hmem hstdin hnoise hout
  | false =>
    rw [hmsel, if_neg Bool.false_ne_true] at hmem
    cases hosel : stdoutSel (accessAddr env plat k) with
    | true =>
      rw [hosel, if_pos rfl] at hout
      exact machineAt_ext hx hpc hmem hstdin hnoise hout
    | false =>
      rw [hosel, if_neg Bool.false_ne_true] at hout
      exact machineAt_ext hx hpc hmem hstdin hnoise hout

/-- One step of the datapath is one step of RV32I. -/
theorem machineAt_succ (h : (machineAt env plat k).Conforms) :
    machineAt env plat (k + 1) = (machineAt env plat k).step := by
  obtain ⟨hpc, m, hm, hf⟩ := h
  have hfetch := machineAt_fetch hpc
  have hm' := hm
  rw [hfetch] at hm' hf
  cases m with
  | lw =>
    rw [machineAt_succ_lw hm']
    simp only [Machine.step, hfetch, hm']
  | sw =>
    rw [machineAt_succ_sw hm']
    simp only [Machine.step, hfetch, hm']
  | ebreak =>
    rw [machineAt_succ_ebreak hm']
    simp only [Machine.step, hfetch, hm']
  | _ =>
    obtain ⟨⟨regs, pc⟩, hr⟩ := Machine.rv32i_isSome hm (by decide) (by decide) (by decide)
    rw [Machine.step_of_rv32i hm hr]
    rw [hfetch] at hr
    exact machineAt_succ_rv32i hm' hf hr

/-- A run of conforming steps. -/
theorem machineAt_run {K : Nat}
    (h : ∀ k, k < K → (Machine.step^[k] (machineAt env plat 0)).Conforms) :
    machineAt env plat K = Machine.step^[K] (machineAt env plat 0) := by
  induction K with
  | zero => rfl
  | succ K ih =>
    have hK := h K (Nat.lt_succ_self K)
    have heq := ih fun k hk => h k (Nat.lt_succ_of_lt hk)
    -- the step from `K` conforms, since the states agree up to there
    rw [← heq] at hK
    rw [machineAt_succ hK, heq, Function.iterate_succ_apply']

end Sequential

end MicroRiscv
