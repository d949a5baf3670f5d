import MicroRiscv.PipelineSlots

/-!
# The 4-stage core refines sequential execution

The reference is `Sequential`, the same datapath with one instruction per step. The
simulation `Traced.Sim k` says that the core has retired `k` instructions: registers and
devices are those of the sequential machine after `k` steps, and the occupants of WB, EX
and ID continue its path from the `k`-th instruction on, up to the first transfer among
them. Behind a transfer nothing is claimed, since the transfer squashes it.

Two assumptions are made about the path (`Sequential.Pipelinable`): no instruction has the
opcode SYSTEM, and no store writes a byte that is fetched as part of an instruction.

Results:
1. `Fetched.exWb_eq_ofSignals`: an occupant of WB holds the signals of its sequential step.
2. `Traced.inStep`, `Traced.sim_run`: the simulation, over one cycle and over a run.
3. `wb_slot_none_iff`: where the bubbles in WB are.
4. `pipeline_refines_sequential`: the refinement.
-/

namespace MicroRiscv

open Pipeline

/-! ## 1. The sequential path -/

namespace Sequential

section Path

variable (env : Env) (plat : Platform)

/-- The word of the `k`-th instruction. -/
def instruction (k : Nat) : Word := (signals env (run env plat k)).instruction

/-- The `k`-th instruction is a taken branch or a jump. -/
def Transfers (k : Nat) : Prop := (signals env (run env plat k)).pcSrc = true

/-- The `k`-th instruction stores to the byte `x` of the memory array. -/
def Stores (k : Nat) (x : Word) : Prop :=
  let e := effects env (run env plat k)
  e.dataWe = true ∧ memSel e.dataAddr = true ∧ inWord e.dataAddr x ∧ x < memSize

/-- The byte `x` is fetched as part of the `k`-th instruction. -/
def Fetches (k : Nat) (x : Word) : Prop :=
  let pc := (run env plat k).pcP
  instrMemSel pc = true ∧ inWord pc x

/-- The assumptions on a path. -/
structure Pipelinable : Prop where
  noSystem : ∀ k, opcode (instruction env plat k) ≠ opcSystem
  noSelfModification : ∀ j k x, Stores env plat j x → ¬ Fetches env plat k x

end Path

variable {env : Env} {plat : Platform}

/-- The first `K` instructions leave the words of the path alone, the one behind them included,
which is fetched too. -/
structure KeepsCode (env : Env) (plat : Platform) (K : Nat) : Prop where
  noSelfModification : ∀ j k x, j < K → k ≤ K → Stores env plat j x → ¬ Fetches env plat k x

/-- The assumptions on the first `K` instructions of a path. -/
structure PipelinableTo (env : Env) (plat : Platform) (K : Nat) : Prop
    extends KeepsCode env plat K where
  noSystem : ∀ k, k < K → opcode (instruction env plat k) ≠ opcSystem

theorem Pipelinable.upTo (h : Pipelinable env plat) (K : Nat) : PipelinableTo env plat K where
  noSelfModification := fun j k x _ _ => h.noSelfModification j k x
  noSystem := fun k _ => h.noSystem k

section Code

variable {K : Nat}

/-- One step leaves every fetched byte alone. -/
theorem KeepsCode.step_mem (h : KeepsCode env plat K) {j k : Nat} (hj : j < K) (hk : k ≤ K)
    {x : Word} (hx : Fetches env plat k x) :
    (run env plat (j + 1)).plat.mem x = (run env plat j).plat.mem x := by
  have hno : ¬ Stores env plat j x := fun hst => h.noSelfModification j k x hj hk hst hx
  rw [run_succ]
  show (if _ then _ else _ : Word → Byte) x = _
  split
  · next hwe =>
    rw [Bool.and_eq_true] at hwe
    apply writeWord_other
    rintro ⟨hin, hlt⟩
    exact hno ⟨hwe.1, hwe.2, hin, hlt⟩
  · rfl

/-- The word at an address of the path is the same at every step of the path. -/
theorem KeepsCode.instrRdata_run (h : KeepsCode env plat K) {j k : Nat} (hj : j ≤ K)
    (hk : k ≤ K) :
    instrRdata env (run env plat j).plat (run env plat k).pcP =
      instrRdata env plat (run env plat k).pcP := by
  induction j with
  | zero => rfl
  | succ j ih =>
    rw [← ih (Nat.le_of_succ_le hj)]
    unfold instrRdata
    split
    · next hsel => exact readWord_congr fun x hx => h.step_mem hj hk ⟨hsel, hx⟩
    · rfl

/-- So whoever has the devices of one step and the PC of another fetches the instruction
of the latter. -/
theorem KeepsCode.fetch (h : KeepsCode env plat K) {p : Platform} {pc : Word} {k j : Nat}
    (hk : k ≤ K) (hj : j ≤ K) (hplat : p = (run env plat k).plat)
    (hpc : pc = (run env plat j).pcP) : instrRdata env p pc = instruction env plat j := by
  rw [hplat, hpc, h.instrRdata_run hk hj, ← h.instrRdata_run hj hj]
  rfl

end Code

/-- Off the opcode SYSTEM nothing halts the sequential machine. -/
theorem cpuHalt_of_opcode {k : Nat} (h : opcode (instruction env plat k) ≠ opcSystem) :
    (signals env (run env plat k)).ctrl.cpuHalt = false := by
  rw [← Bool.not_eq_true]
  intro hhalt
  exact h (decoder_cpuHalt_iff.mp hhalt).1

theorem Pipelinable.cpuHalt (h : Pipelinable env plat) (k : Nat) :
    (signals env (run env plat k)).ctrl.cpuHalt = false :=
  cpuHalt_of_opcode (h.noSystem k)

theorem PipelinableTo.cpuHalt {K : Nat} (h : PipelinableTo env plat K) {k : Nat} (hk : k < K) :
    (signals env (run env plat k)).ctrl.cpuHalt = false :=
  cpuHalt_of_opcode (h.noSystem k hk)

/-- The PC after an instruction that does not halt. -/
theorem pcN_of_cpuHalt {S : Arch} (h : (signals env S).ctrl.cpuHalt = false) :
    pcN env S = if (signals env S).pcSrc then (signals env S).pcAlu else S.pcP + 4#32 := by
  show pcMux (signals env S).ctrl.cpuHalt _ _ _ _ = _
  rw [h]
  rfl

/-- The PC after the `k`-th instruction of the path. -/
theorem run_pcP {k : Nat} (h : (signals env (run env plat k)).ctrl.cpuHalt = false) :
    (run env plat (k + 1)).pcP =
      if (signals env (run env plat k)).pcSrc then (signals env (run env plat k)).pcAlu
      else (run env plat k).pcP + 4#32 := by
  rw [run_succ]
  exact pcN_of_cpuHalt h

end Sequential

/-! ## 2. What the occupant of WB does -/

/-- The EX/WB registers that hold the signals of a sequential step. -/
def ExWb.ofSignals (S : Arch) (g : Signals) : ExWb where
  aluIsBranchExP := g.ctrl.aluIsBranch
  aluIsJumpExP := g.ctrl.aluIsJump
  aluMemReadExP := g.ctrl.aluMemRead
  aluMemWriteExP := g.ctrl.aluMemWrite
  aluRegWriteExP := g.ctrl.aluRegWrite
  memToRegExP := g.ctrl.memToReg
  cpuHaltExP := g.ctrl.cpuHalt
  pcAluP := g.pcAlu
  aluBranchOP := g.aluBranchO
  aluResultP := g.aluResult
  rdExP := rd g.instruction
  pcExP := S.pcP
  regData2ExP := g.regData2

/-- Off the opcode SYSTEM the decoder does not look at `rd_p`. -/
theorem Fetched.ctrl_eq_decode {f : Fetched} (h : opcode f.word ≠ opcSystem) :
    f.ctrl = Sequential.decode f.word :=
  decoder_haltRd_congr h _ _

theorem Fetched.exWb_eq_ofSignals {env : Env} {f : Fetched} {S : Arch} (hpc : f.pc = S.pcP)
    (hw : f.word = (Sequential.signals env S).instruction) (hsys : opcode f.word ≠ opcSystem) :
    f.exWb S.xP = ExWb.ofSignals S (Sequential.signals env S) := by
  have hctrl : Pipeline.decode false (rd f.ahead) f.word = Sequential.decode f.word :=
    Fetched.ctrl_eq_decode hsys
  unfold Fetched.exWb Fetched.idEx idExN
  simp only [hctrl, hpc]
  rw [hw]
  rfl

section Retire

variable {env : Env} {t : Traced} {S : Arch}

/-- The core and a sequential machine agree on the instruction in WB. -/
structure Traced.Retires (env : Env) (t : Traced) (S : Arch) : Prop where
  x0 : S.xP 0#5 = 0#32
  xP : t.xP = S.xP
  plat : t.plat = S.plat
  exWb : t.exWb = ExWb.ofSignals S (Sequential.signals env S)

theorem Traced.Retires.regWriteData (h : t.Retires env S) :
    t.regWriteData env = (Sequential.signals env S).regWriteData := by
  unfold Pipeline.regWriteData
  rw [h.exWb, h.plat]
  rfl

theorem Traced.Retires.pcSrc (h : t.Retires env S) :
    t.pcSrc = (Sequential.signals env S).pcSrc := by
  unfold Pipeline.pcSrc
  rw [h.exWb]
  rfl

/-- The registers after the clock edge. -/
theorem Traced.Retires.step_xP (h : t.Retires env S) :
    (t.step env).xP = (Sequential.step env S).xP := by
  show regFileN t.xP t.exWb.aluRegWriteExP t.exWb.rdExP (t.regWriteData env) = _
  rw [h.regWriteData, h.exWb, h.xP]
  rfl

/-- The devices after the clock edge. -/
theorem Traced.Retires.step_plat (h : t.Retires env S) :
    (t.step env).plat = (Sequential.step env S).plat := by
  show t.plat.tick t.exWb.aluMemReadExP t.exWb.aluMemWriteExP t.exWb.aluResultP
    t.exWb.regData2ExP = _
  rw [h.exWb, h.plat]
  rfl

/-- Everything the instruction does at the ports of the core. -/
theorem Traced.Retires.effects (h : t.Retires env S)
    (hhalt : (Sequential.signals env S).ctrl.cpuHalt = false) :
    t.effects env = Sequential.effects env S := by
  unfold Pipeline.effects Sequential.effects
  rw [h.regWriteData, h.pcSrc, h.exWb, Sequential.pcN_of_cpuHalt hhalt]
  rfl

end Retire

/-! ## 3. The simulation -/

namespace Traced

/-- Address and word of an occupant. -/
def insn (f : Fetched) : Word × Word := (f.pc, f.word)

/-- The occupants of WB, EX and ID, the oldest first. -/
def stages (t : Traced) : List (Option (Word × Word)) :=
  [t.wbSlot.map insn, t.exSlot.map insn, t.idSlot.map insn]

/-- One cycle moves the occupants up, or squashes them all. -/
theorem stages_step (env : Env) (t : Traced) :
    (t.step env).stages = Slots.advance t.pcSrc t.stages (insn (t.fetched env)) := by
  unfold stages step Slots.advance
  cases t.pcSrc <;> rfl

/-- Address and word of the `k`-th instruction of the path. -/
def pathInsn (env : Env) (init : Platform) (k : Nat) : Word × Word :=
  ((Sequential.run env init k).pcP, Sequential.instruction env init k)

/-- The core has retired `k` instructions. -/
structure Sim (env : Env) (init : Platform) (k : Nat) (t : Traced) : Prop where
  inv : t.Inv
  xP : t.xP = (Sequential.run env init k).xP
  plat : t.plat = (Sequential.run env init k).plat
  chain : Slots.Chain (pathInsn env init) (Sequential.Transfers env init)
    (fun j => t.pcP = (Sequential.run env init j).pcP) k t.stages

variable {env : Env} {init : Platform} {k : Nat} {t : Traced}

/-- An occupant of WB is the `k`-th instruction of the path. -/
theorem Sim.wb_occupant (h : Sim env init k t) {f : Fetched} (hwb : t.wbSlot = some f) :
    insn f = pathInsn env init k := by
  have hchain := h.chain
  unfold stages at hchain
  rw [hwb] at hchain
  exact hchain.1

/-- Such an occupant does what that instruction does. -/
theorem Inv.retires (hsys : opcode (Sequential.instruction env init k) ≠ opcSystem) (h : t.Inv)
    (ha : t.toArch.Agrees (Sequential.run env init k)) {f : Fetched} (hwb : t.wbSlot = some f)
    (hf : insn f = pathInsn env init k) : t.Retires env (Sequential.run env init k) where
  x0 := Sequential.run_x0 env init k
  xP := ha.xP
  plat := ha.plat
  exWb := by
    obtain ⟨hpc, hw⟩ := Prod.mk.inj hf
    have hxP : t.xP = (Sequential.run env init k).xP := ha.xP
    rw [h.wbSome f hwb, hxP]
    exact Fetched.exWb_eq_ofSignals hpc hw (hw ▸ hsys)

theorem Sim.retires (hp : Sequential.Pipelinable env init) (h : Sim env init k t) {f : Fetched}
    (hwb : t.wbSlot = some f) : t.Retires env (Sequential.run env init k) :=
  h.inv.retires (hp.noSystem k) ⟨h.xP, h.plat⟩ hwb (h.wb_occupant hwb)

/-- A bubble in WB does nothing. -/
theorem Inv.bubble_pcSrc (h : t.Inv) (hwb : t.wbSlot = none) : t.pcSrc = false := by
  unfold Pipeline.pcSrc
  rw [(h.wbNone hwb).branch, (h.wbNone hwb).jump, pcSrc_off]

theorem Inv.bubble_xP (h : t.Inv) (hwb : t.wbSlot = none) : (t.step env).xP = t.xP := by
  show regFileN t.xP t.exWb.aluRegWriteExP t.exWb.rdExP (t.regWriteData env) = _
  cases (h.wbNone hwb).regWrite with
  | inl hoff => rw [hoff, regFileN_off h.x0]
  | inr hx0 => rw [hx0, regFileN_x0 h.x0]

theorem Inv.bubble_plat (h : t.Inv) (hwb : t.wbSlot = none) : (t.step env).plat = t.plat := by
  show t.plat.tick t.exWb.aluMemReadExP t.exWb.aluMemWriteExP _ _ = _
  rw [(h.wbNone hwb).memRead, (h.wbNone hwb).memWrite, tick_idle]

/-- WB does not halt on a path without the opcode SYSTEM. -/
theorem Inv.cpuHalt_off (h : t.Inv) (ha : t.toArch.Agrees (Sequential.run env init k))
    (hhead : ∀ f, t.wbSlot = some f → insn f = pathInsn env init k ∧
      opcode (Sequential.instruction env init k) ≠ opcSystem) :
    t.exWb.cpuHaltExP = false := by
  cases hwb : t.wbSlot with
  | none => exact (h.wbNone hwb).halt
  | some f =>
    obtain ⟨hf, hsys⟩ := hhead f hwb
    rw [(h.retires hsys ha hwb hf).exWb]
    exact Sequential.cpuHalt_of_opcode hsys

/-! ## 4. The refinement over a run -/

/-- The instructions that have been in WB before cycle `n`. -/
def retired (env : Env) (s : Pipeline) (n : Nat) : Nat :=
  Nat.count (fun m => (run env s m).wbSlot.isSome) n

/-- The occupants over a run, as a pipeline of three stages. -/
theorem slots_run (env : Env) (s : Pipeline) :
    Slots.Run 3 (fun n => (run env s n).stages) (fun n => (run env s n).pcSrc)
      (fun n => insn ((run env s n).fetched env)) where
  pos := by decide
  start := rfl
  next := fun n => by rw [run_succ, stages_step]

theorem stages_head (t : Traced) : t.stages[0]? = some (t.wbSlot.map insn) := rfl

theorem stages_head_none_iff (t : Traced) : t.stages[0]? = some none ↔ t.wbSlot = none := by
  rw [stages_head, Option.some.injEq, Option.map_eq_none_iff]

theorem stages_head_some_iff {t : Traced} {x : Word × Word} :
    t.stages[0]? = some (some x) ↔ ∃ f, t.wbSlot = some f ∧ insn f = x := by
  rw [stages_head, Option.some.injEq, Option.map_eq_some_iff]

theorem occupied_stages (t : Traced) : Slots.occupied t.stages = t.wbSlot.isSome := by
  unfold stages
  cases t.wbSlot <;> rfl

theorem retired_eq (env : Env) (s : Pipeline) (n : Nat) :
    retired env s n = Slots.retired (fun m => (run env s m).stages) n := by
  unfold retired Slots.retired
  simp only [occupied_stages]

/-- Only an occupant of WB transfers. -/
theorem occupied_of_pcSrc {s : Pipeline} (n : Nat) (hsrc : (run env s n).pcSrc = true) :
    Slots.occupied (run env s n).stages = true := by
  rw [occupied_stages]
  cases hwb : (run env s n).wbSlot with
  | none =>
    rw [(inv_run env s n).bubble_pcSrc hwb] at hsrc
    cases hsrc
  | some f => rfl

/-- What one cycle does, with a bubble or with an occupant in WB. -/
theorem inStepTo {s : Pipeline} {K : Nat} (hp : Sequential.PipelinableTo env s.plat K) :
    Slots.InStepTo K (fun n => (run env s n).stages) (fun n => (run env s n).pcSrc)
      (fun n => insn ((run env s n).fetched env)) (pathInsn env s.plat)
      (Sequential.Transfers env s.plat)
      (fun n k => (run env s n).toArch.Agrees (Sequential.run env s.plat k))
      (fun n j => (run env s n).pcP = (Sequential.run env s.plat j).pcP) where
  agreeStart := ⟨rfl, rfl⟩
  frontStart := rfl
  fetch := by
    -- the stores retired so far have left the word at the PC alone
    intro n k j hk hj ha hpc
    exact Prod.ext hpc (hp.fetch hk hj ha.plat hpc)
  bubble := by
    intro n k _ ha hfree
    rw [occupied_stages, Option.isSome_eq_false_iff, Option.isNone_iff_eq_none] at hfree
    have hinv := inv_run env s n
    rw [run_succ]
    exact ⟨hinv.bubble_pcSrc hfree, (hinv.bubble_xP hfree).trans ha.xP,
      (hinv.bubble_plat hfree).trans ha.plat⟩
  retire := by
    intro n k hk ha hhead
    obtain ⟨f, hwb, hf⟩ := stages_head_some_iff.mp hhead
    have hret := (inv_run env s n).retires (hp.noSystem k hk) ha hwb hf
    rw [run_succ, Sequential.run_succ, hret.pcSrc]
    exact ⟨⟨hret.step_xP, hret.step_plat⟩, Iff.rfl⟩
  redirect := by
    intro n k hk ha hhead hsrc
    obtain ⟨f, hwb, hf⟩ := stages_head_some_iff.mp hhead
    have hret := (inv_run env s n).retires (hp.noSystem k hk) ha hwb hf
    have hhalt : (run env s n).exWb.cpuHaltExP = false := by
      rw [hret.exWb]
      exact hp.cpuHalt hk
    have htaken := hret.pcSrc.symm.trans hsrc
    rw [Sequential.run_pcP (hp.cpuHalt hk), if_pos htaken, run_succ]
    show pcMux (run env s n).exWb.cpuHaltExP (run env s n).pcSrc _ (run env s n).exWb.pcAluP _ = _
    rw [hsrc, hhalt, hret.exWb]
    rfl
  next := by
    intro n k j _ hj ha hhead hsrc hpc hnot
    have hhalt : (run env s n).exWb.cpuHaltExP = false := by
      refine (inv_run env s n).cpuHalt_off ha fun f hwb => ?_
      obtain ⟨hf, hk⟩ := hhead _ (stages_head_some_iff.mpr ⟨f, hwb, rfl⟩)
      exact ⟨hf, hp.noSystem k hk⟩
    rw [Sequential.run_pcP (hp.cpuHalt hj), run_succ, ← hpc]
    show pcMux (run env s n).exWb.cpuHaltExP (run env s n).pcSrc _ _ _ = _
    rw [hsrc, hhalt]
    exact (if_neg hnot).symm

theorem inStep {s : Pipeline} (hp : Sequential.Pipelinable env s.plat) :
    Slots.InStep (fun n => (run env s n).stages) (fun n => (run env s n).pcSrc)
      (fun n => insn ((run env s n).fetched env)) (pathInsn env s.plat)
      (Sequential.Transfers env s.plat)
      (fun n k => (run env s n).toArch.Agrees (Sequential.run env s.plat k))
      (fun n j => (run env s n).pcP = (Sequential.run env s.plat j).pcP) :=
  .of_upTo fun K => inStepTo (hp.upTo K)

theorem sim_run {s : Pipeline} (hp : Sequential.Pipelinable env s.plat) (n : Nat) :
    Sim env s.plat (retired env s n) (run env s n) := by
  obtain ⟨ha, hchain⟩ := (inStep hp).follows (slots_run env s) n
  rw [← retired_eq] at ha hchain
  exact ⟨inv_run env s n, ha.xP, ha.plat, hchain⟩

/-- WB holds a bubble in the first three cycles and in the three cycles after a transfer. -/
theorem wb_slot_none_iff (env : Env) (s : Pipeline) (n : Nat) :
    (run env s n).wbSlot = none ↔
      n < 3 ∨ ∃ j, 1 ≤ j ∧ j ≤ 3 ∧ j ≤ n ∧ (run env s (n - j)).pcSrc = true := by
  rw [← stages_head_none_iff]
  exact (slots_run env s).head_none_iff n

/-- For every `k` there is exactly one cycle in which WB holds the `k`-th occupant. -/
theorem existsUnique_retired (env : Env) (s : Pipeline) (k : Nat) :
    ∃! n, (run env s n).wbSlot.isSome = true ∧ retired env s n = k := by
  have hunique := (slots_run env s).existsUnique_retired occupied_of_pcSrc k
  simpa only [occupied_stages, ← retired_eq] using hunique

/-- The effects of the instructions that have been in WB before cycle `n`, in order. -/
def trace (env : Env) (s : Pipeline) (n : Nat) : List Effects :=
  Slots.history (fun m => (run env s m).stages) (fun m => (run env s m).effects env) n

theorem trace_eq_map {s : Pipeline} (hp : Sequential.Pipelinable env s.plat) (n : Nat) :
    trace env s n = (List.range (retired env s n)).map fun k =>
      Sequential.effects env (Sequential.run env s.plat k) := by
  rw [retired_eq]
  apply Slots.history_eq_map
  intro m hocc
  rw [occupied_stages, Option.isSome_iff_exists] at hocc
  obtain ⟨f, hwb⟩ := hocc
  rw [← retired_eq]
  exact ((sim_run hp m).retires hp hwb).effects (hp.cpuHalt _)

end Traced

open Traced

/-- What it means that the core refines the sequential machine on the program of `s`. -/
structure RefinesSequential (env : Env) (s : Pipeline) : Prop where
  /-- The occupants of WB are the instructions of the path, in program order, and each one
  has the effects of its sequential step. -/
  inOrder : ∀ n f, (run env s n).wbSlot = some f →
    (f.pc, f.word) = pathInsn env s.plat (retired env s n) ∧
    (run env s n).effects env =
      Sequential.effects env (Sequential.run env s.plat (retired env s n))
  /-- Every instruction of the path is in WB in exactly one cycle. -/
  once : ∀ k, ∃! n, (run env s n).wbSlot.isSome = true ∧ retired env s n = k
  /-- A bubble has no effect. -/
  bubbleIdle : ∀ n, (run env s n).wbSlot = none →
    ((run env s n).effects env).dataRe = false ∧ ((run env s n).effects env).dataWe = false ∧
    (((run env s n).effects env).regWrite = false ∨ ((run env s n).effects env).rd = 0#5)
  /-- The bubbles are in the first three cycles and in the three cycles after each taken
  branch or jump. -/
  bubbles : ∀ n, (run env s n).wbSlot = none ↔
    n < 3 ∨ ∃ j, 1 ≤ j ∧ j ≤ 3 ∧ j ≤ n ∧ (run env s (n - j)).wbSlot.isSome = true ∧
      Sequential.Transfers env s.plat (retired env s (n - j))
  /-- Registers, memory, `stdin` and `stdout` are those after the retired instructions. -/
  state : ∀ n, (run env s n).xP = (Sequential.run env s.plat (retired env s n)).xP ∧
    (run env s n).plat = (Sequential.run env s.plat (retired env s n)).plat

/-- `PC_src` is high exactly when WB holds an instruction of the path that transfers. -/
theorem pcSrc_iff_transfers {env : Env} {s : Pipeline}
    (hp : Sequential.Pipelinable env s.plat) (n : Nat) :
    (run env s n).pcSrc = true ↔ (run env s n).wbSlot.isSome = true ∧
      Sequential.Transfers env s.plat (retired env s n) := by
  have hsim := sim_run hp n
  cases hwb : (run env s n).wbSlot with
  | none =>
    rw [hsim.inv.bubble_pcSrc hwb]
    simp
  | some f =>
    rw [(hsim.retires hp hwb).pcSrc]
    simp [Sequential.Transfers]

/-- The 4-stage core refines the sequential machine, from a reset in any state. -/
theorem pipeline_refines_sequential {env : Env} {s : Pipeline}
    (hp : Sequential.Pipelinable env s.plat) : RefinesSequential env s where
  inOrder := by
    intro n f hwb
    have hsim := sim_run hp n
    refine ⟨hsim.wb_occupant hwb, ?_⟩
    exact (hsim.retires hp hwb).effects (hp.cpuHalt _)
  once := existsUnique_retired env s
  bubbleIdle := by
    intro n hwb
    have hidle := (inv_run env s n).wbNone hwb
    exact ⟨hidle.memRead, hidle.memWrite, hidle.regWrite⟩
  bubbles := by
    intro n
    rw [wb_slot_none_iff]
    simp only [pcSrc_iff_transfers hp]
  state := fun n => ⟨(sim_run hp n).xP, (sim_run hp n).plat⟩

/-! ## 5. A program that stores and then loops -/

/-- ADDI x1, x0, 1; SW x1, 64(x0); JAL x0, 0. -/
def storeAndLoop : Platform := Platform.ofProgram [0x00100093#32, 0x04102023#32, 0x0000006f#32]

/-- A step that writes `x0`, leaves the devices alone and transfers to itself. -/
theorem Sequential.step_loop {env : Env} {S : Arch} (h0 : S.xP 0#5 = 0#32)
    (hrd : rd (Sequential.signals env S).instruction = 0#5)
    (hre : (Sequential.signals env S).ctrl.aluMemRead = false)
    (hwe : (Sequential.signals env S).ctrl.aluMemWrite = false)
    (hpc : Sequential.pcN env S = S.pcP) : Sequential.step env S = S := by
  unfold Sequential.step Arch.edge
  rw [hpc, hrd, hre, hwe, regFileN_x0 h0, tick_idle]

theorem storeAndLoop_run (k : Nat) :
    Sequential.run Env.zero storeAndLoop (k + 2) = Sequential.run Env.zero storeAndLoop 2 := by
  induction k with
  | zero => rfl
  | succ k ih =>
    have hx0 := Sequential.run_x0 Env.zero storeAndLoop 2
    rw [Nat.add_right_comm, Sequential.run_succ, ih]
    exact Sequential.step_loop hx0 (by decide) (by decide) (by decide) (by decide)

/-- What holds of the first three instructions holds of all. -/
theorem storeAndLoop_forall {p : Arch → Prop} (h0 : p (Sequential.run Env.zero storeAndLoop 0))
    (h1 : p (Sequential.run Env.zero storeAndLoop 1))
    (h2 : p (Sequential.run Env.zero storeAndLoop 2)) (k : Nat) :
    p (Sequential.run Env.zero storeAndLoop k) := by
  match k with
  | 0 => exact h0
  | 1 => exact h1
  | k + 2 =>
    rw [storeAndLoop_run k]
    exact h2

/-- The only store goes to the bytes from 64 on, every fetch is below 12. -/
theorem storeAndLoop_pipelinable : Sequential.Pipelinable Env.zero storeAndLoop where
  noSystem :=
    storeAndLoop_forall (p := fun S => opcode (Sequential.signals Env.zero S).instruction ≠ opcSystem)
      (by decide) (by decide) (by decide)
  noSelfModification := by
    intro j k x hst hf
    have hlow : x < 12#32 := by
      have hpc : (Sequential.run Env.zero storeAndLoop k).pcP ≤ 8#32 :=
        storeAndLoop_forall (p := fun S => S.pcP ≤ 8#32) (by decide) (by decide) (by decide) k
      rcases hf.2 with rfl | rfl | rfl | rfl <;> bv_omega
    have hhigh : (Sequential.effects Env.zero (Sequential.run Env.zero storeAndLoop j)).dataWe = true →
        (Sequential.effects Env.zero (Sequential.run Env.zero storeAndLoop j)).dataAddr = 64#32 :=
      storeAndLoop_forall (p := fun S => (Sequential.effects Env.zero S).dataWe = true →
          (Sequential.effects Env.zero S).dataAddr = 64#32)
        (by decide) (by decide) (by decide) j
    obtain ⟨hwe, _, hin, _⟩ := hst
    have haddr := hhigh hwe
    rcases hin with rfl | rfl | rfl | rfl <;> rw [haddr] at hlow <;> exact absurd hlow (by decide)

/-- The pipeline refines the sequential machine on this program. -/
theorem pipeline_refines_storeAndLoop :
    RefinesSequential Env.zero { Pipeline.ofProgram [] with plat := storeAndLoop } :=
  pipeline_refines_sequential storeAndLoop_pipelinable

end MicroRiscv
