import MicroRiscv.PipelineRefinement
import MicroRiscv.PipelineHalt

/-!
# The 2-stage pipelined core

The first pipelined version of the core: IF, and one stage that decodes, executes, accesses the
data memory and writes back. Between the two are the IF/ID registers. There is nothing to
bypass, since an instruction reads the register file in the cycle in which it writes it, and
EBREAK is compared with the rd field of its own word. The source also has ID/EX registers; they
are written and never read, and are left out.

A transfer is resolved one cycle after the fetch and `PC_src` turns one fetched word into a NOP.
`cpu_finish_o` is the decoder's halt signal itself: it holds the PC, but not the IF/ID
registers.

Results:
1. `twoStage_refines_sequential`: the refinement of the sequential machine. Words with the
   opcode SYSTEM are allowed on the path as long as none of them is EBREAK.
2. `TwoStage.after_finish`: what follows an EBREAK. The word behind it is executed, and as a
   rule twice.
-/

namespace MicroRiscv

structure TwoStage extends Arch where
  ifId : IfId

namespace TwoStage

section Core

variable (env : Env) (s : TwoStage)

/-- The combinational signals of the second stage. `PC_if_incr` is the link address. -/
def signals : Signals :=
  let instruction := s.ifId.instructionIfP
  let ctrl := decoder false (rd instruction) instruction
  let regData1 := s.xP (rs1 ctrl instruction)
  let regData2 := s.xP (rs2 ctrl instruction)
  let imm := aluImm ctrl.immSel instruction
  let data2 := aluData2 ctrl.aluSrc imm regData2
  let result := aluResult ctrl.aluOperator regData1 data2
  let branchO := aluBranch ctrl.aluOperator regData1 data2
  let pcIfIncr := s.ifId.pcIfP + 4#32
  { instruction, ctrl, regData1, regData2
    aluResult := result
    aluBranchO := branchO
    pcAlu := pcAlu ctrl.aluPcRegSrc regData1 s.ifId.pcIfP imm
    pcSrc := pcSrc branchO ctrl.aluIsBranch ctrl.aluIsJump
    pcIncr := pcIfIncr
    regWriteData := regWriteData ctrl.memToReg ctrl.aluIsJump pcIfIncr result
      (dataRdata env s.plat result) }

/-- `cpu_finish_o`. -/
def cpuFinishO : Bool := (s.signals env).ctrl.cpuHalt

def pcSrc : Bool := (s.signals env).pcSrc

/-- `cpu_instr_rdata_i`. -/
def instrRdata : Word := MicroRiscv.instrRdata env s.plat s.pcP

/-- `PC_n`; `PC_incr` is behind the PC, not behind the instruction. -/
def pcN : Word :=
  let g := s.signals env
  pcMux g.ctrl.cpuHalt g.pcSrc s.pcP g.pcAlu (s.pcP + 4#32)

/-- One clock edge of the core with its devices. -/
def step : TwoStage where
  toArch := s.toArch.edge (s.signals env) (s.pcN env) (s.signals env).regWriteData
  ifId := ⟨s.pcP, if s.pcSrc env then Pipeline.nopWord else s.instrRdata env⟩

/-- The core after reset: every register is cleared, the devices keep their state. -/
def reset : TwoStage where
  pcP := resetAddr
  xP := fun _ => 0#32
  plat := s.plat
  ifId := ⟨0#32, 0#32⟩

/-- A core on the devices `plat` with cleared registers. -/
def ofPlatform (plat : Platform) : TwoStage := ⟨Sequential.reset plat, default⟩

/-- What the instruction in the second stage does. -/
def effects : Effects :=
  let g := s.signals env
  { regWrite := g.ctrl.aluRegWrite
    rd := rd g.instruction
    regWriteData := g.regWriteData
    dataRe := g.ctrl.aluMemRead
    dataWe := g.ctrl.aluMemWrite
    dataAddr := g.aluResult
    dataWdata := g.regData2
    nextPc := pcMux false g.pcSrc s.pcP g.pcAlu g.pcIncr }

end Core

/-! ## 1. The occupant of the second stage -/

/-- The core together with address and word of the instruction in the second stage; `none` is
a bubble. The slot follows the core and does not influence it. -/
structure Traced extends TwoStage where
  slot : Option (Word × Word)

namespace Traced

variable (env : Env) (t : Traced)

/-- The instruction that leaves IF. -/
def fetched : Word × Word := (t.pcP, t.instrRdata env)

def step : Traced where
  toTwoStage := t.toTwoStage.step env
  slot := if t.pcSrc env then none else some (t.fetched env)

/-- After reset the second stage holds a bubble. -/
def reset (s : TwoStage) : Traced := ⟨s.reset, none⟩

/-- The state `n` cycles after a reset in the state `s`. -/
def run (s : TwoStage) (n : Nat) : Traced := (step env)^[n] (reset s)

theorem run_succ (s : TwoStage) (n : Nat) : run env s (n + 1) = (run env s n).step env :=
  Function.iterate_succ_apply' _ _ _

/-- Forgetting the slot gives the run of the core. -/
theorem run_toTwoStage (s : TwoStage) (n : Nat) :
    (run env s n).toTwoStage = (TwoStage.step env)^[n] s.reset := by
  induction n with
  | zero => rfl
  | succ n ih =>
    rw [run_succ, Function.iterate_succ_apply', ← ih]
    rfl

/-- The slot and the IF/ID registers agree. The words of a bubble are zero after reset and the
NOP after a transfer. -/
structure Inv (t : Traced) : Prop where
  x0 : t.xP 0#5 = 0#32
  occupant : ∀ pc w, t.slot = some (pc, w) → t.ifId = ⟨pc, w⟩
  bubble : t.slot = none → t.ifId.instructionIfP = 0#32 ∨ t.ifId.instructionIfP = Pipeline.nopWord

variable {env t}

theorem step_slot (hsrc : t.pcSrc env = false) : (t.step env).slot = some (t.fetched env) := by
  simp only [step, hsrc, Bool.false_eq_true, if_false]

theorem step_slot_squash (hsrc : t.pcSrc env = true) : (t.step env).slot = none := by
  simp only [step, hsrc, if_true]

theorem step_ifId (hsrc : t.pcSrc env = false) :
    (t.step env).ifId = ⟨(t.fetched env).1, (t.fetched env).2⟩ := by
  show (⟨t.pcP, if t.pcSrc env then Pipeline.nopWord else t.instrRdata env⟩ : IfId) = _
  rw [hsrc]
  rfl

theorem Inv.step (t : Traced) : (t.step env).Inv where
  x0 := edge_x0 _ _ _ _
  occupant := by
    intro pc w hslot
    cases hsrc : t.pcSrc env with
    | true =>
      rw [step_slot_squash hsrc] at hslot
      cases hslot
    | false =>
      rw [step_slot hsrc] at hslot
      rw [step_ifId hsrc, Option.some.inj hslot]
  bubble := by
    intro hslot
    cases hsrc : t.pcSrc env with
    | true =>
      right
      show (if t.pcSrc env then Pipeline.nopWord else t.instrRdata env) = _
      rw [hsrc]
      rfl
    | false =>
      rw [step_slot hsrc] at hslot
      cases hslot

theorem inv_run (env : Env) (s : TwoStage) (n : Nat) : (run env s n).Inv := by
  cases n with
  | zero => exact ⟨rfl, (fun _ _ h => nomatch h), fun _ => .inl rfl⟩
  | succ n =>
    rw [run_succ]
    exact Inv.step _

/-! ## 2. Bubbles and occupants -/

/-- Control signals that have no effect on a word. -/
structure CtrlIdle (c : Ctrl) (w : Word) : Prop where
  branch : c.aluIsBranch = false
  jump : c.aluIsJump = false
  memRead : c.aluMemRead = false
  memWrite : c.aluMemWrite = false
  halt : c.cpuHalt = false
  regWrite : c.aluRegWrite = false ∨ rd w = 0#5

theorem bubble_idle {w : Word} (h : w = 0#32 ∨ w = Pipeline.nopWord) :
    CtrlIdle (decoder false (rd w) w) w := by
  rcases h with rfl | rfl
  · exact ⟨rfl, rfl, rfl, rfl, rfl, .inl rfl⟩
  · have hc : decoder false (rd Pipeline.nopWord) Pipeline.nopWord = Mnemonic.addi.ctrl :=
      decode_nopWord (rd Pipeline.nopWord)
    rw [hc]
    exact ⟨rfl, rfl, rfl, rfl, rfl, .inr (by decide)⟩

theorem Inv.idle (h : t.Inv) (hslot : t.slot = none) :
    CtrlIdle (t.signals env).ctrl t.ifId.instructionIfP :=
  bubble_idle (h.bubble hslot)

/-- A bubble does nothing. -/
theorem Inv.bubble_pcSrc (h : t.Inv) (hslot : t.slot = none) : t.pcSrc env = false := by
  show MicroRiscv.pcSrc _ (t.signals env).ctrl.aluIsBranch (t.signals env).ctrl.aluIsJump = false
  rw [(h.idle hslot).branch, (h.idle hslot).jump, pcSrc_off]

theorem Inv.bubble_xP (h : t.Inv) (hslot : t.slot = none) : (t.step env).xP = t.xP := by
  show regFileN t.xP (t.signals env).ctrl.aluRegWrite (rd t.ifId.instructionIfP) _ = _
  have hidle : CtrlIdle (t.signals env).ctrl t.ifId.instructionIfP := h.idle hslot
  cases hidle.regWrite with
  | inl hoff => rw [hoff, regFileN_off h.x0]
  | inr hx0 => rw [hx0, regFileN_x0 h.x0]

theorem Inv.bubble_plat (h : t.Inv) (hslot : t.slot = none) : (t.step env).plat = t.plat := by
  show t.plat.tick (t.signals env).ctrl.aluMemRead (t.signals env).ctrl.aluMemWrite _ _ = _
  rw [(h.idle hslot).memRead, (h.idle hslot).memWrite, tick_idle]

/-- An occupant that is the instruction of a sequential machine in the same state has its
signals. -/
theorem Inv.signals_eq (h : t.Inv) {S : Arch} (ha : t.toArch.Agrees S)
    (hslot : t.slot = some (S.pcP, MicroRiscv.instrRdata env S.plat S.pcP)) :
    t.signals env = Sequential.signals env S := by
  unfold TwoStage.signals
  rw [h.occupant _ _ hslot, ha.xP, ha.plat]
  rfl

/-! ## 3. In step with the path -/

open MicroRiscv.Traced (pathInsn)

/-- The only stage behind IF. -/
def stages (t : Traced) : List (Option (Word × Word)) := [t.slot]

theorem stages_step (env : Env) (t : Traced) :
    (t.step env).stages = Slots.advance (t.pcSrc env) t.stages (t.fetched env) := by
  unfold stages step Slots.advance
  cases t.pcSrc env <;> rfl

/-- The occupants over a run, as a pipeline of one stage. -/
theorem slots_run (env : Env) (s : TwoStage) :
    Slots.Run 1 (fun n => (run env s n).stages) (fun n => (run env s n).pcSrc env)
      (fun n => (run env s n).fetched env) where
  pos := by decide
  start := rfl
  next := fun n => by rw [run_succ, stages_step]

theorem stages_head_some_iff {x : Word × Word} :
    t.stages[0]? = some (some x) ↔ t.slot = some x := by
  rw [show t.stages[0]? = some t.slot from rfl, Option.some.injEq]

theorem occupied_stages (t : Traced) : Slots.occupied t.stages = t.slot.isSome := by
  unfold stages
  cases t.slot <;> rfl

/-- Only an occupant transfers. -/
theorem occupied_of_pcSrc {s : TwoStage} (n : Nat) (hsrc : (run env s n).pcSrc env = true) :
    Slots.occupied (run env s n).stages = true := by
  rw [occupied_stages]
  cases hslot : (run env s n).slot with
  | none =>
    rw [(inv_run env s n).bubble_pcSrc hslot] at hsrc
    cases hsrc
  | some x => rfl

/-- The instructions that have been in the second stage before cycle `n`. -/
def retired (env : Env) (s : TwoStage) (n : Nat) : Nat :=
  Slots.retired (fun m => (run env s m).stages) n

end Traced

end TwoStage

/-- The assumptions on the first `K` instructions of a path: none is EBREAK. -/
structure Sequential.HaltFreeTo (env : Env) (plat : Platform) (K : Nat) : Prop
    extends Sequential.KeepsCode env plat K where
  noHalt : ∀ k, k < K → (Sequential.signals env (Sequential.run env plat k)).ctrl.cpuHalt = false

theorem Sequential.PipelinableTo.haltFree {env : Env} {plat : Platform} {K : Nat}
    (h : Sequential.PipelinableTo env plat K) : Sequential.HaltFreeTo env plat K where
  noSelfModification := h.noSelfModification
  noHalt := fun _ hk => h.cpuHalt hk

namespace TwoStage.Traced

open MicroRiscv.Traced (pathInsn)

section Path

variable {env : Env} {s : TwoStage} {K : Nat}

/-- The occupant that is the `k`-th instruction has the signals of the `k`-th step. -/
theorem Inv.signals_run {init : Platform} {t : Traced} (hp : Sequential.KeepsCode env init K)
    (h : t.Inv) {k : Nat} (hk : k ≤ K) (ha : t.toArch.Agrees (Sequential.run env init k))
    (hslot : t.slot = some (pathInsn env init k)) :
    t.signals env = Sequential.signals env (Sequential.run env init k) := by
  refine h.signals_eq ha ?_
  rw [hp.fetch hk hk rfl rfl]
  exact hslot

/-- What one cycle does, with a bubble or with an occupant in the second stage. -/
theorem inStepTo (hp : Sequential.HaltFreeTo env s.plat K) :
    Slots.InStepTo K (fun n => (run env s n).stages) (fun n => (run env s n).pcSrc env)
      (fun n => (run env s n).fetched env) (pathInsn env s.plat)
      (Sequential.Transfers env s.plat)
      (fun n k => (run env s n).toArch.Agrees (Sequential.run env s.plat k))
      (fun n j => (run env s n).pcP = (Sequential.run env s.plat j).pcP) where
  agreeStart := ⟨rfl, rfl⟩
  frontStart := rfl
  fetch := by
    intro n k j hk hj ha hpc
    exact Prod.ext hpc (hp.fetch hk hj ha.plat hpc)
  bubble := by
    intro n k _ ha hfree
    rw [occupied_stages, Option.isSome_eq_false_iff, Option.isNone_iff_eq_none] at hfree
    have hinv := inv_run env s n
    rw [run_succ]
    exact ⟨hinv.bubble_pcSrc hfree, (hinv.bubble_xP hfree).trans ha.xP,
      (hinv.bubble_plat hfree).trans ha.plat⟩
  retire := by
    intro n k hk ha hhead
    have hsig := (inv_run env s n).signals_run hp.toKeepsCode hk.le ha (stages_head_some_iff.mp hhead)
    rw [run_succ, Sequential.run_succ]
    refine ⟨⟨?_, ?_⟩, ?_⟩
    · show (Arch.edge _ ((run env s n).signals env) _ _).xP = _
      rw [hsig]
      show regFileN (run env s n).xP _ _ _ = _
      rw [ha.xP]
      rfl
    · show (Arch.edge _ ((run env s n).signals env) _ _).plat = _
      rw [hsig]
      show (run env s n).plat.tick _ _ _ _ = _
      rw [ha.plat]
      rfl
    · show ((run env s n).signals env).pcSrc = true ↔ _
      rw [hsig]
      rfl
  redirect := by
    intro n k hk ha hhead hsrc
    have hsig := (inv_run env s n).signals_run hp.toKeepsCode hk.le ha (stages_head_some_iff.mp hhead)
    have htaken : (Sequential.signals env (Sequential.run env s.plat k)).pcSrc = true :=
      hsig ▸ hsrc
    rw [Sequential.run_pcP (hp.noHalt k hk), if_pos htaken, run_succ]
    show pcMux ((run env s n).signals env).ctrl.cpuHalt ((run env s n).signals env).pcSrc _
      ((run env s n).signals env).pcAlu _ = _
    rw [hsig, hp.noHalt k hk, htaken]
    rfl
  next := by
    intro n k j _ hj ha hhead hsrc hpc hnot
    have hhalt : ((run env s n).signals env).ctrl.cpuHalt = false := by
      cases hslot : (run env s n).slot with
      | none => exact ((inv_run env s n).idle hslot).halt
      | some x =>
        obtain ⟨rfl, hk⟩ := hhead x (stages_head_some_iff.mpr hslot)
        rw [(inv_run env s n).signals_run hp.toKeepsCode hk.le ha hslot]
        exact hp.noHalt k hk
    rw [Sequential.run_pcP (hp.noHalt j hj), run_succ, ← hpc]
    show pcMux ((run env s n).signals env).ctrl.cpuHalt ((run env s n).pcSrc env) _ _ _ = _
    rw [hsrc, hhalt]
    exact (if_neg hnot).symm

theorem agrees_run (hp : Sequential.HaltFreeTo env s.plat K) {n : Nat}
    (hn : retired env s n ≤ K) :
    (run env s n).toArch.Agrees (Sequential.run env s.plat (retired env s n)) :=
  ((inStepTo hp).follows (slots_run env s) n hn).1

/-- The occupant is the next instruction of the path and has its signals. -/
theorem occupant_run (hp : Sequential.HaltFreeTo env s.plat K) {n : Nat}
    (hn : retired env s n ≤ K) {x : Word × Word} (hslot : (run env s n).slot = some x) :
    x = pathInsn env s.plat (retired env s n) ∧
      (run env s n).signals env =
        Sequential.signals env (Sequential.run env s.plat (retired env s n)) := by
  obtain rfl := (inStepTo hp).head (slots_run env s) hn (stages_head_some_iff.mpr hslot)
  exact ⟨rfl, (inv_run env s n).signals_run hp.toKeepsCode hn (agrees_run hp hn) hslot⟩

/-- Everything the occupant does at the ports of the core. -/
theorem effects_run (hp : Sequential.HaltFreeTo env s.plat K) {n : Nat}
    (hn : retired env s n < K) {x : Word × Word} (hslot : (run env s n).slot = some x) :
    (run env s n).effects env =
      Sequential.effects env (Sequential.run env s.plat (retired env s n)) := by
  obtain ⟨-, hsig⟩ := occupant_run hp hn.le hslot
  unfold TwoStage.effects Sequential.effects
  rw [hsig, Sequential.pcN_of_cpuHalt (hp.noHalt _ hn)]
  rfl

/-- `PC_src` is high exactly when the second stage holds an instruction that transfers. -/
theorem pcSrc_iff_transfers (hp : Sequential.HaltFreeTo env s.plat K) {n : Nat}
    (hn : retired env s n ≤ K) :
    (run env s n).pcSrc env = true ↔ (run env s n).slot.isSome = true ∧
      Sequential.Transfers env s.plat (retired env s n) := by
  cases hslot : (run env s n).slot with
  | none =>
    rw [(inv_run env s n).bubble_pcSrc hslot]
    simp
  | some x =>
    obtain ⟨-, hsig⟩ := occupant_run hp hn hslot
    show ((run env s n).signals env).pcSrc = true ↔ _
    rw [hsig]
    simp [Sequential.Transfers]

end Path

end TwoStage.Traced

/-! ## 4. The refinement -/

/-- What it means that the core refines the sequential machine on the program of `s`. -/
structure TwoStage.RefinesSequential (env : Env) (s : TwoStage) : Prop where
  /-- The occupants of the second stage are the instructions of the path, in program order, and
  each one has the effects of its sequential step. -/
  inOrder : ∀ n x, (Traced.run env s n).slot = some x →
    x = MicroRiscv.Traced.pathInsn env s.plat (Traced.retired env s n) ∧
    (Traced.run env s n).effects env =
      Sequential.effects env (Sequential.run env s.plat (Traced.retired env s n))
  /-- Every instruction of the path is there in exactly one cycle. -/
  once : ∀ k, ∃! n, (Traced.run env s n).slot.isSome = true ∧ Traced.retired env s n = k
  /-- A bubble has no effect. -/
  bubbleIdle : ∀ n, (Traced.run env s n).slot = none →
    ((Traced.run env s n).effects env).dataRe = false ∧
    ((Traced.run env s n).effects env).dataWe = false ∧
    (((Traced.run env s n).effects env).regWrite = false ∨
      ((Traced.run env s n).effects env).rd = 0#5)
  /-- The bubbles are in the first cycle and in the cycle after each taken branch or jump. -/
  bubbles : ∀ n, (Traced.run env s n).slot = none ↔
    n < 1 ∨ ∃ j, 1 ≤ j ∧ j ≤ 1 ∧ j ≤ n ∧ (Traced.run env s (n - j)).slot.isSome = true ∧
      Sequential.Transfers env s.plat (Traced.retired env s (n - j))
  /-- Registers, memory, `stdin` and `stdout` are those after the retired instructions. -/
  state : ∀ n,
    (Traced.run env s n).xP = (Sequential.run env s.plat (Traced.retired env s n)).xP ∧
    (Traced.run env s n).plat = (Sequential.run env s.plat (Traced.retired env s n)).plat

open TwoStage.Traced in
/-- The 2-stage core refines the sequential machine on every path without EBREAK that leaves
its own words alone. -/
theorem twoStage_refines_sequential {env : Env} {s : TwoStage}
    (hp : ∀ K, Sequential.HaltFreeTo env s.plat K) : TwoStage.RefinesSequential env s where
  inOrder := fun n _ hslot =>
    ⟨(occupant_run (hp (retired env s n)) le_rfl hslot).1,
      effects_run (hp (retired env s n + 1)) (Nat.lt_succ_self _) hslot⟩
  once := by
    intro k
    have hunique := (slots_run env s).existsUnique_retired occupied_of_pcSrc k
    simp only [occupied_stages] at hunique
    exact hunique
  bubbleIdle := by
    intro n hslot
    have hidle : CtrlIdle ((run env s n).signals env).ctrl (run env s n).ifId.instructionIfP :=
      (inv_run env s n).idle hslot
    exact ⟨hidle.memRead, hidle.memWrite, hidle.regWrite⟩
  bubbles := by
    intro n
    have hnone : (run env s n).slot = none ↔ (run env s n).stages[0]? = some none := by
      rw [show (run env s n).stages[0]? = some (run env s n).slot from rfl, Option.some.injEq]
    have hsrc : ∀ m, (run env s m).slot.isSome = true ∧
        Sequential.Transfers env s.plat (retired env s m) ↔ (run env s m).pcSrc env = true :=
      fun m => (TwoStage.Traced.pcSrc_iff_transfers (hp (retired env s m)) le_rfl).symm
    rw [hnone]
    simp only [hsrc]
    exact (slots_run env s).head_none_iff n
  state := fun n =>
    have ha := agrees_run (hp (retired env s n)) le_rfl
    ⟨ha.xP, ha.plat⟩

/-- The core refines the sequential machine on the program that stores and then loops. -/
theorem twoStage_refines_storeAndLoop :
    TwoStage.RefinesSequential Env.zero (TwoStage.ofPlatform storeAndLoop) :=
  twoStage_refines_sequential fun K => (storeAndLoop_pipelinable.upTo K).haltFree

/-! ## 5. What follows an EBREAK -/

/-- No register, no memory and no `stdout` is written, and the `stdin` pointer stays. -/
def Effects.Harmless (e : Effects) : Prop :=
  (e.regWrite = false ∨ e.rd = 0#5) ∧ (e.dataWe && memSel e.dataAddr) = false ∧
  (e.dataWe && stdoutSel e.dataAddr) = false ∧ (e.dataRe && stdinSel e.dataAddr) = false

namespace TwoStage

open MicroRiscv.TwoStage.Traced

/-- From cycle `n` on `cpu_finish_o` stays high and nothing more has an effect. -/
def HaltIsPrecise (env : Env) (s : TwoStage) (n : Nat) : Prop :=
  ∀ m, n < m → (run env s m).cpuFinishO env = true ∧ ((run env s m).effects env).Harmless

section Finish

variable {env : Env}

/-- `cpu_finish_o` is high exactly for the halting words. -/
theorem cpuFinishO_iff (t : TwoStage) :
    t.cpuFinishO env = true ↔ IsHaltWord t.ifId.instructionIfP := by
  show (decoder false (rd t.ifId.instructionIfP) t.ifId.instructionIfP).cpuHalt = true ↔ _
  rw [decoder_cpuHalt_iff]
  simp [IsHaltWord, LooksLikeEbreak, and_assoc]

/-- A halting word asks for nothing else. -/
theorem ctrl_of_finish {t : TwoStage} (h : t.cpuFinishO env = true) :
    (t.signals env).ctrl = { cpuHalt := true } :=
  decoder_of_cpuHalt h

theorem harmless_of_finish {t : TwoStage} (h : t.cpuFinishO env = true) :
    (t.effects env).Harmless := by
  have hc := ctrl_of_finish h
  refine ⟨.inl ?_, ?_, ?_, ?_⟩
  · show (t.signals env).ctrl.aluRegWrite = false
    rw [hc]
  · show ((t.signals env).ctrl.aluMemWrite && _) = false
    rw [hc, Bool.false_and]
  · show ((t.signals env).ctrl.aluMemWrite && _) = false
    rw [hc, Bool.false_and]
  · show ((t.signals env).ctrl.aluMemRead && _) = false
    rw [hc, Bool.false_and]

theorem pcSrc_of_finish {t : TwoStage} (h : t.cpuFinishO env = true) : t.pcSrc env = false := by
  show MicroRiscv.pcSrc _ (t.signals env).ctrl.aluIsBranch (t.signals env).ctrl.aluIsJump = false
  rw [ctrl_of_finish h, pcSrc_off]

/-- The PC is held and no device changes, so the fetch is repeated. -/
theorem fetched_of_finish {t : Traced} (h : t.cpuFinishO env = true) :
    (t.step env).fetched env = t.fetched env := by
  have hc := ctrl_of_finish h
  have hpc : (t.step env).pcP = t.pcP := by
    show pcMux (t.signals env).ctrl.cpuHalt _ _ _ _ = t.pcP
    rw [hc]
    rfl
  have hplat : (t.step env).plat = t.plat := by
    show t.plat.tick (t.signals env).ctrl.aluMemRead (t.signals env).ctrl.aluMemWrite _ _ = t.plat
    rw [hc, tick_idle]
  unfold fetched TwoStage.instrRdata
  rw [hpc, hplat]

/-- The IF/ID registers are not held: the word behind the halting word is in the second stage
next, and once more after that unless it transfers. -/
theorem word_behind_finish {s : TwoStage} {n : Nat} (h : (run env s n).cpuFinishO env = true) :
    (run env s (n + 1)).slot = some ((run env s n).fetched env) ∧
      ((run env s (n + 1)).pcSrc env = false →
        (run env s (n + 2)).slot = some ((run env s n).fetched env)) := by
  rw [run_succ env s (n + 1), run_succ env s n]
  refine ⟨step_slot (pcSrc_of_finish h), fun hsrc => ?_⟩
  rw [step_slot hsrc, fetched_of_finish h]

/-- The second stage after a halting word. -/
theorem finish_succ_iff {s : TwoStage} {n : Nat} (h : (run env s n).cpuFinishO env = true) :
    (run env s (n + 1)).cpuFinishO env = true ↔ IsHaltWord ((run env s n).instrRdata env) := by
  rw [cpuFinishO_iff, run_succ, step_ifId (pcSrc_of_finish h)]
  rfl

/-- Halting is precise exactly when the word behind the halting word is a halting word too. -/
theorem finish_precise_iff {s : TwoStage} {n : Nat} (h : (run env s n).cpuFinishO env = true) :
    HaltIsPrecise env s n ↔ IsHaltWord ((run env s n).instrRdata env) := by
  constructor
  · intro hprec
    exact (finish_succ_iff h).mp (hprec (n + 1) (Nat.lt_succ_self n)).1
  · intro hword m hm
    obtain ⟨d, rfl⟩ := Nat.exists_eq_add_of_lt hm
    -- the PC stays, so that the same word is fetched in every cycle
    have hrun : ∀ d, (run env s (n + d)).cpuFinishO env = true ∧
        (run env s (n + d)).instrRdata env = (run env s n).instrRdata env := by
      intro d
      induction d with
      | zero => exact ⟨h, rfl⟩
      | succ d ih =>
        refine ⟨(finish_succ_iff ih.1).mpr (ih.2 ▸ hword), ?_⟩
        rw [← ih.2, ← Nat.add_assoc, run_succ]
        exact congrArg Prod.snd (fetched_of_finish ih.1)
    exact ⟨(hrun (d + 1)).1, harmless_of_finish (hrun (d + 1)).1⟩

/-- What follows a halting word: halting is precise for two such words in a row only, and any
other word is executed, twice unless it transfers. -/
theorem after_finish {s : TwoStage} {n : Nat} (h : (run env s n).cpuFinishO env = true) :
    (HaltIsPrecise env s n ↔ IsHaltWord ((run env s n).instrRdata env)) ∧
    (run env s (n + 1)).slot = some ((run env s n).fetched env) ∧
    ((run env s (n + 1)).pcSrc env = false →
      (run env s (n + 2)).slot = some ((run env s n).fetched env)) :=
  ⟨finish_precise_iff h, word_behind_finish h⟩

/-- EBREAK; ADDI x1, x1, 1: two cycles later the addition is there for the second time. -/
theorem addi_twice_after_finish :
    (run Env.zero (ofPlatform (Platform.ofProgram [ebreakWord, 0x00108093#32])) 3).slot =
      some (4#32, 0x00108093#32) :=
  (after_finish (by decide)).2.2 (by decide)

end Finish

end TwoStage

end MicroRiscv
