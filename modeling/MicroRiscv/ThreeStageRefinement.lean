import MicroRiscv.ThreeStage
import MicroRiscv.PipelineRefinement

/-!
# The 3-stage core refines sequential execution

The same statement as for the 4-stage core, for its predecessor: the bypass ends one stage
earlier, in ID, and a transfer squashes two stages. The path and its assumptions are those
of the 4-stage core (`Sequential.Pipelinable`), so both cores have the same effects in the
same order.

Results:
1. `Traced.Inv.step`, `Traced.inv_run`: what the stages hold, over one cycle and over a run.
2. `Traced.inStep`: one cycle keeps the core in step with the path, which is all that
   `Slots.InStep.follows` asks for.
3. `threeStage_refines_sequential`: the refinement, and the agreement with the 4-stage core.
-/

namespace MicroRiscv

namespace ThreeStage

/-! ## 1. Idle stages -/

/-- ID/EX registers that have no effect. -/
structure IdEx.Idle (d : IdEx) : Prop where
  branch : d.aluIsBranchP = false
  jump : d.aluIsJumpP = false
  memRead : d.aluMemReadP = false
  memWrite : d.aluMemWriteP = false
  halt : d.cpuHaltP = false
  regWrite : d.aluRegWriteP = false ∨ d.rdP = 0#5

theorem idExN_flush_idle (r : RegIdx) (f : IfId) (read : RegIdx → Word) :
    (idExN true r f read).Idle :=
  ⟨rfl, rfl, rfl, rfl, rfl, .inl rfl⟩

/-- The words of a bubble in ID, zero after reset and the NOP after a transfer. -/
theorem idExN_bubble_idle (r : RegIdx) {f : IfId}
    (h : f.instructionIfP = 0#32 ∨ f.instructionIfP = Pipeline.nopWord)
    (read : RegIdx → Word) : (idExN false r f read).Idle := by
  obtain ⟨pc, w⟩ := f
  cases h with
  | inl h =>
    cases h
    exact ⟨rfl, rfl, rfl, rfl, rfl, .inl rfl⟩
  | inr h =>
    obtain rfl : w = Pipeline.nopWord := h
    have hc := decode_nopWord r
    refine ⟨?_, ?_, ?_, ?_, ?_, .inr (by decide : rd Pipeline.nopWord = 0#5)⟩ <;>
      simp only [idExN, hc] <;> rfl

/-! ## 2. The invariant -/

/-- The ID/EX registers for an instruction whose operands come from `read`. -/
def idExOf (f : Fetched) (read : RegIdx → Word) : IdEx :=
  idExN false (rd f.ahead) ⟨f.pc, f.word⟩ read

namespace Traced

/-- The occupants and the registers agree: the operands in ID/EX are those of the current
register file, since the bypass supplies what the register file takes over in the same
edge. -/
structure Inv (t : Traced) : Prop where
  x0 : t.xP 0#5 = 0#32
  idSome : ∀ f, t.idSlot = some f → t.ifId = ⟨f.pc, f.word⟩ ∧ t.idEx.rdP = rd f.ahead
  idNone : t.idSlot = none →
    t.ifId.instructionIfP = 0#32 ∨ t.ifId.instructionIfP = Pipeline.nopWord
  exSome : ∀ f, t.exSlot = some f → t.idEx = idExOf f t.xP
  exNone : t.exSlot = none → t.idEx.Idle

theorem inv_reset (s : ThreeStage) : (reset s).Inv where
  x0 := rfl
  idSome := fun _ h => nomatch h
  idNone := fun _ => .inl rfl
  exSome := fun _ h => nomatch h
  exNone := fun _ => ⟨rfl, rfl, rfl, rfl, rfl, .inl rfl⟩

variable {env : Env} {t : Traced}

/-- Without a transfer in EX the occupants move up by one stage. -/
theorem step_slots (hsrc : t.pcSrc = false) :
    (t.step env).exSlot = t.idSlot ∧ (t.step env).idSlot = some (t.fetched env) := by
  simp only [Traced.step, hsrc, Bool.false_eq_true, if_false, and_self]

/-- With one they are squashed. -/
theorem step_slots_squash (hsrc : t.pcSrc = true) :
    (t.step env).exSlot = none ∧ (t.step env).idSlot = none := by
  simp only [Traced.step, hsrc, if_true, and_self]

/-- What IF hands to ID. -/
theorem step_ifId (hsrc : t.pcSrc = false) :
    (t.step env).ifId = ⟨(t.fetched env).pc, (t.fetched env).word⟩ := by
  show (⟨t.pcP, if t.pcSrc then Pipeline.nopWord else t.instrRdata env⟩ : IfId) = _
  rw [hsrc]
  rfl

theorem step_ifId_squash (hsrc : t.pcSrc = true) :
    (t.step env).ifId.instructionIfP = Pipeline.nopWord := by
  show (if t.pcSrc then Pipeline.nopWord else t.instrRdata env) = Pipeline.nopWord
  rw [hsrc]
  rfl

/-- The bypass offers the register file after the clock edge. -/
theorem Inv.bypass_eq_step (h : t.Inv) : t.bypass env = (t.step env).xP :=
  funext fun r => forward_eq_regFileN h.x0 t.idEx.aluRegWriteP t.idEx.rdP (t.regWriteData env) r

/-- What ID hands to EX for its occupant. -/
theorem Inv.step_exSome (h : t.Inv) {f : Fetched} (hid : t.idSlot = some f)
    (hsrc : t.pcSrc = false) : (t.step env).idEx = idExOf f (t.step env).xP := by
  obtain ⟨hif, hrd⟩ := h.idSome f hid
  show idExN t.pcSrc t.idEx.rdP t.ifId (t.bypass env) = _
  rw [hsrc, hrd, hif, h.bypass_eq_step]
  rfl

/-- One clock edge keeps the invariant. -/
theorem Inv.step (h : t.Inv) : (t.step env).Inv where
  x0 := regFileN_zero t.xP t.idEx.aluRegWriteP t.idEx.rdP (t.regWriteData env)
  idSome := by
    intro f hf
    cases hsrc : t.pcSrc with
    | true =>
      rw [(step_slots_squash hsrc).2] at hf
      cases hf
    | false =>
      rw [(step_slots hsrc).2] at hf
      cases hf
      exact ⟨step_ifId hsrc, rfl⟩
  idNone := by
    intro hnone
    cases hsrc : t.pcSrc with
    | true => exact .inr (step_ifId_squash hsrc)
    | false =>
      rw [(step_slots hsrc).2] at hnone
      cases hnone
  exSome := by
    intro f hf
    cases hsrc : t.pcSrc with
    | true =>
      rw [(step_slots_squash hsrc).1] at hf
      cases hf
    | false =>
      rw [(step_slots hsrc).1] at hf
      exact h.step_exSome hf hsrc
  exNone := by
    intro hnone
    show (idExN t.pcSrc t.idEx.rdP t.ifId (t.bypass env)).Idle
    cases hsrc : t.pcSrc with
    | true => exact idExN_flush_idle _ _ _
    | false =>
      rw [(step_slots hsrc).1] at hnone
      exact idExN_bubble_idle _ (h.idNone hnone) _

theorem inv_run (env : Env) (s : ThreeStage) (n : Nat) : (run env s n).Inv := by
  induction n with
  | zero => exact inv_reset s
  | succ n ih =>
    rw [run_succ]
    exact ih.step

/-- A bubble in EX does nothing. -/
theorem Inv.bubble_pcSrc (h : t.Inv) (hex : t.exSlot = none) : t.pcSrc = false := by
  unfold ThreeStage.pcSrc IdEx.pcSrc
  rw [(h.exNone hex).branch, (h.exNone hex).jump, pcSrc_off]

theorem Inv.bubble_xP (h : t.Inv) (hex : t.exSlot = none) : (t.step env).xP = t.xP := by
  show regFileN t.xP t.idEx.aluRegWriteP t.idEx.rdP (t.regWriteData env) = _
  cases (h.exNone hex).regWrite with
  | inl hoff => rw [hoff, regFileN_off h.x0]
  | inr hx0 => rw [hx0, regFileN_x0 h.x0]

theorem Inv.bubble_plat (h : t.Inv) (hex : t.exSlot = none) : (t.step env).plat = t.plat := by
  show t.plat.tick t.idEx.aluMemReadP t.idEx.aluMemWriteP _ _ = _
  rw [(h.exNone hex).memRead, (h.exNone hex).memWrite, tick_idle]

end Traced

/-! ## 3. What the occupant of EX does -/

/-- The ID/EX registers that hold the signals of a sequential step. -/
def IdEx.ofSignals (S : Arch) (g : Signals) : IdEx where
  pcIdP := S.pcP
  aluOperatorP := g.ctrl.aluOperator
  aluSrcP := g.ctrl.aluSrc
  aluIsBranchP := g.ctrl.aluIsBranch
  aluIsJumpP := g.ctrl.aluIsJump
  aluMemReadP := g.ctrl.aluMemRead
  aluMemWriteP := g.ctrl.aluMemWrite
  aluRegWriteP := g.ctrl.aluRegWrite
  memToRegP := g.ctrl.memToReg
  aluPcRegSrcP := g.ctrl.aluPcRegSrc
  cpuHaltP := g.ctrl.cpuHalt
  rdP := rd g.instruction
  aluImmP := aluImm g.ctrl.immSel g.instruction
  regData1P := g.regData1
  regData2P := g.regData2

theorem idExOf_eq_ofSignals {env : Env} {f : Fetched} {S : Arch} (hpc : f.pc = S.pcP)
    (hw : f.word = (Sequential.signals env S).instruction) (hsys : opcode f.word ≠ opcSystem) :
    idExOf f S.xP = IdEx.ofSignals S (Sequential.signals env S) := by
  have hctrl : Pipeline.decode false (rd f.ahead) f.word = Sequential.decode f.word :=
    Fetched.ctrl_eq_decode hsys
  unfold idExOf idExN
  simp only [hctrl, hpc]
  rw [hw]
  rfl

/-- The core and a sequential machine agree on the instruction in EX. -/
structure Traced.Retires (env : Env) (t : Traced) (S : Arch) : Prop where
  xP : t.xP = S.xP
  plat : t.plat = S.plat
  idEx : t.idEx = IdEx.ofSignals S (Sequential.signals env S)

namespace Traced.Retires

variable {env : Env} {t : Traced} {S : Arch}

theorem regWriteData (h : t.Retires env S) :
    t.regWriteData env = (Sequential.signals env S).regWriteData := by
  unfold ThreeStage.regWriteData
  rw [h.idEx, h.plat]
  rfl

theorem pcSrc (h : t.Retires env S) : t.pcSrc = (Sequential.signals env S).pcSrc := by
  unfold ThreeStage.pcSrc
  rw [h.idEx]
  rfl

theorem step_xP (h : t.Retires env S) : (t.step env).xP = (Sequential.step env S).xP := by
  show regFileN t.xP t.idEx.aluRegWriteP t.idEx.rdP (t.regWriteData env) = _
  rw [h.regWriteData, h.idEx, h.xP]
  rfl

theorem step_plat (h : t.Retires env S) : (t.step env).plat = (Sequential.step env S).plat := by
  show t.plat.tick t.idEx.aluMemReadP t.idEx.aluMemWriteP t.idEx.aluResult t.idEx.regData2P = _
  rw [h.idEx, h.plat]
  rfl

/-- Everything the instruction does at the ports of the core. -/
theorem effects (h : t.Retires env S) (hhalt : (Sequential.signals env S).ctrl.cpuHalt = false) :
    t.effects env = Sequential.effects env S := by
  unfold ThreeStage.effects Sequential.effects
  rw [h.regWriteData, h.pcSrc, h.idEx, Sequential.pcN_of_cpuHalt hhalt]
  rfl

end Traced.Retires

/-! ## 4. In step with the path -/

namespace Traced

open MicroRiscv.Traced (insn pathInsn)

/-- The occupants of EX and ID, the oldest first. -/
def stages (t : Traced) : List (Option (Word × Word)) := [t.exSlot.map insn, t.idSlot.map insn]

theorem stages_step (env : Env) (t : Traced) :
    (t.step env).stages = Slots.advance t.pcSrc t.stages (insn (t.fetched env)) := by
  unfold stages step Slots.advance
  cases t.pcSrc <;> rfl

/-- The occupants over a run, as a pipeline of two stages. -/
theorem slots_run (env : Env) (s : ThreeStage) :
    Slots.Run 2 (fun n => (run env s n).stages) (fun n => (run env s n).pcSrc)
      (fun n => insn ((run env s n).fetched env)) where
  pos := by decide
  start := rfl
  next := fun n => by rw [run_succ, stages_step]

theorem stages_head (t : Traced) : t.stages[0]? = some (t.exSlot.map insn) := rfl

theorem stages_head_none_iff (t : Traced) : t.stages[0]? = some none ↔ t.exSlot = none := by
  rw [stages_head, Option.some.injEq, Option.map_eq_none_iff]

theorem stages_head_some_iff {t : Traced} {x : Word × Word} :
    t.stages[0]? = some (some x) ↔ ∃ f, t.exSlot = some f ∧ insn f = x := by
  rw [stages_head, Option.some.injEq, Option.map_eq_some_iff]

theorem occupied_stages (t : Traced) : Slots.occupied t.stages = t.exSlot.isSome := by
  unfold stages
  cases t.exSlot <;> rfl

/-- Only an occupant of EX transfers. -/
theorem occupied_of_pcSrc {env : Env} {s : ThreeStage} (n : Nat)
    (hsrc : (run env s n).pcSrc = true) : Slots.occupied (run env s n).stages = true := by
  rw [occupied_stages]
  cases hex : (run env s n).exSlot with
  | none =>
    rw [(inv_run env s n).bubble_pcSrc hex] at hsrc
    cases hsrc
  | some f => rfl

section Path

variable {env : Env} {init : Platform} {s : ThreeStage} {t : Traced} {k : Nat}

/-- An occupant of EX that is the `k`-th instruction does what that instruction does. -/
theorem Inv.retires (hsys : opcode (Sequential.instruction env init k) ≠ opcSystem) (h : t.Inv)
    (ha : t.toArch.Agrees (Sequential.run env init k)) {f : Fetched} (hex : t.exSlot = some f)
    (hf : insn f = pathInsn env init k) : t.Retires env (Sequential.run env init k) where
  xP := ha.xP
  plat := ha.plat
  idEx := by
    obtain ⟨hpc, hw⟩ := Prod.mk.inj hf
    have hxP : t.xP = (Sequential.run env init k).xP := ha.xP
    rw [h.exSome f hex, hxP]
    exact idExOf_eq_ofSignals hpc hw (hw ▸ hsys)

/-- EX does not halt on a path without the opcode SYSTEM. -/
theorem Inv.cpuHalt_off (h : t.Inv) (ha : t.toArch.Agrees (Sequential.run env init k))
    (hhead : ∀ f, t.exSlot = some f → insn f = pathInsn env init k ∧
      opcode (Sequential.instruction env init k) ≠ opcSystem) :
    t.idEx.cpuHaltP = false := by
  cases hex : t.exSlot with
  | none => exact (h.exNone hex).halt
  | some f =>
    obtain ⟨hf, hsys⟩ := hhead f hex
    rw [(h.retires hsys ha hex hf).idEx]
    exact Sequential.cpuHalt_of_opcode hsys

/-- What one cycle does, with a bubble or with an occupant in EX. -/
theorem inStepTo {K : Nat} (hp : Sequential.PipelinableTo env s.plat K) :
    Slots.InStepTo K (fun n => (run env s n).stages) (fun n => (run env s n).pcSrc)
      (fun n => insn ((run env s n).fetched env)) (pathInsn env s.plat)
      (Sequential.Transfers env s.plat)
      (fun n k => (run env s n).toArch.Agrees (Sequential.run env s.plat k))
      (fun n j => (run env s n).pcP = (Sequential.run env s.plat j).pcP) where
  agreeStart := ⟨rfl, rfl⟩
  frontStart := rfl
  fetch := by
    intro n k j hk hj ha hpc
    exact Prod.ext hpc (hp.fetch hk hj ha.plat hpc)
  bubble := by
    intro n k _ ha hfree
    rw [occupied_stages, Option.isSome_eq_false_iff, Option.isNone_iff_eq_none] at hfree
    have hinv := inv_run env s n
    rw [run_succ]
    exact ⟨hinv.bubble_pcSrc hfree, (hinv.bubble_xP hfree).trans ha.xP,
      (hinv.bubble_plat hfree).trans ha.plat⟩
  retire := by
    intro n k hk ha hhead
    obtain ⟨f, hex, hf⟩ := stages_head_some_iff.mp hhead
    have hret := (inv_run env s n).retires (hp.noSystem k hk) ha hex hf
    rw [run_succ, Sequential.run_succ, hret.pcSrc]
    exact ⟨⟨hret.step_xP, hret.step_plat⟩, Iff.rfl⟩
  redirect := by
    intro n k hk ha hhead hsrc
    obtain ⟨f, hex, hf⟩ := stages_head_some_iff.mp hhead
    have hret := (inv_run env s n).retires (hp.noSystem k hk) ha hex hf
    have hhalt : (run env s n).idEx.cpuHaltP = false := by
      rw [hret.idEx]
      exact hp.cpuHalt hk
    have htaken := hret.pcSrc.symm.trans hsrc
    rw [Sequential.run_pcP (hp.cpuHalt hk), if_pos htaken, run_succ]
    show pcMux (run env s n).idEx.cpuHaltP (run env s n).pcSrc _ (run env s n).idEx.pcAlu _ = _
    rw [hsrc, hhalt, hret.idEx]
    rfl
  next := by
    intro n k j _ hj ha hhead hsrc hpc hnot
    have hhalt : (run env s n).idEx.cpuHaltP = false := by
      refine (inv_run env s n).cpuHalt_off ha fun f hex => ?_
      obtain ⟨hf, hk⟩ := hhead _ (stages_head_some_iff.mpr ⟨f, hex, rfl⟩)
      exact ⟨hf, hp.noSystem k hk⟩
    rw [Sequential.run_pcP (hp.cpuHalt hj), run_succ, ← hpc]
    show pcMux (run env s n).idEx.cpuHaltP (run env s n).pcSrc _ _ _ = _
    rw [hsrc, hhalt]
    exact (if_neg hnot).symm

theorem inStep (hp : Sequential.Pipelinable env s.plat) :
    Slots.InStep (fun n => (run env s n).stages) (fun n => (run env s n).pcSrc)
      (fun n => insn ((run env s n).fetched env)) (pathInsn env s.plat)
      (Sequential.Transfers env s.plat)
      (fun n k => (run env s n).toArch.Agrees (Sequential.run env s.plat k))
      (fun n j => (run env s n).pcP = (Sequential.run env s.plat j).pcP) :=
  .of_upTo fun K => inStepTo (hp.upTo K)

/-- The instructions that have been in EX before cycle `n`. -/
def retired (env : Env) (s : ThreeStage) (n : Nat) : Nat :=
  Slots.retired (fun m => (run env s m).stages) n

theorem agrees_run (hp : Sequential.Pipelinable env s.plat) (n : Nat) :
    (run env s n).toArch.Agrees (Sequential.run env s.plat (retired env s n)) :=
  ((inStep hp).follows (slots_run env s) n).1

/-- The occupant of EX is the next instruction of the path. -/
theorem ex_occupant (hp : Sequential.Pipelinable env s.plat) {n : Nat} {f : Fetched}
    (hex : (run env s n).exSlot = some f) : insn f = pathInsn env s.plat (retired env s n) := by
  obtain ⟨-, hchain⟩ := (inStep hp).follows (slots_run env s) n
  unfold stages at hchain
  rw [hex] at hchain
  exact hchain.1

theorem retires_run (hp : Sequential.Pipelinable env s.plat) {n : Nat} {f : Fetched}
    (hex : (run env s n).exSlot = some f) :
    (run env s n).Retires env (Sequential.run env s.plat (retired env s n)) :=
  (inv_run env s n).retires (hp.noSystem _) (agrees_run hp n) hex (ex_occupant hp hex)

/-- `PC_src` is high exactly when EX holds an instruction of the path that transfers. -/
theorem pcSrc_iff_transfers (hp : Sequential.Pipelinable env s.plat) (n : Nat) :
    (run env s n).pcSrc = true ↔ (run env s n).exSlot.isSome = true ∧
      Sequential.Transfers env s.plat (retired env s n) := by
  cases hex : (run env s n).exSlot with
  | none =>
    rw [(inv_run env s n).bubble_pcSrc hex]
    simp
  | some f =>
    rw [(retires_run hp hex).pcSrc]
    simp [Sequential.Transfers]

/-- The effects of the instructions that have been in EX before cycle `n`, in order. -/
def trace (env : Env) (s : ThreeStage) (n : Nat) : List Effects :=
  Slots.history (fun m => (run env s m).stages) (fun m => (run env s m).effects env) n

theorem trace_eq_map (hp : Sequential.Pipelinable env s.plat) (n : Nat) :
    trace env s n = (List.range (retired env s n)).map fun k =>
      Sequential.effects env (Sequential.run env s.plat k) := by
  apply Slots.history_eq_map
  intro m hocc
  rw [occupied_stages, Option.isSome_iff_exists] at hocc
  obtain ⟨f, hex⟩ := hocc
  exact (retires_run hp hex).effects (hp.cpuHalt _)

end Path

end Traced

/-! ## 5. The refinement -/

/-- What it means that the core refines the sequential machine on the program of `s`. -/
structure RefinesSequential (env : Env) (s : ThreeStage) : Prop where
  /-- The occupants of EX are the instructions of the path, in program order, and each one
  has the effects of its sequential step. -/
  inOrder : ∀ n f, (Traced.run env s n).exSlot = some f →
    (f.pc, f.word) = MicroRiscv.Traced.pathInsn env s.plat (Traced.retired env s n) ∧
    (Traced.run env s n).effects env =
      Sequential.effects env (Sequential.run env s.plat (Traced.retired env s n))
  /-- Every instruction of the path is in EX in exactly one cycle. -/
  once : ∀ k, ∃! n, (Traced.run env s n).exSlot.isSome = true ∧ Traced.retired env s n = k
  /-- A bubble has no effect. -/
  bubbleIdle : ∀ n, (Traced.run env s n).exSlot = none →
    ((Traced.run env s n).effects env).dataRe = false ∧
    ((Traced.run env s n).effects env).dataWe = false ∧
    (((Traced.run env s n).effects env).regWrite = false ∨
      ((Traced.run env s n).effects env).rd = 0#5)
  /-- The bubbles are in the first two cycles and in the two cycles after each taken branch
  or jump. -/
  bubbles : ∀ n, (Traced.run env s n).exSlot = none ↔
    n < 2 ∨ ∃ j, 1 ≤ j ∧ j ≤ 2 ∧ j ≤ n ∧ (Traced.run env s (n - j)).exSlot.isSome = true ∧
      Sequential.Transfers env s.plat (Traced.retired env s (n - j))
  /-- Registers, memory, `stdin` and `stdout` are those after the retired instructions. -/
  state : ∀ n,
    (Traced.run env s n).xP = (Sequential.run env s.plat (Traced.retired env s n)).xP ∧
    (Traced.run env s n).plat = (Sequential.run env s.plat (Traced.retired env s n)).plat

theorem Traced.refines {env : Env} {s : ThreeStage} (hp : Sequential.Pipelinable env s.plat) :
    RefinesSequential env s where
  inOrder := fun n f hex =>
    ⟨ex_occupant hp hex, (retires_run hp hex).effects (hp.cpuHalt _)⟩
  once := by
    intro k
    have hunique := (slots_run env s).existsUnique_retired occupied_of_pcSrc k
    simp only [occupied_stages] at hunique
    exact hunique
  bubbleIdle := by
    intro n hex
    have hidle := (inv_run env s n).exNone hex
    exact ⟨hidle.memRead, hidle.memWrite, hidle.regWrite⟩
  bubbles := by
    intro n
    rw [← stages_head_none_iff]
    simp only [← pcSrc_iff_transfers hp]
    exact (slots_run env s).head_none_iff n
  state := fun n => ⟨(agrees_run hp n).xP, (agrees_run hp n).plat⟩

end ThreeStage

/-- The 3-stage core refines the sequential machine, and whenever it and a 4-stage core
with the same devices at reset have retired equally many instructions, their effects so
far are the same; each of the two gets to every such number. -/
theorem threeStage_refines_sequential {env : Env} {s : ThreeStage}
    (hp : Sequential.Pipelinable env s.plat) :
    ThreeStage.RefinesSequential env s ∧
    ∀ p : Pipeline, p.plat = s.plat →
      (∀ n m, ThreeStage.Traced.retired env s n = Traced.retired env p m →
        ThreeStage.Traced.trace env s n = Traced.trace env p m) ∧
      ∀ k, (∃ n, ThreeStage.Traced.retired env s n = k) ∧ ∃ m, Traced.retired env p m = k := by
  have href := ThreeStage.Traced.refines hp
  refine ⟨href, fun p hplat => ⟨fun n m hnm => ?_, fun k => ⟨?_, ?_⟩⟩⟩
  · rw [ThreeStage.Traced.trace_eq_map hp, Traced.trace_eq_map (hplat ▸ hp), hnm, hplat]
  · obtain ⟨n, ⟨-, hn⟩, -⟩ := href.once k
    exact ⟨n, hn⟩
  · obtain ⟨m, ⟨-, hm⟩, -⟩ := Traced.existsUnique_retired env p k
    exact ⟨m, hm⟩

/-- The agreement on the program that stores and then loops. -/
theorem threeStage_refines_storeAndLoop :
    ThreeStage.RefinesSequential Env.zero (ThreeStage.ofPlatform storeAndLoop) :=
  (threeStage_refines_sequential storeAndLoop_pipelinable).1

end MicroRiscv
