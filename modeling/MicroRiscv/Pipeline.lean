import MicroRiscv.SingleCycle

/-!
# The 4-stage pipelined core

Stages IF, ID, EX and WB, with the registers IF/ID, ID/EX and EX/WB between them.
Operands reach EX from the register file, from the WB-to-ID bypass or from the
WB-to-EX bypass. A transfer is resolved in WB; `PC_src` then turns the fetched word
into a NOP, clears the decoded control signals in ID and those leaving EX.

The reset branch of the EX/WB control register assigns `alu_reg_write_ex_n`, which
the flush logic drives, in place of `alu_reg_write_ex_p`: the signal keeps its
combinational value and the register survives the reset.
-/

namespace MicroRiscv

/-! ## Registers -/

/-- The IF/ID registers. -/
structure IfId where
  pcIfP : Word
  instructionIfP : Word
deriving DecidableEq, Repr, Inhabited

/-- The ID/EX registers. `rs1ExP` and `rs2ExP` name the sources of the instruction in
EX. `illegal_insn_p` is left out: nothing drives or reads it. -/
structure IdEx where
  pcIdP : Word
  aluOperatorP : AluOpT
  aluSrcP : Bool
  aluIsBranchP : Bool
  aluIsJumpP : Bool
  aluMemReadP : Bool
  aluMemWriteP : Bool
  aluRegWriteP : Bool
  memToRegP : Bool
  aluPcRegSrcP : Bool
  cpuHaltP : Bool
  rdP : RegIdx
  aluImmP : Word
  regData1P : Word
  regData2P : Word
  rs1ExP : RegIdx
  rs2ExP : RegIdx
deriving DecidableEq, Repr, Inhabited

/-- The EX/WB registers. -/
structure ExWb where
  aluIsBranchExP : Bool
  aluIsJumpExP : Bool
  aluMemReadExP : Bool
  aluMemWriteExP : Bool
  aluRegWriteExP : Bool
  memToRegExP : Bool
  cpuHaltExP : Bool
  pcAluP : Word
  aluBranchOP : Bool
  aluResultP : Word
  rdExP : RegIdx
  pcExP : Word
  regData2ExP : Word
deriving DecidableEq, Repr, Inhabited

structure Pipeline extends Arch where
  ifId : IfId
  idEx : IdEx
  exWb : ExWb

namespace Pipeline

/-! ## Signals -/

/-- The word a taken transfer puts in place of the fetched one: ADDI x0, x0, 0. -/
def nopWord : Word := 0b00000000000000000000000000010011#32

/-- The forward conditions: WB writes the register `rs`, and it is not `x0`. -/
def forwardReg (b : ExWb) (rs : RegIdx) : Bool :=
  decide (b.rdExP ≠ 0#5 ∧ b.aluRegWriteExP = true ∧ b.rdExP = rs)

/-- The decoder with the ID flush. -/
def decode (flush : Bool) (rdP : RegIdx) (w : Word) : Ctrl :=
  if flush then {} else decoder false rdP w

/-- The next ID/EX registers; `read` is the register file behind the ID bypass. -/
def idExN (flush : Bool) (rdP : RegIdx) (f : IfId) (read : RegIdx → Word) : IdEx :=
  let w := f.instructionIfP
  let c := decode flush rdP w
  { pcIdP := f.pcIfP
    aluOperatorP := c.aluOperator
    aluSrcP := c.aluSrc
    aluIsBranchP := c.aluIsBranch
    aluIsJumpP := c.aluIsJump
    aluMemReadP := c.aluMemRead
    aluMemWriteP := c.aluMemWrite
    aluRegWriteP := c.aluRegWrite
    memToRegP := c.memToReg
    aluPcRegSrcP := c.aluPcRegSrc
    cpuHaltP := c.cpuHalt
    rdP := rd w
    aluImmP := aluImm c.immSel w
    regData1P := read (rs1 c w)
    regData2P := read (rs2 c w)
    rs1ExP := rs1 c w
    rs2ExP := rs2 c w }

/-- The next EX/WB registers; `a` and `b` are the operands behind the EX bypass. -/
def exWbN (flush : Bool) (d : IdEx) (a b : Word) : ExWb :=
  let data2 := aluData2 d.aluSrcP d.aluImmP b
  { aluIsBranchExP := !flush && d.aluIsBranchP
    aluIsJumpExP := !flush && d.aluIsJumpP
    aluMemReadExP := !flush && d.aluMemReadP
    aluMemWriteExP := !flush && d.aluMemWriteP
    aluRegWriteExP := !flush && d.aluRegWriteP
    memToRegExP := !flush && d.memToRegP
    cpuHaltExP := !flush && d.cpuHaltP
    pcAluP := MicroRiscv.pcAlu d.aluPcRegSrcP a d.pcIdP d.aluImmP
    aluBranchOP := !flush && aluBranch d.aluOperatorP a data2
    aluResultP := aluResult d.aluOperatorP a data2
    rdExP := d.rdP
    pcExP := d.pcIdP
    regData2ExP := b }

variable (env : Env) (s : Pipeline)

/-- `cpu_finish_o`. -/
def cpuFinishO : Bool := s.exWb.cpuHaltExP

/-- `PC_src`, resolved in WB. -/
def pcSrc : Bool :=
  MicroRiscv.pcSrc s.exWb.aluBranchOP s.exWb.aluIsBranchExP s.exWb.aluIsJumpExP

/-- `cpu_instr_rdata_i`. -/
def instrRdata : Word := MicroRiscv.instrRdata env s.plat s.pcP

/-- `reg_write_data`. -/
def regWriteData : Word :=
  MicroRiscv.regWriteData s.exWb.memToRegExP s.exWb.aluIsJumpExP (s.exWb.pcExP + 4#32)
    s.exWb.aluResultP (dataRdata env s.plat s.exWb.aluResultP)

/-- A bypass mux: the value `v` held for the register `rs`, or the data WB writes. -/
def bypass (rs : RegIdx) (v : Word) : Word :=
  if forwardReg s.exWb rs then s.regWriteData env else v

/-- One clock edge of the core with its devices. -/
def step : Pipeline where
  pcP := pcMux s.exWb.cpuHaltExP s.pcSrc s.pcP s.exWb.pcAluP (s.pcP + 4#32)
  xP := regFileN s.xP s.exWb.aluRegWriteExP s.exWb.rdExP (s.regWriteData env)
  plat := s.plat.tick s.exWb.aluMemReadExP s.exWb.aluMemWriteExP s.exWb.aluResultP
    s.exWb.regData2ExP
  ifId := ⟨s.pcP, if s.pcSrc then nopWord else s.instrRdata env⟩
  idEx := idExN s.pcSrc s.idEx.rdP s.ifId (fun r => s.bypass env r (s.xP r))
  exWb := exWbN s.pcSrc s.idEx (s.bypass env s.idEx.rs1ExP s.idEx.regData1P)
    (s.bypass env s.idEx.rs2ExP s.idEx.regData2P)

/-- The core after reset: every register is cleared but `alu_reg_write_ex_p`, the
devices keep their state. -/
def reset : Pipeline where
  pcP := resetAddr
  xP := fun _ => 0#32
  plat := s.plat
  ifId := ⟨0#32, 0#32⟩
  idEx := ⟨0#32, .add, false, false, false, false, false, false, false, false, false, 0#5, 0#32,
    0#32, 0#32, 0#5, 0#5⟩
  exWb := ⟨false, false, false, false, s.exWb.aluRegWriteExP, false, false, 0#32, false, 0#32, 0#5,
    0#32, 0#32⟩

/-- A core with the program `ws` and cleared registers. -/
def ofProgram (ws : List Word) : Pipeline :=
  ⟨Sequential.reset (Platform.ofProgram ws), default, default, default⟩

/-- What the instruction in WB does. -/
def effects : Effects where
  regWrite := s.exWb.aluRegWriteExP
  rd := s.exWb.rdExP
  regWriteData := s.regWriteData env
  dataRe := s.exWb.aluMemReadExP
  dataWe := s.exWb.aluMemWriteExP
  dataAddr := s.exWb.aluResultP
  dataWdata := s.exWb.regData2ExP
  nextPc := pcMux false s.pcSrc s.pcP s.exWb.pcAluP (s.exWb.pcExP + 4#32)

end Pipeline

/-! ## Occupants of the stages -/

/-- An instruction in flight: its address, its word, and the word that was in ID when
it was fetched, directly ahead of it in the pipeline. -/
structure Fetched where
  pc : Word
  word : Word
  ahead : Word
deriving DecidableEq, Repr

/-- The core together with the instructions that occupy ID, EX and WB. A stage without
an instruction (`none`) holds a bubble: after reset, or because the transfer in WB
squashed what was moving into it. The slots follow the core and do not influence it. -/
structure Traced extends Pipeline where
  idSlot : Option Fetched
  exSlot : Option Fetched
  wbSlot : Option Fetched

namespace Traced

variable (env : Env) (t : Traced)

/-- The instruction that leaves IF. -/
def fetched : Fetched where
  pc := t.pcP
  word := t.instrRdata env
  ahead := t.ifId.instructionIfP

def step : Traced where
  toPipeline := t.toPipeline.step env
  idSlot := if t.pcSrc then none else some (t.fetched env)
  exSlot := if t.pcSrc then none else t.idSlot
  wbSlot := if t.pcSrc then none else t.exSlot

/-- After reset every stage holds a bubble. -/
def reset (s : Pipeline) : Traced := ⟨s.reset, none, none, none⟩

/-- The state `n` cycles after a reset in the state `s`. -/
def run (s : Pipeline) (n : Nat) : Traced := (step env)^[n] (reset s)

theorem run_succ (s : Pipeline) (n : Nat) : run env s (n + 1) = (run env s n).step env :=
  Function.iterate_succ_apply' _ _ _

/-- Forgetting the slots gives the run of the core. -/
theorem run_toPipeline (s : Pipeline) (n : Nat) :
    (run env s n).toPipeline = (Pipeline.step env)^[n] s.reset := by
  induction n with
  | zero => rfl
  | succ n ih => rw [run_succ, Function.iterate_succ_apply', ← ih]; rfl

end Traced

end MicroRiscv
