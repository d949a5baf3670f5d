import MicroRiscv.Pipeline

/-!
# The 3-stage pipelined core

The version of the core before the fourth stage was added: IF, ID and EX, where EX also
accesses the data memory and writes back. The registers between the stages are IF/ID and
ID/EX. Operands reach EX from the register file or from the EX-to-ID bypass, which also
carries load data and link addresses. A transfer is resolved in EX; `PC_src` then turns
the fetched word into a NOP and clears the decoded control signals in ID.
-/

namespace MicroRiscv

/-! ## Registers -/

/-- The ID/EX registers. `illegal_insn_p` is left out: nothing drives or reads it. -/
structure ThreeStage.IdEx where
  pcIdP : Word
  aluOperatorP : AluOpT
  aluSrcP : Bool
  aluIsBranchP : Bool
  aluIsJumpP : Bool
  aluMemReadP : Bool
  aluMemWriteP : Bool
  aluRegWriteP : Bool
  memToRegP : Bool
  aluPcRegSrcP : Bool
  cpuHaltP : Bool
  rdP : RegIdx
  aluImmP : Word
  regData1P : Word
  regData2P : Word
deriving DecidableEq, Repr, Inhabited

structure ThreeStage extends Arch where
  ifId : IfId
  idEx : ThreeStage.IdEx

namespace ThreeStage

/-! ## Signals -/

/-- The forward conditions: EX writes the register `rs`, and it is not `x0`. -/
def forwardReg (d : IdEx) (rs : RegIdx) : Bool :=
  decide (d.rdP ≠ 0#5 ∧ d.aluRegWriteP = true ∧ d.rdP = rs)

/-- The next ID/EX registers; `read` is the register file behind the bypass. -/
def idExN (flush : Bool) (rdP : RegIdx) (f : IfId) (read : RegIdx → Word) : IdEx :=
  let w := f.instructionIfP
  let c := Pipeline.decode flush rdP w
  { pcIdP := f.pcIfP
    aluOperatorP := c.aluOperator
    aluSrcP := c.aluSrc
    aluIsBranchP := c.aluIsBranch
    aluIsJumpP := c.aluIsJump
    aluMemReadP := c.aluMemRead
    aluMemWriteP := c.aluMemWrite
    aluRegWriteP := c.aluRegWrite
    memToRegP := c.memToReg
    aluPcRegSrcP := c.aluPcRegSrc
    cpuHaltP := c.cpuHalt
    rdP := rd w
    aluImmP := aluImm c.immSel w
    regData1P := read (rs1 c w)
    regData2P := read (rs2 c w) }

namespace IdEx

variable (d : IdEx)

/-- `alu_data_2`. -/
def aluData2 : Word := MicroRiscv.aluData2 d.aluSrcP d.aluImmP d.regData2P

def aluResult : Word := MicroRiscv.aluResult d.aluOperatorP d.regData1P d.aluData2

/-- `alu_branch_o`. -/
def aluBranchO : Bool := aluBranch d.aluOperatorP d.regData1P d.aluData2

/-- `PC_alu`. -/
def pcAlu : Word := MicroRiscv.pcAlu d.aluPcRegSrcP d.regData1P d.pcIdP d.aluImmP

/-- `PC_src`, resolved in EX. -/
def pcSrc : Bool := MicroRiscv.pcSrc d.aluBranchO d.aluIsBranchP d.aluIsJumpP

end IdEx

variable (env : Env) (s : ThreeStage)

/-- `cpu_finish_o`. -/
def cpuFinishO : Bool := s.idEx.cpuHaltP

def pcSrc : Bool := s.idEx.pcSrc

/-- `cpu_instr_rdata_i`. -/
def instrRdata : Word := MicroRiscv.instrRdata env s.plat s.pcP

/-- `reg_write_data`. -/
def regWriteData : Word :=
  MicroRiscv.regWriteData s.idEx.memToRegP s.idEx.aluIsJumpP (s.idEx.pcIdP + 4#32)
    s.idEx.aluResult (dataRdata env s.plat s.idEx.aluResult)

/-- A bypass mux: what the register file holds for `rs`, or the data EX writes. -/
def bypass (rs : RegIdx) : Word :=
  if forwardReg s.idEx rs then s.regWriteData env else s.xP rs

/-- One clock edge of the core with its devices. -/
def step : ThreeStage where
  pcP := pcMux s.idEx.cpuHaltP s.pcSrc s.pcP s.idEx.pcAlu (s.pcP + 4#32)
  xP := regFileN s.xP s.idEx.aluRegWriteP s.idEx.rdP (s.regWriteData env)
  plat := s.plat.tick s.idEx.aluMemReadP s.idEx.aluMemWriteP s.idEx.aluResult s.idEx.regData2P
  ifId := ⟨s.pcP, if s.pcSrc then Pipeline.nopWord else s.instrRdata env⟩
  idEx := idExN s.pcSrc s.idEx.rdP s.ifId (s.bypass env)

/-- The core after reset: every register is cleared, the devices keep their state. -/
def reset : ThreeStage where
  pcP := resetAddr
  xP := fun _ => 0#32
  plat := s.plat
  ifId := ⟨0#32, 0#32⟩
  idEx := ⟨0#32, .add, false, false, false, false, false, false, false, false, false, 0#5, 0#32,
    0#32, 0#32⟩

/-- A core on the devices `plat` with cleared registers. -/
def ofPlatform (plat : Platform) : ThreeStage := ⟨Sequential.reset plat, default, default⟩

/-- What the instruction in EX does. -/
def effects : Effects where
  regWrite := s.idEx.aluRegWriteP
  rd := s.idEx.rdP
  regWriteData := s.regWriteData env
  dataRe := s.idEx.aluMemReadP
  dataWe := s.idEx.aluMemWriteP
  dataAddr := s.idEx.aluResult
  dataWdata := s.idEx.regData2P
  nextPc := pcMux false s.pcSrc s.pcP s.idEx.pcAlu (s.idEx.pcIdP + 4#32)

/-! ## Occupants of the stages -/

/-- The core together with the instructions that occupy ID and EX; a stage without one
holds a bubble. The slots follow the core and do not influence it. -/
structure Traced extends ThreeStage where
  idSlot : Option Fetched
  exSlot : Option Fetched

namespace Traced

variable (env : Env) (t : Traced)

/-- The instruction that leaves IF. -/
def fetched : Fetched where
  pc := t.pcP
  word := t.instrRdata env
  ahead := t.ifId.instructionIfP

def step : Traced where
  toThreeStage := t.toThreeStage.step env
  idSlot := if t.pcSrc then none else some (t.fetched env)
  exSlot := if t.pcSrc then none else t.idSlot

/-- After reset every stage holds a bubble. -/
def reset (s : ThreeStage) : Traced := ⟨s.reset, none, none⟩

/-- The state `n` cycles after a reset in the state `s`. -/
def run (s : ThreeStage) (n : Nat) : Traced := (step env)^[n] (reset s)

theorem run_succ (s : ThreeStage) (n : Nat) : run env s (n + 1) = (run env s n).step env :=
  Function.iterate_succ_apply' _ _ _

/-- Forgetting the slots gives the run of the core. -/
theorem run_toThreeStage (s : ThreeStage) (n : Nat) :
    (run env s n).toThreeStage = (ThreeStage.step env)^[n] s.reset := by
  induction n with
  | zero => rfl
  | succ n ih =>
    rw [run_succ, Function.iterate_succ_apply', ← ih]
    rfl

end Traced

end ThreeStage

end MicroRiscv
