import Mathlib.Logic.Function.Iterate
import MicroRiscv.Platform
import MicroRiscv.Divider

/-!
# The unpipelined datapath: the single-cycle core and the sequential machine

`signals` are the combinational signals of the single-cycle `micro_riscv` in one
cycle. Two machines are built from them:

* `SingleCycle`, the core itself: it also contains the divider, which stalls the PC
  and overrides the write-back data while a DIVU is fetched;
* `Sequential`, the same datapath without the division: one instruction per step,
  the reference for the pipelined cores.

The single-cycle source assigns `reg_write_data` in two blocks. In the cycle in
which the divider finishes, the assignment of the decoder block is taken, in every
other cycle that of the write-back block.
-/

namespace MicroRiscv

/-- The registers every core has: the PC, the register file and the devices. -/
structure Arch where
  pcP : Word
  xP : RegIdx → Word
  plat : Platform

/-- The same registers and devices; a pipelined core is ahead with its PC. -/
structure Arch.Agrees (s S : Arch) : Prop where
  xP : s.xP = S.xP
  plat : s.plat = S.plat

/-- The combinational signals of one cycle. -/
structure Signals where
  instruction : Word
  ctrl : Ctrl
  regData1 : Word
  regData2 : Word
  aluResult : Word
  aluBranchO : Bool
  pcAlu : Word
  pcSrc : Bool
  pcIncr : Word
  regWriteData : Word

/-- The datapath around a decoder. `regWriteData` is the write-back mux alone. -/
def signals (env : Env) (decode : Word → Ctrl) (s : Arch) : Signals :=
  let instruction := instrRdata env s.plat s.pcP
  let ctrl := decode instruction
  let regData1 := s.xP (rs1 ctrl instruction)
  let regData2 := s.xP (rs2 ctrl instruction)
  let imm := aluImm ctrl.immSel instruction
  let data2 := aluData2 ctrl.aluSrc imm regData2
  let result := aluResult ctrl.aluOperator regData1 data2
  let branchO := aluBranch ctrl.aluOperator regData1 data2
  let pcIncr := s.pcP + 4#32
  { instruction, ctrl, regData1, regData2
    aluResult := result
    aluBranchO := branchO
    pcAlu := pcAlu ctrl.aluPcRegSrc regData1 s.pcP imm
    pcSrc := pcSrc branchO ctrl.aluIsBranch ctrl.aluIsJump
    pcIncr
    regWriteData := regWriteData ctrl.memToReg ctrl.aluIsJump pcIncr result
      (dataRdata env s.plat result) }

/-- Of the decoder only its answer for the fetched word counts. -/
theorem signals_congr {env : Env} {f g : Word → Ctrl} {s : Arch}
    (h : f (instrRdata env s.plat s.pcP) = g (instrRdata env s.plat s.pcP)) :
    signals env f s = signals env g s := by
  unfold signals
  dsimp only
  rw [h]

/-- A cycle whose decoder asks for neither a branch nor a jump does not transfer. -/
theorem signals_pcSrc_off {env : Env} {decode : Word → Ctrl} {s : Arch} {c : Ctrl}
    (hc : (signals env decode s).ctrl = c) (hb : c.aluIsBranch = false)
    (hj : c.aluIsJump = false) : (signals env decode s).pcSrc = false := by
  show pcSrc _ (signals env decode s).ctrl.aluIsBranch (signals env decode s).ctrl.aluIsJump = false
  rw [hc, hb, hj, pcSrc_off]

/-- One clock edge, given the next PC and the data offered to the register file. -/
def Arch.edge (s : Arch) (g : Signals) (pcN data : Word) : Arch where
  pcP := pcN
  xP := regFileN s.xP g.ctrl.aluRegWrite (rd g.instruction) data
  plat := s.plat.tick g.ctrl.aluMemRead g.ctrl.aluMemWrite g.aluResult g.regData2

/-- What one instruction does at the ports of the core: its register write, its data
access and the PC after it. -/
structure Effects where
  regWrite : Bool
  rd : RegIdx
  regWriteData : Word
  dataRe : Bool
  dataWe : Bool
  dataAddr : Word
  dataWdata : Word
  nextPc : Word
deriving DecidableEq, Repr

/-! ## The single-cycle core -/

structure SingleCycle extends Arch where
  div : Divider

namespace SingleCycle

variable (env : Env) (s : SingleCycle)

def decode (w : Word) : Ctrl := decoder true (MicroRiscv.rd w) w

def signals : Signals := MicroRiscv.signals env decode s.toArch

/-- `cpu_finish_o`. -/
def cpuFinishO : Bool := (s.signals env).ctrl.illegalInsn || (s.signals env).ctrl.cpuHalt

/-- `PC_stall`: a division is fetched and has not finished. -/
def pcStall : Bool := (s.signals env).ctrl.startI && !s.div.finishO

/-- `PC_n`. -/
def pcN : Word :=
  let g := s.signals env
  if s.pcStall env then s.pcP else pcMux g.ctrl.cpuHalt g.pcSrc s.pcP g.pcAlu g.pcIncr

/-- The register image of a quotient: all bits set when the divisor was zero. -/
def quotientData (q : BitVec 9) : Word :=
  if q = 0x1ff#9 then 0xffffffff#32 else 0#23 ++ q

/-- `reg_write_data`. -/
def writeData : Word :=
  let g := s.signals env
  if g.ctrl.startI && s.div.finishO then quotientData s.div.quotientO else g.regWriteData

/-- One clock edge of the core with its devices. -/
def step : SingleCycle where
  toArch := s.toArch.edge (s.signals env) (s.pcN env) (s.writeData env)
  div :=
    let g := s.signals env
    s.div.step g.ctrl.startI (g.regData1.extractLsb' 0 8) (g.regData2.extractLsb' 0 8)

/-- The core after reset. Memory, `stdin` and `stdout` are not part of the reset. -/
def reset (plat : Platform) : SingleCycle where
  pcP := resetAddr
  xP := fun _ => 0#32
  plat := plat
  div := Divider.reset

/-- The state `n` cycles after reset. -/
def run (plat : Platform) (n : Nat) : SingleCycle := (step env)^[n] (reset plat)

theorem run_succ (plat : Platform) (n : Nat) : run env plat (n + 1) = (run env plat n).step env :=
  Function.iterate_succ_apply' _ _ _

end SingleCycle

/-! ## The sequential machine -/

namespace Sequential

variable (env : Env) (s : Arch)

/-- The decoder without the division. -/
def decode (w : Word) : Ctrl := decoder false (MicroRiscv.rd w) w

def signals : Signals := MicroRiscv.signals env decode s

def pcN : Word :=
  let g := signals env s
  pcMux g.ctrl.cpuHalt g.pcSrc s.pcP g.pcAlu g.pcIncr

def step : Arch := s.edge (signals env s) (pcN env s) (signals env s).regWriteData

/-- What the instruction at `s.pcP` does. -/
def effects : Effects :=
  let g := signals env s
  { regWrite := g.ctrl.aluRegWrite
    rd := MicroRiscv.rd g.instruction
    regWriteData := g.regWriteData
    dataRe := g.ctrl.aluMemRead
    dataWe := g.ctrl.aluMemWrite
    dataAddr := g.aluResult
    dataWdata := g.regData2
    nextPc := pcN env s }

/-- The state before the first instruction. -/
def reset (plat : Platform) : Arch where
  pcP := resetAddr
  xP := fun _ => 0#32
  plat := plat

/-- The state after `k` instructions. -/
def run (plat : Platform) (k : Nat) : Arch := (step env)^[k] (reset plat)

theorem run_succ (plat : Platform) (k : Nat) : run env plat (k + 1) = step env (run env plat k) :=
  Function.iterate_succ_apply' _ _ _

end Sequential

/-! ## Frame of one clock edge -/

theorem edge_x0 (s : Arch) (g : Signals) (pcN data : Word) :
    (s.edge g pcN data).xP 0#5 = 0#32 := by
  simp [Arch.edge]

/-- `x0` is zero in every reachable state of either machine. -/
theorem SingleCycle.run_x0 (env : Env) (plat : Platform) (n : Nat) :
    (run env plat n).xP 0#5 = 0#32 := by
  cases n with
  | zero => rfl
  | succ n =>
    rw [run_succ]
    exact edge_x0 _ _ _ _

theorem Sequential.run_x0 (env : Env) (plat : Platform) (k : Nat) :
    (run env plat k).xP 0#5 = 0#32 := by
  cases k with
  | zero => rfl
  | succ k =>
    rw [run_succ]
    exact edge_x0 _ _ _ _

/-- An instruction that enables nothing only moves the PC. -/
theorem edge_idle {s : Arch} {g : Signals} (h0 : s.xP 0#5 = 0#32) (pcN data : Word)
    (hw : g.ctrl.aluRegWrite = false) (hr : g.ctrl.aluMemRead = false)
    (hm : g.ctrl.aluMemWrite = false) : s.edge g pcN data = { s with pcP := pcN } := by
  unfold Arch.edge
  rw [hw, hr, hm, regFileN_off h0, tick_idle]

end MicroRiscv
