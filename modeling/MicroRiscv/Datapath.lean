import Mathlib.Data.BitVec

/-!
# The shared datapath of the micro_riscv cores

Every core of the repository (single-cycle, two, three and four stages) is built from
the same pieces: the constants of `cpu_pkg`, the field extraction, the decoder
table, the immediate generator with its mux, the ALU, the register file and the
muxes around them. This module embeds these pieces; the cores instantiate them.

Vectors are `BitVec`, a one-bit `logic` is `Bool`. SystemVerilog's `>>`, `<<` and
`>>>` take the whole right operand as the shift amount; so do `>>>`, `<<<` and
`BitVec.sshiftRight'` here.
-/

namespace MicroRiscv

abbrev Word := BitVec 32
abbrev RegIdx := BitVec 5

/-! ## cpu_pkg -/

def resetAddr : Word := 0x00000000#32

def opcLoad : BitVec 7 := 0x03#7
def opcImm : BitVec 7 := 0x13#7
def opcStore : BitVec 7 := 0x23#7
def opcAlsu : BitVec 7 := 0x33#7
def opcBranch : BitVec 7 := 0x63#7
def opcSystem : BitVec 7 := 0x73#7
def opcLui : BitVec 7 := 0x37#7
def opcJalr : BitVec 7 := 0x67#7
def opcJal : BitVec 7 := 0x6F#7

def f3Beq : BitVec 3 := 0b000#3
def f3Bne : BitVec 3 := 0b001#3
def f3Blt : BitVec 3 := 0b100#3
def f3Bge : BitVec 3 := 0b101#3

def f3Add : BitVec 3 := 0b000#3
def f3Sll : BitVec 3 := 0b001#3
def f3Srl : BitVec 3 := 0b101#3
def f3Or : BitVec 3 := 0b110#3
def f3And : BitVec 3 := 0b111#3
def f3Xor : BitVec 3 := 0b100#3
/-- Defined by the package; no decoder reads it. -/
def f3Lw : BitVec 3 := 0b010#3

/-- `imm_t`. -/
inductive ImmT
  | immI | immU | immUj | immSb | immS
deriving DecidableEq, Repr

/-- `alu_op_t`. -/
inductive AluOpT
  | add | sub | xor | or | and | srl | sra | sll | eq | ne | ges | lts
deriving DecidableEq, Repr, Inhabited

/-! ## Instruction fields -/

def opcode (w : Word) : BitVec 7 := w.extractLsb' 0 7
def funct3 (w : Word) : BitVec 3 := w.extractLsb' 12 3
def funct7 (w : Word) : BitVec 7 := w.extractLsb' 25 7
def funct12 (w : Word) : BitVec 12 := w.extractLsb' 20 12
def rd (w : Word) : RegIdx := w.extractLsb' 7 5
def rs1Field (w : Word) : RegIdx := w.extractLsb' 15 5
def rs2Field (w : Word) : RegIdx := w.extractLsb' 20 5

/-! ## Decoder -/

/-- The signals the decoder block assigns, with the defaults it assigns first.
`startI` is the divider's start; only the single-cycle core has it. -/
structure Ctrl where
  aluOperator : AluOpT := .add
  immSel : ImmT := .immI
  aluSrc : Bool := false
  aluIsBranch : Bool := false
  aluIsJump : Bool := false
  aluMemRead : Bool := false
  aluMemWrite : Bool := false
  aluRegWrite : Bool := false
  memToReg : Bool := false
  aluPcRegSrc : Bool := false
  illegalInsn : Bool := false
  cpuHalt : Bool := false
  rs1Valid : Bool := false
  rs2Valid : Bool := false
  startI : Bool := false
deriving DecidableEq, Repr

/-- `rs1`, gated by the decoder's own `rs1_valid`. -/
def rs1 (c : Ctrl) (w : Word) : RegIdx := if c.rs1Valid then rs1Field w else 0#5

/-- `rs2`, gated by the decoder's own `rs2_valid`. -/
def rs2 (c : Ctrl) (w : Word) : RegIdx := if c.rs2Valid then rs2Field w else 0#5

/-- The inner case of `OPC_BRANCH`. -/
def decodeBranch (f3 : BitVec 3) : Ctrl :=
  let c : Ctrl := { immSel := .immSb, aluIsBranch := true, rs1Valid := true, rs2Valid := true }
  if f3 = f3Beq then { c with aluOperator := .eq }
  else if f3 = f3Bne then { c with aluOperator := .ne }
  else if f3 = f3Blt then { c with aluOperator := .lts }
  else if f3 = f3Bge then { c with aluOperator := .ges }
  else { c with illegalInsn := true }

/-- The inner case of `OPC_ALSU`. The row for the division exists only in the
single-cycle core (`divu`). -/
def decodeAlsu (divu : Bool) (f7 : BitVec 7) (f3 : BitVec 3) : Ctrl :=
  let c : Ctrl := { aluRegWrite := true, rs1Valid := true, rs2Valid := true }
  if f7 = 0b0000000#7 ∧ f3 = f3Add then { c with aluOperator := .add }
  else if f7 = 0b0100000#7 ∧ f3 = f3Add then { c with aluOperator := .sub }
  else if f7 = 0b0000000#7 ∧ f3 = f3Xor then { c with aluOperator := .xor }
  else if f7 = 0b0000000#7 ∧ f3 = f3Or then { c with aluOperator := .or }
  else if f7 = 0b0000000#7 ∧ f3 = f3And then { c with aluOperator := .and }
  else if f7 = 0b0000000#7 ∧ f3 = f3Sll then { c with aluOperator := .sll }
  else if f7 = 0b0000000#7 ∧ f3 = f3Srl then { c with aluOperator := .srl }
  else if f7 = 0b0100000#7 ∧ f3 = f3Srl then { c with aluOperator := .sra }
  else if divu = true ∧ f7 = 0b0000001#7 ∧ f3 = 0b101#3 then { c with startI := true }
  else { c with illegalInsn := true }

/-- The case of `OPC_SYSTEM`. `rs1` is gated by `rs1_valid`, which this branch
leaves low, so the comparison always sees a zero there. The cores differ in the
destination register they compare (`haltRd`). -/
def decodeSystem (haltRd : RegIdx) (w : Word) : Ctrl :=
  if funct12 w ++ rs1 {} w ++ funct3 w ++ haltRd = 0b0000000000010000000000000#25 then
    { cpuHalt := true }
  else { illegalInsn := true }

/-- The case statement over the opcode. -/
def decodeCase (divu : Bool) (haltRd : RegIdx) (w : Word) : Ctrl :=
  if opcode w = opcJal then
    { aluOperator := .add, immSel := .immUj, aluIsJump := true, aluRegWrite := true }
  else if opcode w = opcJalr then
    { aluOperator := .add, immSel := .immI, rs1Valid := true, aluIsJump := true,
      aluRegWrite := true, aluPcRegSrc := true }
  else if opcode w = opcBranch then decodeBranch (funct3 w)
  else if opcode w = opcLoad then
    { aluOperator := .add, immSel := .immI, rs1Valid := true, aluRegWrite := true,
      aluSrc := true, aluMemRead := true, memToReg := true }
  else if opcode w = opcStore then
    { aluOperator := .add, immSel := .immS, rs1Valid := true, rs2Valid := true,
      aluSrc := true, aluMemWrite := true }
  else if opcode w = opcLui then
    { aluOperator := .add, immSel := .immU, aluSrc := true, aluRegWrite := true }
  else if opcode w = opcImm then
    { immSel := .immI, rs1Valid := true, aluSrc := true, aluRegWrite := true,
      illegalInsn := !decide (funct3 w = f3Add) }
  else if opcode w = opcAlsu then decodeAlsu divu (funct7 w) (funct3 w)
  else if opcode w = opcSystem then decodeSystem haltRd w
  else { illegalInsn := true }

/-- The gate after the case statement: an invalid instruction clears every control
signal but `illegal_insn` (and `start_i`, which the source does not list). -/
def gate (c : Ctrl) : Ctrl :=
  if c.illegalInsn then { illegalInsn := true, startI := c.startI } else c

/-- The decoder, without the flush that the pipelined cores append. -/
def decoder (divu : Bool) (haltRd : RegIdx) (w : Word) : Ctrl :=
  gate (decodeCase divu haltRd w)

/-! ## Immediate generation -/

def iImm (w : Word) : Word := BitVec.replicate 20 (w.extractLsb' 31 1) ++ w.extractLsb' 20 12
def sImm (w : Word) : Word :=
  BitVec.replicate 20 (w.extractLsb' 31 1) ++ w.extractLsb' 25 7 ++ w.extractLsb' 7 5
def sbImm (w : Word) : Word :=
  BitVec.replicate 19 (w.extractLsb' 31 1) ++ w.extractLsb' 31 1 ++ w.extractLsb' 7 1 ++
    w.extractLsb' 25 6 ++ w.extractLsb' 8 4 ++ 0#1
def uImm (w : Word) : Word := w.extractLsb' 12 20 ++ 0#12
def ujImm (w : Word) : Word :=
  BitVec.replicate 12 (w.extractLsb' 31 1) ++ w.extractLsb' 12 8 ++ w.extractLsb' 20 1 ++
    w.extractLsb' 21 10 ++ 0#1

/-- The immediate mux. -/
def aluImm (sel : ImmT) (w : Word) : Word :=
  match sel with
  | .immU => uImm w
  | .immUj => ujImm w
  | .immSb => sbImm w
  | .immS => sImm w
  | .immI => iImm w

/-! ## ALU and the muxes around it -/

/-- `alu_result_o`. -/
def aluResult (op : AluOpT) (a b : Word) : Word :=
  match op with
  | .add => a + b
  | .sub => a - b
  | .xor => a ^^^ b
  | .or => a ||| b
  | .and => a &&& b
  | .srl => a >>> b
  | .sra => a.sshiftRight' b
  | .sll => a <<< b
  | _ => 0#32

/-- `alu_branch_o`. -/
def aluBranch (op : AluOpT) (a b : Word) : Bool :=
  let isEqual := a == b
  let isGreater := b.slt a
  match op with
  | .eq => isEqual
  | .ne => !isEqual
  | .lts => !isGreater && !isEqual
  | .ges => isGreater || isEqual
  | _ => false

/-- The second ALU input. -/
def aluData2 (aluSrc : Bool) (imm r2 : Word) : Word := if aluSrc then imm else r2

/-- `PC_alu`: the target of a transfer. -/
def pcAlu (aluPcRegSrc : Bool) (r1 pc imm : Word) : Word :=
  (if aluPcRegSrc then r1 else pc) + imm

/-- `PC_src`: a taken branch or a jump. -/
def pcSrc (branchO isBranch isJump : Bool) : Bool := (branchO && isBranch) || isJump

/-- An instruction that is neither a branch nor a jump does not transfer. -/
@[simp] theorem pcSrc_off (branchO : Bool) : pcSrc branchO false false = false := by
  rw [pcSrc, Bool.and_false, Bool.or_false]

/-- The write-back mux; the jump's link address comes first (`priority casez`). -/
def regWriteData (memToReg isJump : Bool) (pcIncr result rdata : Word) : Word :=
  if isJump then pcIncr else if memToReg then rdata else result

/-- The PC mux, in front of any stall. -/
def pcMux (halt src : Bool) (pc target incr : Word) : Word :=
  if halt then pc else if src then target else incr

/-! ## Register file -/

/-- One clock edge of the register file: `X_p[0]` is cleared, the addressed register
is written when the write enable is high. -/
def regFileN (x : RegIdx → Word) (write : Bool) (wr : RegIdx) (data : Word) : RegIdx → Word :=
  fun i => if i = 0#5 then 0#32 else if wr = i ∧ write = true then data else x i

@[simp] theorem regFileN_zero (x : RegIdx → Word) (we : Bool) (wr : RegIdx) (d : Word) :
    regFileN x we wr d 0#5 = 0#32 := by
  simp [regFileN]

/-- Without a write enable the register file keeps a valid content. -/
theorem regFileN_off {x : RegIdx → Word} (h0 : x 0#5 = 0#32) (wr : RegIdx) (d : Word) :
    regFileN x false wr d = x := by
  funext i
  unfold regFileN
  split
  · next hi => rw [hi, h0]
  · simp

/-- A write to `x0` changes nothing either. -/
theorem regFileN_x0 {x : RegIdx → Word} (h0 : x 0#5 = 0#32) (we : Bool) (d : Word) :
    regFileN x we 0#5 d = x := by
  funext i
  unfold regFileN
  split
  · next hi => rw [hi, h0]
  · next hi => simp [Ne.symm hi]

/-- A forward mux in front of a valid register file offers what the register file holds
after the clock edge. -/
theorem forward_eq_regFileN {x : RegIdx → Word} (h0 : x 0#5 = 0#32) (we : Bool) (wr : RegIdx)
    (d : Word) (r : RegIdx) :
    (if decide (wr ≠ 0#5 ∧ we = true ∧ wr = r) then d else x r) = regFileN x we wr d r := by
  unfold regFileN
  by_cases hr : r = 0#5
  · -- x0 is never forwarded: the first condition asks for a destination other than x0
    subst hr
    have hno : ¬ (wr ≠ 0#5 ∧ we = true ∧ wr = 0#5) := fun h => h.1 h.2.2
    simp [hno, h0]
  · by_cases hw : wr = r ∧ we = true
    · obtain ⟨rfl, rfl⟩ := hw
      simp [hr]
    · have hno : ¬ (wr ≠ 0#5 ∧ we = true ∧ wr = r) := fun h => hw ⟨h.2.2, h.2.1⟩
      simp [hr, hw, hno]

/-- Two writes of a register agree iff the data does or the register is `x0`. -/
theorem regFileN_eq_iff (x : RegIdx → Word) (r : RegIdx) (u v : Word) :
    regFileN x true r u = regFileN x true r v ↔ r = 0#5 ∨ u = v := by
  constructor
  · intro h
    by_cases hr : r = 0#5
    · exact .inl hr
    · have hread := congrFun h r
      simp only [regFileN, if_neg hr, and_self, if_true] at hread
      exact .inr hread
  · rintro (hr | rfl)
    · subst hr
      funext i
      unfold regFileN
      split
      · rfl
      · next hi => rw [if_neg fun he => hi he.1.symm, if_neg fun he => hi he.1.symm]
    · rfl

end MicroRiscv
