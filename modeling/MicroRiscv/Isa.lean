import MicroRiscv.Datapath

/-!
# The instruction set: encodings and RV32I semantics

The specification side. `Mnemonic` lists the instructions the repository's cores are
meant to execute, `IsEncoding` says which words encode them in RV32I (and, for DIVU,
in the M extension), `rv32i` gives the RV32I result of the computational and
control-transfer instructions. Nothing here is read off the SystemVerilog; the
decoder and the datapath are compared with it in `Decoder` and `Rv32i`.
-/

namespace MicroRiscv

inductive Mnemonic
  | lui | jal | jalr | beq | bne | blt | bge | lw | sw | addi
  | add | sub | xor | or | and | sll | srl | sra | divu | ebreak
deriving DecidableEq, Repr

/-- The EBREAK word: funct12 = 1, every other field but the opcode zero. -/
def ebreakWord : Word := 0x00100073#32

/-- The words that encode an instruction. -/
def Mnemonic.IsEncoding : Mnemonic → Word → Prop
  | .lui, w => opcode w = opcLui
  | .jal, w => opcode w = opcJal
  | .jalr, w => opcode w = opcJalr ∧ funct3 w = 0b000#3
  | .beq, w => opcode w = opcBranch ∧ funct3 w = f3Beq
  | .bne, w => opcode w = opcBranch ∧ funct3 w = f3Bne
  | .blt, w => opcode w = opcBranch ∧ funct3 w = f3Blt
  | .bge, w => opcode w = opcBranch ∧ funct3 w = f3Bge
  | .lw, w => opcode w = opcLoad ∧ funct3 w = f3Lw
  | .sw, w => opcode w = opcStore ∧ funct3 w = 0b010#3
  | .addi, w => opcode w = opcImm ∧ funct3 w = f3Add
  | .add, w => opcode w = opcAlsu ∧ funct7 w = 0b0000000#7 ∧ funct3 w = f3Add
  | .sub, w => opcode w = opcAlsu ∧ funct7 w = 0b0100000#7 ∧ funct3 w = f3Add
  | .xor, w => opcode w = opcAlsu ∧ funct7 w = 0b0000000#7 ∧ funct3 w = f3Xor
  | .or, w => opcode w = opcAlsu ∧ funct7 w = 0b0000000#7 ∧ funct3 w = f3Or
  | .and, w => opcode w = opcAlsu ∧ funct7 w = 0b0000000#7 ∧ funct3 w = f3And
  | .sll, w => opcode w = opcAlsu ∧ funct7 w = 0b0000000#7 ∧ funct3 w = f3Sll
  | .srl, w => opcode w = opcAlsu ∧ funct7 w = 0b0000000#7 ∧ funct3 w = f3Srl
  | .sra, w => opcode w = opcAlsu ∧ funct7 w = 0b0100000#7 ∧ funct3 w = f3Srl
  | .divu, w => opcode w = opcAlsu ∧ funct7 w = 0b0000001#7 ∧ funct3 w = 0b101#3
  | .ebreak, w => w = ebreakWord

/-! ## Register states -/

/-- A register state: `x0` reads as zero. -/
structure RegState where
  x : RegIdx → Word
  x0 : x 0#5 = 0#32

/-- Writing a register; a write to `x0` is dropped. -/
def RegState.set (r : RegState) (i : RegIdx) (v : Word) : RegState where
  x := fun j => if i ≠ 0#5 ∧ j = i then v else r.x j
  x0 := by
    split
    · next h => exact absurd h.2.symm h.1
    · exact r.x0

@[simp] theorem RegState.set_x (r : RegState) (i j : RegIdx) (v : Word) :
    (r.set i v).x j = if i ≠ 0#5 ∧ j = i then v else r.x j := rfl

@[simp] theorem RegState.set_zero (r : RegState) (v : Word) : r.set 0#5 v = r := by
  cases r
  simp only [RegState.set]
  congr

/-! ## Immediates -/

/-- The I-immediate: bits 31:20, sign-extended. -/
def immediateI (w : Word) : Word := (w.extractLsb' 20 12).signExtend 32

/-- The S-immediate: bits 31:25 and 11:7, sign-extended. -/
def immediateS (w : Word) : Word := (w.extractLsb' 25 7 ++ w.extractLsb' 7 5 : BitVec 12).signExtend 32

/-- The B-immediate: a multiple of two, sign-extended from bit 31. -/
def immediateB (w : Word) : Word :=
  (w.extractLsb' 31 1 ++ w.extractLsb' 7 1 ++ w.extractLsb' 25 6 ++ w.extractLsb' 8 4 ++
    0#1 : BitVec 13).signExtend 32

/-- The J-immediate: a multiple of two, sign-extended from bit 31. -/
def immediateJ (w : Word) : Word :=
  (w.extractLsb' 31 1 ++ w.extractLsb' 12 8 ++ w.extractLsb' 20 1 ++ w.extractLsb' 21 10 ++
    0#1 : BitVec 21).signExtend 32

/-! ## Semantics -/

/-- The registers and the PC after one instruction at `pc`; `none` for the instructions
that access memory, divide or halt. -/
def rv32i (m : Mnemonic) (w : Word) (r : RegState) (pc : Word) : Option (RegState × Word) :=
  let a := r.x (rs1Field w)
  let b := r.x (rs2Field w)
  let shamt := b.toNat % 32
  let compute (v : Word) := some (r.set (rd w) v, pc + 4#32)
  let branch (taken : Bool) := some (r, if taken then pc + immediateB w else pc + 4#32)
  match m with
  | .lui => compute (w.extractLsb' 12 20 ++ 0#12)
  | .addi => compute (a + immediateI w)
  | .add => compute (a + b)
  | .sub => compute (a - b)
  | .xor => compute (a ^^^ b)
  | .or => compute (a ||| b)
  | .and => compute (a &&& b)
  | .sll => compute (a <<< shamt)
  | .srl => compute (a >>> shamt)
  | .sra => compute (a.sshiftRight shamt)
  | .beq => branch (a = b)
  | .bne => branch (a ≠ b)
  | .blt => branch (a.toInt < b.toInt)
  | .bge => branch (b.toInt ≤ a.toInt)
  | .jal => some (r.set (rd w) (pc + 4#32), pc + immediateJ w)
  | .jalr => some (r.set (rd w) (pc + 4#32), (a + immediateI w) &&& ~~~1#32)
  | .lw | .sw | .divu | .ebreak => none

end MicroRiscv
