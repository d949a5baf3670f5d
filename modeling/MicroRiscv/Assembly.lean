import MicroRiscv.Encoding
import MicroRiscv.Machine

/-!
# Assembly programs

The instructions of the assembly sources, with symbolic branch targets. `assemble` resolves
the labels and encodes the instructions by the format tables; `Asm.exec` says what an
instruction does, without looking at its word.

Results:
1. `step_of_matches`: on a word that matches an instruction the machine executes it.
2. `step_of_loaded`: so does it at every instruction of a program in its memory.
-/

namespace MicroRiscv

/-! ## Sources -/

variable {L : Type}

/-- An instruction, in the operand order of the source. -/
inductive Asm (L : Type)
  | lui (d : RegIdx) (imm : Int)
  | addi (d a : RegIdx) (imm : Int)
  | add (d a b : RegIdx)
  | lw (d : RegIdx) (imm : Int) (a : RegIdx)
  | sw (b : RegIdx) (imm : Int) (a : RegIdx)
  | beq (a b : RegIdx) (l : L)
  | bge (a b : RegIdx) (l : L)
  | jal (d : RegIdx) (l : L)
  | jalr (d : RegIdx) (imm : Int) (a : RegIdx)
  | ebreak
deriving DecidableEq, Repr

/-- A line of a source: a label or an instruction. -/
inductive Line (L : Type)
  | label (l : L)
  | instr (i : Asm L)
deriving DecidableEq, Repr

/-- The instructions in order. -/
def instructions : List (Line L) → List (Asm L)
  | [] => []
  | .label _ :: lines => instructions lines
  | .instr i :: lines => i :: instructions lines

/-- The number of instructions before a label. -/
def indexOf [DecidableEq L] (l : L) : List (Line L) → Nat
  | [] => 0
  | .label l' :: lines => if l' = l then 0 else indexOf l lines
  | .instr _ :: lines => indexOf l lines + 1

/-- The address of a label, in a program from address 0 on. -/
def addressOf [DecidableEq L] (lines : List (Line L)) (l : L) : Word :=
  BitVec.ofNat 32 (4 * indexOf l lines)

/-- The word of an instruction at `pc`; `addr` are the addresses of the labels. -/
def Asm.word (addr : L → Word) (pc : Word) : Asm L → Word
  | .lui d imm => Format.u.encode (BitVec.ofInt 32 (imm * 4096)) { rd := d, opcode := opcLui }
  | .addi d a imm =>
    Format.i.encode (BitVec.ofInt 32 imm) { rd := d, rs1 := a, funct3 := f3Add, opcode := opcImm }
  | .add d a b => 0b0000000#7 ++ b ++ a ++ f3Add ++ d ++ opcAlsu
  | .lw d imm a =>
    Format.i.encode (BitVec.ofInt 32 imm) { rd := d, rs1 := a, funct3 := f3Lw, opcode := opcLoad }
  | .sw b imm a =>
    Format.s.encode (BitVec.ofInt 32 imm)
      { rs1 := a, rs2 := b, funct3 := 0b010#3, opcode := opcStore }
  | .beq a b l =>
    Format.b.encode (addr l - pc) { rs1 := a, rs2 := b, funct3 := f3Beq, opcode := opcBranch }
  | .bge a b l =>
    Format.b.encode (addr l - pc) { rs1 := a, rs2 := b, funct3 := f3Bge, opcode := opcBranch }
  | .jal d l => Format.j.encode (addr l - pc) { rd := d, opcode := opcJal }
  | .jalr d imm a =>
    Format.i.encode (BitVec.ofInt 32 imm)
      { rd := d, rs1 := a, funct3 := 0b000#3, opcode := opcJalr }
  | .ebreak => ebreakWord

/-- The words of a program from address 0 on. -/
def assemble [DecidableEq L] (lines : List (Line L)) : List Word :=
  (instructions lines).mapIdx fun k i => i.word (addressOf lines) (BitVec.ofNat 32 (4 * k))

/-! ## 1. Instructions and their words -/

/-- The word `w` at `pc` is an encoding of the instruction: RV32I reads its operands from it. -/
def Asm.Matches (addr : L → Word) (pc w : Word) : Asm L → Prop
  | .lui d imm =>
    mnemonicOf w = some .lui ∧ rd w = d ∧ w.extractLsb' 12 20 ++ 0#12 = BitVec.ofInt 32 (imm * 4096)
  | .addi d a imm => mnemonicOf w = some .addi ∧ rd w = d ∧ rs1Field w = a ∧
      immediateI w = BitVec.ofInt 32 imm
  | .add d a b => mnemonicOf w = some .add ∧ rd w = d ∧ rs1Field w = a ∧ rs2Field w = b
  | .lw d imm a => mnemonicOf w = some .lw ∧ rd w = d ∧ rs1Field w = a ∧
      immediateI w = BitVec.ofInt 32 imm
  | .sw b imm a => mnemonicOf w = some .sw ∧ rs2Field w = b ∧ rs1Field w = a ∧
      immediateS w = BitVec.ofInt 32 imm
  | .beq a b l => mnemonicOf w = some .beq ∧ rs1Field w = a ∧ rs2Field w = b ∧
      pc + immediateB w = addr l
  | .bge a b l => mnemonicOf w = some .bge ∧ rs1Field w = a ∧ rs2Field w = b ∧
      pc + immediateB w = addr l
  | .jal d l => mnemonicOf w = some .jal ∧ rd w = d ∧ pc + immediateJ w = addr l
  | .jalr d imm a => mnemonicOf w = some .jalr ∧ rd w = d ∧ rs1Field w = a ∧
      immediateI w = BitVec.ofInt 32 imm
  | .ebreak => mnemonicOf w = some .ebreak

instance (addr : L → Word) (pc w : Word) (i : Asm L) : Decidable (i.Matches addr pc w) := by
  cases i <;> first
    | exact inferInstanceAs (Decidable (_ ∧ _))
    | exact inferInstanceAs (Decidable (_ = _))

/-- What an instruction does. -/
def Asm.exec (addr : L → Word) (s : Machine) : Asm L → Machine
  | .lui d imm => { s with regs := s.regs.set d (BitVec.ofInt 32 (imm * 4096)), pc := s.pc + 4#32 }
  | .addi d a imm =>
    { s with regs := s.regs.set d (s.regs.x a + BitVec.ofInt 32 imm), pc := s.pc + 4#32 }
  | .add d a b => { s with regs := s.regs.set d (s.regs.x a + s.regs.x b), pc := s.pc + 4#32 }
  | .lw d imm a =>
    let (v, t) := s.load (s.regs.x a + BitVec.ofInt 32 imm)
    { t with regs := s.regs.set d v, pc := s.pc + 4#32 }
  | .sw b imm a =>
    { s.store (s.regs.x a + BitVec.ofInt 32 imm) (s.regs.x b) with pc := s.pc + 4#32 }
  | .beq a b l => { s with pc := if s.regs.x a = s.regs.x b then addr l else s.pc + 4#32 }
  | .bge a b l =>
    { s with pc := if (s.regs.x b).toInt ≤ (s.regs.x a).toInt then addr l else s.pc + 4#32 }
  | .jal d l => { s with regs := s.regs.set d (s.pc + 4#32), pc := addr l }
  | .jalr d imm a =>
    { s with
      regs := s.regs.set d (s.pc + 4#32)
      pc := (s.regs.x a + BitVec.ofInt 32 imm) &&& ~~~1#32 }
  | .ebreak => s

/-- The address of the store that an instruction makes. -/
def Asm.storeAddr (s : Machine) : Asm L → Option Word
  | .sw _ imm a => some (s.regs.x a + BitVec.ofInt 32 imm)
  | _ => none

section Matches

variable {addr : L → Word} {s : Machine} {i : Asm L}

theorem step_of_matches (h : i.Matches addr s.pc s.fetch) : s.step = i.exec addr s := by
  unfold Machine.step
  cases i with
  | ebreak =>
    have hm : mnemonicOf s.fetch = some .ebreak := h
    simp only [hm, Asm.exec]
  | lui d imm =>
    obtain ⟨hm, hd, himm⟩ := h
    simp only [hm, rv32i, hd, himm, Asm.exec]
  | addi d a imm | lw d imm a | jalr d imm a =>
    obtain ⟨hm, hd, ha, himm⟩ := h
    simp only [hm, rv32i, hd, ha, himm, Asm.exec]
  | add d a b =>
    obtain ⟨hm, hd, ha, hb⟩ := h
    simp only [hm, rv32i, hd, ha, hb, Asm.exec]
  | sw b imm a =>
    obtain ⟨hm, hb, ha, himm⟩ := h
    simp only [hm, hb, ha, himm, Asm.exec]
  | beq a b l | bge a b l =>
    obtain ⟨hm, ha, hb, hl⟩ := h
    simp only [hm, rv32i, ha, hb, hl, Asm.exec, decide_eq_true_eq]
  | jal d l =>
    obtain ⟨hm, hd, hl⟩ := h
    simp only [hm, rv32i, hd, hl, Asm.exec]

theorem storeAddr_of_matches (h : i.Matches addr s.pc s.fetch) : s.storeAddr = i.storeAddr s := by
  unfold Machine.storeAddr
  cases i with
  | ebreak =>
    have hm : mnemonicOf s.fetch = some .ebreak := h
    rw [hm]
    rfl
  | sw b imm a =>
    obtain ⟨hm, hb, ha, himm⟩ := h
    rw [if_pos hm, ha, himm]
    rfl
  | lui | addi | add | lw | beq | bge | jal | jalr =>
    have hm := h.1
    rw [hm]
    rfl

end Matches

/-! ## 2. Programs in memory -/

section Loaded

variable [DecidableEq L] {lines : List (Line L)}

/-- Every instruction of the program matches its word. -/
def Assembles (lines : List (Line L)) : Prop :=
  ∀ k, (hk : k < (instructions lines).length) →
    let pc := BitVec.ofNat 32 (4 * k)
    ((instructions lines)[k]).Matches (addressOf lines) pc
      (((instructions lines)[k]).word (addressOf lines) pc)

instance (lines : List (Line L)) : Decidable (Assembles lines) :=
  inferInstanceAs (Decidable (∀ k, (hk : k < (instructions lines).length) → _))

/-- The memory holds the program from address 0 on. -/
def Loaded (lines : List (Line L)) (mem : Word → Byte) : Prop :=
  ∀ k w, (assemble lines)[k]? = some w → readWord mem (BitVec.ofNat 32 (4 * k)) = w

variable {s : Machine} {k : Nat} {i : Asm L}

theorem matches_of_loaded (hasm : Assembles lines) (hload : Loaded lines s.mem)
    (hk : (instructions lines)[k]? = some i) (hpc : s.pc = BitVec.ofNat 32 (4 * k)) :
    i.Matches (addressOf lines) s.pc s.fetch := by
  obtain ⟨hlt, hi⟩ := List.getElem?_eq_some_iff.mp hk
  have hword : s.fetch = i.word (addressOf lines) (BitVec.ofNat 32 (4 * k)) := by
    rw [Machine.fetch, hpc]
    apply hload k
    rw [assemble, List.getElem?_mapIdx, hk]
    rfl
  rw [hword, hpc, ← hi]
  exact hasm k hlt

/-- At an instruction of the program the machine executes it. -/
theorem step_of_loaded (hasm : Assembles lines) (hload : Loaded lines s.mem)
    (hk : (instructions lines)[k]? = some i) (hpc : s.pc = BitVec.ofNat 32 (4 * k)) :
    s.step = i.exec (addressOf lines) s ∧ s.storeAddr = i.storeAddr s :=
  ⟨step_of_matches (matches_of_loaded hasm hload hk hpc),
    storeAddr_of_matches (matches_of_loaded hasm hload hk hpc)⟩

end Loaded

end MicroRiscv
