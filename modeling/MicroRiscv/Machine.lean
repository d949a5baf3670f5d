import MicroRiscv.Isa
import MicroRiscv.MemoryRefinement
import MicroRiscv.Lib.Until

/-!
# An RV32I machine on the memory map of the repository

The machine on which the assembly programs run: the RV32I instructions of `rv32i`, with
LW, SW and EBREAK, and the program in the same byte memory as the data. A load from the
address of `stdin` takes the next word of a stream, a load from any other location outside
the memory returns an arbitrary word, the next one of a second stream. EBREAK and words
that are no instruction stop the machine.
-/

namespace MicroRiscv

instance (m : Mnemonic) (w : Word) : Decidable (m.IsEncoding w) := by
  cases m <;> first
    | exact inferInstanceAs (Decidable (_ ∧ _))
    | exact inferInstanceAs (Decidable (_ = _))

def mnemonics : List Mnemonic :=
  [.lui, .jal, .jalr, .beq, .bne, .blt, .bge, .lw, .sw, .addi, .add, .sub, .xor, .or, .and, .sll,
    .srl, .sra, .ebreak]

/-- The instruction that a word encodes. -/
def mnemonicOf (w : Word) : Option Mnemonic := mnemonics.find? fun m => m.IsEncoding w

structure Machine where
  regs : RegState
  pc : Word
  mem : Word → Byte
  stdin : Nat → Word
  noise : Nat → Word
  stdout : List Word

namespace Machine

/-- The memory image of a program, its input and zeros everywhere else. -/
def boot (program input : List Word) : Machine where
  regs := ⟨fun _ => 0#32, rfl⟩
  pc := 0#32
  mem := image program
  stdin := fun n => input.getD n 0#32
  noise := fun _ => 0#32
  stdout := []

variable (s : Machine)

def fetch : Word := readWord s.mem s.pc

/-- A load: the word and the state after it. -/
def load (addr : Word) : Word × Machine :=
  if memSel addr then (readWord s.mem addr, s)
  else if stdinSel addr then (s.stdin 0, { s with stdin := fun n => s.stdin (n + 1) })
  else (s.noise 0, { s with noise := fun n => s.noise (n + 1) })

def store (addr v : Word) : Machine :=
  if memSel addr then { s with mem := writeWord s.mem addr v }
  else if stdoutSel addr then { s with stdout := s.stdout ++ [v] }
  else s

/-- One instruction. -/
def step : Machine :=
  let w := s.fetch
  match mnemonicOf w with
  | none => s
  | some .ebreak => s
  | some .lw =>
    let (v, t) := s.load (s.regs.x (rs1Field w) + immediateI w)
    { t with regs := s.regs.set (rd w) v, pc := s.pc + 4#32 }
  | some .sw =>
    let t := s.store (s.regs.x (rs1Field w) + immediateS w) (s.regs.x (rs2Field w))
    { t with pc := s.pc + 4#32 }
  | some m =>
    match rv32i m w s.regs s.pc with
    | some (regs, pc) => { s with regs, pc }
    | none => s

/-- The address of the store that the next step makes. -/
def storeAddr : Option Word :=
  if mnemonicOf s.fetch = some .sw then
    some (s.regs.x (rs1Field s.fetch) + immediateS s.fetch)
  else none

/-! ## Stores -/

variable {s}

/-- A load changes at most the two streams, and a load from the memory returns its word. -/
theorem exists_load (s : Machine) (addr : Word) :
    ∃ v stdin noise, s.load addr = (v, { s with stdin, noise }) ∧
      (addr < memSize → v = readWord s.mem addr) := by
  unfold load
  split
  · exact ⟨_, _, _, rfl, fun _ => rfl⟩
  · next hsel =>
    have hout : ¬ addr < memSize := fun hlt => hsel (memSel_iff.mpr hlt)
    split
    · exact ⟨_, _, _, rfl, fun hlt => absurd hlt hout⟩
    · exact ⟨_, _, _, rfl, fun hlt => absurd hlt hout⟩

theorem step_mem_of_none (h : s.storeAddr = none) : s.step.mem = s.mem := by
  have hsw : mnemonicOf s.fetch ≠ some .sw := by
    intro hsw
    rw [storeAddr, if_pos hsw] at h
    cases h
  unfold step
  dsimp only
  split
  · rfl
  · rfl
  · obtain ⟨v, stdin, noise, hload, -⟩ :=
      s.exists_load (s.regs.x (rs1Field s.fetch) + immediateI s.fetch)
    rw [hload]
  · next hm => exact absurd hm hsw
  · split <;> rfl

theorem step_mem_of_some {a : Word} (h : s.storeAddr = some a) :
    s.step.mem = s.mem ∨ a < memSize ∧ ∃ v, s.step.mem = writeWord s.mem a v := by
  unfold storeAddr at h
  split at h
  · next hsw =>
    cases h
    simp only [step, hsw, store]
    split
    · next hsel => exact .inr ⟨memSel_iff.mp hsel, _, rfl⟩
    · split <;> exact .inl rfl
  · cases h

/-- A step that stores elsewhere leaves a word as it is. -/
theorem readWord_step {b : Word} (hb : b.toNat % 4 = 0)
    (h : ∀ a, s.storeAddr = some a → a.toNat % 4 = 0 ∧ a ≠ b) :
    readWord s.step.mem b = readWord s.mem b := by
  cases haddr : s.storeAddr with
  | none => rw [step_mem_of_none haddr]
  | some a =>
    obtain ⟨ha, hab⟩ := h a haddr
    obtain heq | ⟨hlt, v, heq⟩ := step_mem_of_some haddr
    · rw [heq]
    · rw [heq, readWord_writeWord s.mem ha hlt hb, if_neg hab]

end Machine

end MicroRiscv
