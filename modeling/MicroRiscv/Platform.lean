import MicroRiscv.Datapath

/-!
# Memory, standard input and standard output

`riscv_core` connects a core to a byte memory, a word stream `stdin` and a word
log `stdout`, and decodes the data address between them. The memory map is that
of `defines.vh`.

What the simulator returns for a location outside a device is not in the source:
reads of an unmapped address and bytes beyond the memory array have arbitrary but
fixed values (`Env`, and the bytes of `mem` at or above `memSize`).
-/

namespace MicroRiscv

abbrev Byte := BitVec 8

/-! ## Memory map -/

def memStart : Word := 0x00000000#32
def memSize : Word := 0x000007ec#32
def parInStart : Word := memStart + memSize
def parInSize : Word := 0x8#32
def parOutStart : Word := parInStart + parInSize
def parOutSize : Word := 0x8#32
def stdoutStart : Word := parOutStart + parOutSize
def stdoutSize : Word := 0x4#32
def stdinStart : Word := parOutStart + parOutSize
def stdinSize : Word := 0x4#32

/-- `addr >= start && addr < start + size`. -/
def inRegion (start size addr : Word) : Bool := decide (start ≤ addr ∧ addr < start + size)

def instrMemSel (addr : Word) : Bool := inRegion memStart memSize addr
def memSel (addr : Word) : Bool := inRegion memStart memSize addr
def stdinSel (addr : Word) : Bool := inRegion stdinStart stdinSize addr
def stdoutSel (addr : Word) : Bool := inRegion stdoutStart stdoutSize addr

/-! ## Devices -/

/-- What stays fixed during a run: the content of `stdin_buffer` and the values that
unmapped fetches and unmapped data reads return. -/
structure Env where
  stdinBuffer : Byte → Word
  unmappedInstr : Word → Word
  unmappedData : Word → Word

/-- The registers of the devices: the memory array, the 8-bit read pointer of
`stdin` and the words written to `stdout`, oldest first. -/
structure Platform where
  mem : Word → Byte
  stdinPointer : Byte
  stdout : List Word

/-- The four bytes of the word at `addr`, lowest address in the low byte. -/
def readWord (mem : Word → Byte) (addr : Word) : Word :=
  mem (addr + 3#32) ++ mem (addr + 2#32) ++ mem (addr + 1#32) ++ mem addr

/-- `mem[i] <= b`; an index outside the array is ignored. -/
def setByte (mem : Word → Byte) (i : Word) (b : Byte) : Word → Byte :=
  fun j => if j = i ∧ i < memSize then b else mem j

/-- The write logic of `memory`. -/
def writeWord (mem : Word → Byte) (addr data : Word) : Word → Byte :=
  setByte (setByte (setByte (setByte mem
    addr (data.extractLsb' 0 8))
    (addr + 1#32) (data.extractLsb' 8 8))
    (addr + 2#32) (data.extractLsb' 16 8))
    (addr + 3#32) (data.extractLsb' 24 8)

/-- `cpu_instr_rdata`. -/
def instrRdata (env : Env) (p : Platform) (addr : Word) : Word :=
  if instrMemSel addr then readWord p.mem addr else env.unmappedInstr addr

/-- `cpu_data_rdata`. -/
def dataRdata (env : Env) (p : Platform) (addr : Word) : Word :=
  if memSel addr then readWord p.mem addr
  else if stdinSel addr then env.stdinBuffer p.stdinPointer
  else env.unmappedData addr

/-- One clock edge of the devices under the data interface of a core. -/
def Platform.tick (p : Platform) (re we : Bool) (addr wdata : Word) : Platform where
  mem := if we && memSel addr then writeWord p.mem addr wdata else p.mem
  stdinPointer := if re && stdinSel addr then p.stdinPointer + 1#8 else p.stdinPointer
  stdout := if we && stdoutSel addr then p.stdout ++ [wdata] else p.stdout

/-! ## Concrete images -/

/-- The memory that holds the words `ws` from address 0 on and zeros behind them. -/
def image (ws : List Word) : Word → Byte :=
  fun a => (ws.getD (a.toNat / 4) 0#32).extractLsb' (8 * (a.toNat % 4)) 8

/-- A platform with the program `ws`, at the start of `stdin`. -/
def Platform.ofProgram (ws : List Word) : Platform := ⟨image ws, 0#8, []⟩

/-- The environment in which every unspecified value is zero. -/
def Env.zero : Env := ⟨fun _ => 0#32, fun _ => 0#32, fun _ => 0#32⟩

/-! ## Frame of one clock edge -/

/-- Without read and write enable the devices keep their state. -/
@[simp] theorem tick_idle (p : Platform) (addr wdata : Word) :
    p.tick false false addr wdata = p := by
  simp [Platform.tick]

theorem setByte_other {mem : Word → Byte} {i j : Word} {b : Byte} (h : ¬ (j = i ∧ j < memSize)) :
    setByte mem i b j = mem j := by
  unfold setByte
  rw [if_neg]
  rintro ⟨rfl, hlt⟩
  exact h ⟨rfl, hlt⟩

/-- The bytes of the word at `addr`. -/
def inWord (addr x : Word) : Prop :=
  x = addr ∨ x = addr + 1#32 ∨ x = addr + 2#32 ∨ x = addr + 3#32

/-- A word write changes only the bytes of the word that lie in the array. -/
theorem writeWord_other {mem : Word → Byte} {addr data x : Word}
    (h : ¬ (inWord addr x ∧ x < memSize)) : writeWord mem addr data x = mem x := by
  have hi : ∀ i, (x = i → inWord addr x) → ¬ (x = i ∧ x < memSize) :=
    fun i hin hx => h ⟨hin hx.1, hx.2⟩
  unfold writeWord
  rw [setByte_other (hi _ fun hx => .inr (.inr (.inr hx))),
    setByte_other (hi _ fun hx => .inr (.inr (.inl hx))),
    setByte_other (hi _ fun hx => .inr (.inl hx)), setByte_other (hi _ fun hx => .inl hx)]

/-- A fetch reads the four bytes of its word and nothing else. -/
theorem readWord_congr {m m' : Word → Byte} {addr : Word}
    (h : ∀ x, inWord addr x → m x = m' x) : readWord m addr = readWord m' addr := by
  unfold readWord
  rw [h _ (.inr (.inr (.inr rfl))), h _ (.inr (.inr (.inl rfl))), h _ (.inr (.inl rfl)),
    h _ (.inl rfl)]

end MicroRiscv
