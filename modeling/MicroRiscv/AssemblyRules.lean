import MicroRiscv.Assembly

/-!
# Rules for runs of assembly programs

A `Program` is a source that fits its words. `P.Runs lo hi A Q s` says that the machine,
with the program in its memory, comes from `s` to a state with `Q`; on the way it stays on
the lines `lo..hi` and stores only to addresses of the region `A`, all of them behind the
program. There is one rule for each kind of instruction.

Results:
1. `Program.loaded_step`: stores behind the program leave it as it is.
2. `Runs.line` and, from it, the rules for the instructions.
-/

namespace MicroRiscv

variable {L : Type} [DecidableEq L]

/-- A program whose instructions match their words and lie in the address space. -/
structure Program (L : Type) [DecidableEq L] where
  lines : List (Line L)
  assembles : Assembles lines
  small : 4 * (instructions lines).length < 2 ^ 32

/-- The address of line `k`. -/
def pcOf (k : Nat) : Word := BitVec.ofNat 32 (4 * k)

theorem pcOf_succ (k : Nat) : pcOf k + 4#32 = pcOf (k + 1) := by
  unfold pcOf
  apply BitVec.eq_of_toNat_eq
  simp only [BitVec.toNat_add, BitVec.toNat_ofNat]
  omega

theorem port_addr (r : RegState) : r.x 0#5 + BitVec.ofInt 32 0x7fc = stdoutStart := by
  rw [r.x0]
  rfl

namespace Program

variable (P : Program L)

/-- Instruction `k`. -/
def instrAt (k : Nat) : Option (Asm L) := (instructions P.lines)[k]?

/-- Instruction `k`, if it is one of the lines `lo..hi`. -/
def lineAt (lo hi k : Nat) : Option (Asm L) := if lo ≤ k ∧ k ≤ hi then P.instrAt k else none

def HeldBy (mem : Word → Byte) : Prop := Loaded P.lines mem

/-- Aligned addresses behind the program. -/
def Behind (a : Word) : Prop := a.toNat % 4 = 0 ∧ 4 * (instructions P.lines).length ≤ a.toNat

/-- The addresses that a piece of code may store to. -/
structure Region where
  has : Word → Prop
  behind : ∀ a, has a → P.Behind a

/-- The machine is at one of the lines `lo..hi` and stores, if at all, into the region. -/
structure Within (lo hi : Nat) (A : P.Region) (s : Machine) : Prop where
  line : ∃ k, lo ≤ k ∧ k ≤ hi ∧ s.pc = pcOf k
  stores : ∀ a, s.storeAddr = some a → A.has a

def Runs (lo hi : Nat) (A : P.Region) (Q : Machine → Prop) (s : Machine) : Prop :=
  Until Machine.step (P.Within lo hi A) Q s

/-! ## 1. The program in the memory -/

variable {P}

theorem index_lt {k : Nat} {w : Word} (hw : (assemble P.lines)[k]? = some w) :
    k < (instructions P.lines).length := by
  have hlt := (List.getElem?_eq_some_iff.mp hw).1
  rwa [assemble, List.length_mapIdx] at hlt

theorem loaded_step {s : Machine} (hst : ∀ a, s.storeAddr = some a → P.Behind a)
    (hload : P.HeldBy s.mem) : P.HeldBy s.step.mem := by
  intro k w hw
  have hk := index_lt hw
  have hsmall := P.small
  have hpc : (BitVec.ofNat 32 (4 * k)).toNat = 4 * k := by
    rw [BitVec.toNat_ofNat]
    omega
  have hother : ∀ a, s.storeAddr = some a → a.toNat % 4 = 0 ∧ a ≠ BitVec.ofNat 32 (4 * k) := by
    intro a ha
    obtain ⟨haligned, habove⟩ := hst a ha
    refine ⟨haligned, ?_⟩
    rintro rfl
    omega
  rw [Machine.readWord_step (by omega) hother]
  exact hload k w hw

/-- The memory image of the program. -/
theorem heldBy_image : P.HeldBy (image (assemble P.lines)) := by
  intro k w hw
  have hk := index_lt hw
  have hsmall := P.small
  rw [readWord_eq_load]
  apply ByteMemory.load_eq
  intro i hi
  have haddr : (BitVec.ofNat 32 (4 * k) + BitVec.ofNat 32 i).toNat = 4 * k + i := by
    rw [← BitVec.ofNat_add, BitVec.toNat_ofNat]
    omega
  have hindex : (4 * k + i) / 4 = k := by omega
  have hlane : (4 * k + i) % 4 = i := by omega
  rw [image, haddr, hindex, hlane, List.getD_eq_getElem?_getD, hw]
  rfl

/-! ## 2. Rules -/

namespace Runs

variable {lo hi k : Nat} {A : P.Region} {Q : Machine → Prop} {s : Machine} {i : Asm L}

theorem done (h : Q s) : P.Runs lo hi A Q s := Until.done h

theorem mono {Q' : Machine → Prop} (h : P.Runs lo hi A Q s) (hQ : ∀ t, Q t → Q' t) :
    P.Runs lo hi A Q' s :=
  Until.mono h (fun _ ht => ht) hQ

/-- The next line of a run. -/
theorem line (hload : P.HeldBy s.mem) (hk : P.lineAt lo hi k = some i) (hpc : s.pc = pcOf k)
    (hst : ∀ a, i.storeAddr s = some a → A.has a)
    (h : P.HeldBy (i.exec (addressOf P.lines) s).mem →
      P.Runs lo hi A Q (i.exec (addressOf P.lines) s)) : P.Runs lo hi A Q s := by
  have hin : lo ≤ k ∧ k ≤ hi := by
    by_contra hout
    rw [lineAt, if_neg hout] at hk
    cases hk
  rw [lineAt, if_pos hin] at hk
  obtain ⟨hstep, haddr⟩ := step_of_loaded P.assembles hload hk hpc
  have hstores : ∀ a, s.storeAddr = some a → A.has a := by
    rw [haddr]
    exact hst
  have hkept := loaded_step (fun a ha => A.behind a (hstores a ha)) hload
  rw [hstep] at hkept
  refine Until.next ⟨⟨k, hin.1, hin.2, hpc⟩, hstores⟩ ?_
  rw [hstep]
  exact h hkept

/-- The next line, when it stores nothing. -/
theorem quiet {t : Machine} (hload : P.HeldBy s.mem) (hk : P.lineAt lo hi k = some i)
    (hpc : s.pc = pcOf k) (hst : i.storeAddr s = none)
    (hexec : i.exec (addressOf P.lines) s = t) (h : P.Runs lo hi A Q t) :
    P.Runs lo hi A Q s := by
  refine line hload hk hpc (fun a ha => ?_) fun _ => ?_
  · rw [hst] at ha
    cases ha
  · rw [hexec]
    exact h

variable {r r' : RegState} {mem : Word → Byte} {stdin stdin' noise noise' : Nat → Word}
  {stdout : List Word} {d a b : RegIdx} {imm : Int} {l : L} {x : Word}

/-- The next line, when it stores nothing and does not branch. -/
theorem next (hload : P.HeldBy s.mem) (hk : P.lineAt lo hi k = some i) (hpc : s.pc = pcOf k)
    (hst : i.storeAddr s = none)
    (hexec : i.exec (addressOf P.lines) s = ⟨r', pcOf k + 4#32, mem, stdin', noise', stdout⟩)
    (h : P.Runs lo hi A Q ⟨r', pcOf (k + 1), mem, stdin', noise', stdout⟩) :
    P.Runs lo hi A Q s := by
  rw [← pcOf_succ] at h
  exact quiet hload hk hpc hst hexec h

theorem addi (hload : P.HeldBy mem) (hk : P.lineAt lo hi k = some (.addi d a imm))
    (h : P.Runs lo hi A Q
      ⟨r.set d (r.x a + BitVec.ofInt 32 imm), pcOf (k + 1), mem, stdin, noise, stdout⟩) :
    P.Runs lo hi A Q ⟨r, pcOf k, mem, stdin, noise, stdout⟩ :=
  next hload hk rfl rfl rfl h

theorem lui (hload : P.HeldBy mem) (hk : P.lineAt lo hi k = some (.lui d imm))
    (h : P.Runs lo hi A Q
      ⟨r.set d (BitVec.ofInt 32 (imm * 4096)), pcOf (k + 1), mem, stdin, noise, stdout⟩) :
    P.Runs lo hi A Q ⟨r, pcOf k, mem, stdin, noise, stdout⟩ :=
  next hload hk rfl rfl rfl h

theorem add (hload : P.HeldBy mem) (hk : P.lineAt lo hi k = some (.add d a b))
    (h : P.Runs lo hi A Q
      ⟨r.set d (r.x a + r.x b), pcOf (k + 1), mem, stdin, noise, stdout⟩) :
    P.Runs lo hi A Q ⟨r, pcOf k, mem, stdin, noise, stdout⟩ :=
  next hload hk rfl rfl rfl h

/-- A load from the memory. -/
theorem lw_mem (hload : P.HeldBy mem) (hk : P.lineAt lo hi k = some (.lw d imm a))
    (hx : r.x a + BitVec.ofInt 32 imm = x) (hlt : x < memSize)
    (h : P.Runs lo hi A Q
      ⟨r.set d (readWord mem x), pcOf (k + 1), mem, stdin, noise, stdout⟩) :
    P.Runs lo hi A Q ⟨r, pcOf k, mem, stdin, noise, stdout⟩ := by
  refine next hload hk rfl rfl ?_ h
  rw [Asm.exec, hx, Machine.load, if_pos (memSel_iff.mpr hlt)]

/-- A load from the address of `stdin`. -/
theorem lw_stdin (hload : P.HeldBy mem) (hk : P.lineAt lo hi k = some (.lw d imm a))
    (hx : r.x a + BitVec.ofInt 32 imm = stdinStart)
    (h : P.Runs lo hi A Q
      ⟨r.set d (stdin 0), pcOf (k + 1), mem, fun n => stdin (n + 1), noise, stdout⟩) :
    P.Runs lo hi A Q ⟨r, pcOf k, mem, stdin, noise, stdout⟩ := by
  refine next hload hk rfl rfl ?_ h
  rw [Asm.exec, hx]
  rfl

/-- A load from any address. -/
theorem lw (hload : P.HeldBy mem) (hk : P.lineAt lo hi k = some (.lw d imm a))
    (h : ∀ v stdin' noise', (r.x a + BitVec.ofInt 32 imm < memSize →
        v = readWord mem (r.x a + BitVec.ofInt 32 imm)) →
      P.Runs lo hi A Q ⟨r.set d v, pcOf (k + 1), mem, stdin', noise', stdout⟩) :
    P.Runs lo hi A Q ⟨r, pcOf k, mem, stdin, noise, stdout⟩ := by
  obtain ⟨v, stdin', noise', heq, hv⟩ := Machine.exists_load ⟨r, pcOf k, mem, stdin, noise, stdout⟩
    (r.x a + BitVec.ofInt 32 imm)
  refine next hload hk rfl rfl ?_ (h v stdin' noise' hv)
  rw [Asm.exec, heq]

/-- A store to the memory. -/
theorem sw_mem (hload : P.HeldBy mem) (hk : P.lineAt lo hi k = some (.sw b imm a))
    (hx : r.x a + BitVec.ofInt 32 imm = x) (hlt : x < memSize)
    (hA : A.has x)
    (h : P.HeldBy (writeWord mem x (r.x b)) → P.Runs lo hi A Q
      ⟨r, pcOf (k + 1), writeWord mem x (r.x b), stdin, noise, stdout⟩) :
    P.Runs lo hi A Q ⟨r, pcOf k, mem, stdin, noise, stdout⟩ := by
  refine line hload hk rfl ?_ fun hkept => ?_
  · rintro y ⟨⟩
    exact hx ▸ hA
  · rw [← pcOf_succ] at h
    rw [Asm.exec, hx, Machine.store, if_pos (memSel_iff.mpr hlt)] at hkept ⊢
    exact h hkept

/-- A store to the address of `stdout`. -/
theorem sw_stdout (hload : P.HeldBy mem) (hk : P.lineAt lo hi k = some (.sw b imm a))
    (hx : r.x a + BitVec.ofInt 32 imm = stdoutStart)
    (hA : A.has stdoutStart)
    (h : P.Runs lo hi A Q ⟨r, pcOf (k + 1), mem, stdin, noise, stdout ++ [r.x b]⟩) :
    P.Runs lo hi A Q ⟨r, pcOf k, mem, stdin, noise, stdout⟩ := by
  refine line hload hk rfl ?_ fun _ => ?_
  · rintro y ⟨⟩
    exact hx ▸ hA
  · rw [← pcOf_succ] at h
    rw [Asm.exec, hx]
    exact h

theorem beq_taken (hload : P.HeldBy mem) (hk : P.lineAt lo hi k = some (.beq a b l))
    (hc : r.x a = r.x b)
    (h : P.Runs lo hi A Q ⟨r, pcOf (indexOf l P.lines), mem, stdin, noise, stdout⟩) :
    P.Runs lo hi A Q ⟨r, pcOf k, mem, stdin, noise, stdout⟩ := by
  refine quiet hload hk rfl rfl ?_ h
  rw [Asm.exec, if_pos hc]
  rfl

theorem beq_next (hload : P.HeldBy mem) (hk : P.lineAt lo hi k = some (.beq a b l))
    (hc : r.x a ≠ r.x b)
    (h : P.Runs lo hi A Q ⟨r, pcOf (k + 1), mem, stdin, noise, stdout⟩) :
    P.Runs lo hi A Q ⟨r, pcOf k, mem, stdin, noise, stdout⟩ := by
  refine next hload hk rfl rfl ?_ h
  rw [Asm.exec, if_neg hc]

theorem bge_taken (hload : P.HeldBy mem) (hk : P.lineAt lo hi k = some (.bge a b l))
    (hc : (r.x b).toInt ≤ (r.x a).toInt)
    (h : P.Runs lo hi A Q ⟨r, pcOf (indexOf l P.lines), mem, stdin, noise, stdout⟩) :
    P.Runs lo hi A Q ⟨r, pcOf k, mem, stdin, noise, stdout⟩ := by
  refine quiet hload hk rfl rfl ?_ h
  rw [Asm.exec, if_pos hc]
  rfl

theorem bge_next (hload : P.HeldBy mem) (hk : P.lineAt lo hi k = some (.bge a b l))
    (hc : (r.x a).toInt < (r.x b).toInt)
    (h : P.Runs lo hi A Q ⟨r, pcOf (k + 1), mem, stdin, noise, stdout⟩) :
    P.Runs lo hi A Q ⟨r, pcOf k, mem, stdin, noise, stdout⟩ := by
  refine next hload hk rfl rfl ?_ h
  rw [Asm.exec, if_neg (Int.not_le.mpr hc)]

theorem jal (hload : P.HeldBy mem) (hk : P.lineAt lo hi k = some (.jal d l))
    (h : P.Runs lo hi A Q
      ⟨r.set d (pcOf (k + 1)), pcOf (indexOf l P.lines), mem, stdin, noise, stdout⟩) :
    P.Runs lo hi A Q ⟨r, pcOf k, mem, stdin, noise, stdout⟩ := by
  rw [← pcOf_succ] at h
  exact quiet hload hk rfl rfl rfl h

/-- A jump that keeps no return address. -/
theorem j (hload : P.HeldBy mem) (hk : P.lineAt lo hi k = some (.jal 0#5 l))
    (h : P.Runs lo hi A Q ⟨r, pcOf (indexOf l P.lines), mem, stdin, noise, stdout⟩) :
    P.Runs lo hi A Q ⟨r, pcOf k, mem, stdin, noise, stdout⟩ := by
  apply jal hload hk
  rw [RegState.set_zero]
  exact h

/-- A return. -/
theorem jalr (hload : P.HeldBy mem) (hk : P.lineAt lo hi k = some (.jalr 0#5 0 a))
    (hx : r.x a &&& ~~~1#32 = r.x a)
    (h : P.Runs lo hi A Q ⟨r, r.x a, mem, stdin, noise, stdout⟩) :
    P.Runs lo hi A Q ⟨r, pcOf k, mem, stdin, noise, stdout⟩ := by
  have hzero : r.x a + BitVec.ofInt 32 0 = r.x a := BitVec.add_zero _
  refine quiet hload hk rfl rfl ?_ h
  rw [Asm.exec, hzero, hx, RegState.set_zero]

end Runs

end Program

end MicroRiscv
