import MicroRiscv.MachineRuns
import MicroRiscv.QsortAsmFrame

/-!
# The assembly sort program on the cores

`qsort.asm` from its first instruction to its EBREAK, for any words on `stdin`. In front of every
step the machine is in a state on which the datapath agrees with RV32I (`Steady`): the program is
in the memory, the next instruction is one of its lines, a store goes to the frame or to
`stdout`, and the return address is even. So the program ends on every core, and prints what it
prints on the RV32I machine. The instruction in front of the EBREAK is the return from `main`,
which transfers: all four cores raise `cpu_finish_o`.

Results:
1. `link_step`, `quiet_step`: what one line keeps.
2. `body_prints`, `program_spec`: the output of the program. Its `qsort` is a bare return, so
   it prints the values in the order in which they were read.
3. `runs_on_cores`.
-/

namespace MicroRiscv

namespace QsortAsm

open Rv32iLemmas

/-! ## 1. One line -/

/-- The next step is one of the program, and the datapath makes it as RV32I does. -/
structure Steady (s : Machine) : Prop where
  line : ∃ k, k < 55 ∧ k ≠ 15 ∧ s.pc = pcOf k
  stores : ∀ a, s.storeAddr = some a → a = stdoutStart ∨ InFrame a
  held : program.HeldBy s.mem
  link : (s.regs.x ra).getLsbD 0 = false

/-- The line writes no return address but that of a call. -/
def KeepsLink : Asm Label → Prop
  | .lui d _ | .addi d _ _ | .add d _ _ | .lw d _ _ | .jalr d _ _ => d ≠ ra
  | _ => True

instance (i : Asm Label) : Decidable (KeepsLink i) := by
  cases i <;> first
    | exact inferInstanceAs (Decidable (_ ≠ _))
    | exact inferInstanceAs (Decidable True)

/-- Only the epilogue of `main` loads `ra`. -/
theorem keepsLink_lines : ∀ k : Fin 55, k ≠ 52 → ∀ i ∈ program.instrAt k, KeepsLink i := by
  decide

theorem pcOf_bit0 {k : Nat} (hk : k < 56) : (pcOf k).getLsbD 0 = false := by
  have hall : ∀ j : Fin 56, (pcOf j).getLsbD 0 = false := by decide
  exact hall ⟨k, hk⟩

theorem exists_line {k : Nat} (hk : k < 55) : ∃ i, program.instrAt k = some i :=
  ⟨_, List.getElem?_eq_getElem hk⟩

theorem store_regs (s : Machine) (a v : Word) : (s.store a v).regs = s.regs := by
  unfold Machine.store
  split
  · rfl
  · split <;> rfl

theorem set_other (r : RegState) {d i : RegIdx} (h : d ≠ i) (v : Word) :
    (r.set d v).x i = r.x i := by
  rw [RegState.set_x, if_neg]
  rintro ⟨-, rfl⟩
  exact h rfl

/-- The return address stays even. -/
theorem link_step {t : Machine} {k : Nat} (hheld : program.HeldBy t.mem) (hk : k < 55)
    (hne : k ≠ 52) (hpc : t.pc = pcOf k) (h : (t.regs.x ra).getLsbD 0 = false) :
    (t.step.regs.x ra).getLsbD 0 = false := by
  obtain ⟨i, hi⟩ := exists_line hk
  have hkeeps : KeepsLink i :=
    keepsLink_lines ⟨k, hk⟩ (fun heq => hne (congrArg Fin.val heq)) i (Option.mem_def.mpr hi)
  rw [(step_of_loaded program.assembles hheld hi hpc).1]
  cases i with
  | lui d | addi d | add d | jalr d =>
    show ((t.regs.set d _).x ra).getLsbD 0 = false
    rwa [set_other _ hkeeps]
  | lw d imm a =>
    show ((t.regs.set d _).x ra).getLsbD 0 = false
    rwa [set_other _ hkeeps]
  | sw b imm a =>
    show ((t.store _ _).regs.x ra).getLsbD 0 = false
    rwa [store_regs]
  | beq | bge | ebreak => exact h
  | jal d l =>
    show ((t.regs.set d (t.pc + 4#32)).x ra).getLsbD 0 = false
    rw [RegState.set_x, hpc, pcOf_succ]
    split
    · exact pcOf_bit0 (Nat.succ_lt_succ hk)
    · exact h

def isLoad : Asm Label → Bool
  | .lw .. => true
  | _ => false

/-- No line in `lo..hi` loads. -/
abbrev LoadFree (lo hi : Nat) : Prop :=
  ∀ k : Fin 55, lo ≤ k → k ≤ hi → ∀ i ∈ program.instrAt k, isLoad i = false

/-- Lines that neither load nor store to `stdout` touch no stream. -/
theorem quiet_step {t : Machine} {lo hi : Nat} {A : program.Region} (hfree : LoadFree lo hi)
    (hA : ∀ a, A.has a → a < memSize) (hend : hi < 55) (hheld : program.HeldBy t.mem)
    (h : program.Within lo hi A t) : t.step.stdin = t.stdin ∧ t.step.stdout = t.stdout := by
  obtain ⟨k, hlo, hhi, hpc⟩ := h.line
  have hk := Nat.lt_of_le_of_lt hhi hend
  obtain ⟨i, hi⟩ := exists_line hk
  obtain ⟨hstep, haddr⟩ := step_of_loaded program.assembles hheld hi hpc
  rw [hstep]
  have hload := hfree ⟨k, hk⟩ hlo hhi i (Option.mem_def.mpr hi)
  cases i with
  | lw d imm a => cases hload
  | sw b imm a =>
    have hsel := memSel_iff.mpr (hA _ (h.stores _ haddr))
    simp only [Asm.exec, Machine.store]
    rw [if_pos hsel]
    exact ⟨rfl, rfl⟩
  | _ => exact ⟨rfl, rfl⟩

/-- A JALR is a return. -/
def ReturnsOnly : Asm Label → Prop
  | .jalr _ imm a => imm = 0 ∧ a = ra
  | _ => True

instance (i : Asm Label) : Decidable (ReturnsOnly i) := by
  cases i <;> first
    | exact inferInstanceAs (Decidable (_ ∧ _))
    | exact inferInstanceAs (Decidable True)

theorem returnsOnly_lines : ∀ k : Fin 55, ∀ i ∈ program.instrAt k, ReturnsOnly i := by decide

section Steady

variable {t : Machine}

theorem Steady.matches (h : Steady t) :
    ∃ k i, k < 55 ∧ k ≠ 15 ∧ t.pc = pcOf k ∧ program.instrAt k = some i ∧
      i.Matches (addressOf source) t.pc t.fetch := by
  obtain ⟨k, hk, hne, hpc⟩ := h.line
  obtain ⟨i, hi⟩ := exists_line hk
  exact ⟨k, i, hk, hne, hpc, hi, matches_of_loaded program.assembles h.held hi hpc⟩

theorem pcOf_lt_memSize {k : Nat} (hk : k < 56) : pcOf k < memSize := by
  have hall : ∀ j : Fin 56, pcOf j < memSize := by decide
  exact hall ⟨k, hk⟩

/-- The datapath makes the step as RV32I does: there are no shifts, and a return address has the
parity of the immediate 0. -/
theorem Steady.conforms (h : Steady t) : t.Conforms := by
  obtain ⟨k, i, hk, -, hpc, hi, hmatch⟩ := h.matches
  refine ⟨hpc ▸ pcOf_lt_memSize (Nat.lt_succ_of_lt hk), ?_⟩
  cases i with
  | jalr d imm a =>
    obtain ⟨hm, -, ha, himm⟩ := hmatch
    obtain ⟨rfl, rfl⟩ := returnsOnly_lines ⟨k, hk⟩ _ (Option.mem_def.mpr hi)
    refine ⟨.jalr, hm, ?_⟩
    show (t.regs.x (rs1Field t.fetch)).getLsbD 0 = t.fetch.getLsbD 20
    rw [ha, h.link, ← immediateI_bit0, himm]
    rfl
  | ebreak => exact ⟨_, hmatch, trivial⟩
  | _ => exact ⟨_, hmatch.1, trivial⟩

theorem ebreak_line : ∀ k : Fin 55, program.instrAt k = some .ebreak → k = 15 := by decide

theorem Steady.running (h : Steady t) : mnemonicOf t.fetch ≠ some .ebreak := by
  obtain ⟨k, i, hk, hne, -, hi, hmatch⟩ := h.matches
  cases i with
  | ebreak => exact absurd (congrArg Fin.val (ebreak_line ⟨k, hk⟩ hi)) hne
  | lui | addi | add | lw | sw | beq | bge | jal | jalr =>
    rw [hmatch.1]
    decide

end Steady

/-! ## 2. The output -/

/-- Neither the streams nor the program have been touched since `s`. -/
structure Untouched (s t : Machine) : Prop where
  held : program.HeldBy t.mem
  stdin : t.stdin = s.stdin
  stdout : t.stdout = s.stdout

/-- The array holds the values that were read. -/
def HoldsValues (s : Machine) (mem : Word → Byte) : Prop :=
  ∀ i, i < inputCount (s.stdin 0) → readWord mem (arrayA + BitVec.ofNat 32 (4 * i)) = s.stdin (i + 1)

/-- At line `k` of the body, behind `input`: nothing is printed yet. -/
structure Filled (s m : Machine) (k : Nat) (t : Machine) : Prop extends InBody m k t where
  values : HoldsValues s t.mem
  stdout : t.stdout = s.stdout

/-- As many words as the size says when it is read without a sign, first the values. -/
def Printed (s t : Machine) : Prop :=
  ∃ words, t.stdout = s.stdout ++ words ∧ words.length = (s.stdin 0).toNat ∧
    ∀ i, i < inputCount (s.stdin 0) → words[i]? = some (s.stdin (i + 1))

theorem toNat_of_inputCount {size : Word} {i : Nat} (h : i < inputCount size) : i < size.toNat := by
  have hlt := size.isLt
  unfold inputCount at h
  rw [BitVec.toInt_eq_toNat_cond] at h
  split at h <;> omega

section Body

variable {s m t : Machine} {lo hi : Nat} {A : program.Region} {Q : Machine → Prop}

theorem untouched_runs (hfree : LoadFree lo hi) (hA : ∀ a, A.has a → a < memSize) (hend : hi < 55)
    (h : program.Runs lo hi A Q t) (hun : Untouched s t) :
    program.Runs lo hi A (fun u => Q u ∧ Untouched s u) t := by
  refine Until.mono (Until.invariant h hun fun u hu hun => ?_) (fun _ hu => hu.1) fun _ hu => hu
  obtain ⟨hin, hout⟩ := quiet_step hfree hA hend hun.held hu
  exact ⟨Program.loaded_step (fun a ha => A.behind a (hu.stores a ha)) hun.held,
    hin.trans hun.stdin, hout.trans hun.stdout⟩

theorem input_fills (h : InBody m 17 t) (hun : Untouched s t) (harg : t.regs.x a0 = arrayA)
    (hra : t.regs.x ra = pcOf 42) :
    program.Runs 17 28 arrayAt_arrayA.region
      (fun u => Filled s m 42 u ∧ u.regs.x a0 = s.stdin 0) t := by
  have hret : t.regs.x ra &&& ~~~1#32 = t.regs.x ra := by
    rw [hra]
    decide
  refine (input_spec arrayAt_arrayA h.held h.pc harg hret).mono fun u hu => ?_
  have hbody := inBody_after h hu.keeps (by decide) (by decide) (by decide) (hu.pc.trans hra) hu.held
  refine ⟨⟨hbody, fun i hi => ?_, hu.stdout.trans hun.stdout⟩, ?_⟩
  · rw [hu.mem, hun.stdin]
    exact readWord_storeWords arrayAt_arrayA _ _ (Nat.min_le_left _ _) hi
  · rw [hu.size, hun.stdin]

/-- The size behind the array elements. -/
theorem holdsValues_size {mem : Word → Byte} (h : HoldsValues s mem) (v : Word) :
    HoldsValues s (writeWord mem sizeSlot v) := by
  intro i hi
  have hten : i < 10 := Nat.lt_of_lt_of_le hi (Nat.min_le_left _ _)
  have hnat := arrayAt_arrayA.toNat_element hten
  have hbase : arrayA.toNat = 1976 := rfl
  rw [readWord_writeWord _ (by decide) (by decide) (by omega), if_neg, h i hi]
  intro heq
  have hslot : sizeSlot.toNat = 1972 := rfl
  rw [heq, hnat] at hslot
  omega

theorem callQsort_fills (h : Filled s m 42 t) (hsize : t.regs.x a0 = s.stdin 0) :
    program.Runs 42 46 sizeArea (fun u => Filled s m 16 u ∧ u.regs.x ra = pcOf 47 ∧
      readWord u.mem sizeSlot = s.stdin 0) t := by
  obtain ⟨r, pc, mem, stdin, noise, stdout⟩ := t
  obtain rfl : pc = pcOf 42 := h.pc
  have hslot : r.x s0 + BitVec.ofInt 32 (-56) = sizeSlot := by
    rw [show r.x s0 = 0x7ec#32 from h.s0]
    rfl
  have hkeeps := Keeps.refl [a0, a1, a2, ra] r
  refine .sw_mem h.held rfl hslot (by decide) rfl fun hheld => ?_
  refine .addi hheld rfl ?_
  refine .addi hheld rfl ?_
  refine .addi hheld rfl ?_
  refine .jal hheld rfl ?_
  refine .done ⟨⟨inBody_after h.toInBody ((((hkeeps.set (by decide) _).set (by decide) _).set
    (by decide) _).set (by decide) _) (by decide) (by decide) (by decide) rfl hheld,
    holdsValues_size h.values _, h.stdout⟩, ?_, ?_⟩
  · simp +decide
  · rw [readWord_writeWord _ (by decide) (by decide) (by decide), if_pos rfl]
    exact hsize

theorem qsort_keeps (h : Filled s m 16 t) (hra : t.regs.x ra = pcOf 47) :
    program.Runs 16 16 nowhere (fun u => Filled s m 47 u ∧ u.mem = t.mem) t := by
  obtain ⟨r, pc, mem, stdin, noise, stdout⟩ := t
  obtain rfl : pc = pcOf 16 := h.pc
  have hlink : r.x ra = pcOf 47 := hra
  have hret : r.x ra &&& ~~~1#32 = r.x ra := by
    rw [hlink]
    decide
  refine .jalr h.held rfl hret ?_
  exact .done ⟨⟨⟨hlink, h.sp, h.s0, h.keeps, h.held⟩, h.values, h.stdout⟩, rfl⟩

theorem callOutput_passes (h : Filled s m 47 t) (hsize : readWord t.mem sizeSlot = s.stdin 0) :
    program.Runs 47 49 nowhere (fun u => Filled s m 29 u ∧ u.regs.x ra = pcOf 50 ∧
      u.regs.x a0 = s.stdin 0 ∧ u.regs.x a1 = arrayA) t := by
  obtain ⟨r, pc, mem, stdin, noise, stdout⟩ := t
  obtain rfl : pc = pcOf 47 := h.pc
  have hs0 : r.x s0 = 0x7ec#32 := h.s0
  have hslot : r.x s0 + BitVec.ofInt 32 (-56) = sizeSlot := by
    rw [hs0]
    rfl
  have hload : readWord mem sizeSlot = s.stdin 0 := hsize
  have hkeeps := Keeps.refl [a0, a1, ra] r
  refine .lw_mem h.held rfl hslot (by decide) ?_
  refine .addi h.held rfl ?_
  refine .jal h.held rfl ?_
  refine .done ⟨⟨inBody_after h.toInBody (((hkeeps.set (by decide) _).set (by decide) _).set
    (by decide) _) (by decide) (by decide) (by decide) rfl h.held, h.values, h.stdout⟩, ?_, ?_, ?_⟩
  · simp +decide
  · simp +decide [hload]
  · simp +decide [hs0, arrayA]

theorem output_prints (h : Filled s m 29 t) (hra : t.regs.x ra = pcOf 50)
    (hsize : t.regs.x a0 = s.stdin 0) (hbase : t.regs.x a1 = arrayA) :
    program.Runs 29 35 port (fun u => InBody m 50 u ∧ Printed s u) t := by
  have hret : t.regs.x ra &&& ~~~1#32 = t.regs.x ra := by
    rw [hra]
    decide
  refine (output_spec h.held h.pc hret).mono fun u hu => ⟨?_, ?_⟩
  · have hheld : program.HeldBy u.mem := by
      rw [hu.mem]
      exact h.held
    exact inBody_after h.toInBody hu.keeps (by decide) (by decide) (by decide) (hu.pc.trans hra) hheld
  · obtain ⟨words, happend, hlen, hwords⟩ := hu.stdout
    rw [hsize] at hlen hwords
    rw [hbase] at hwords
    refine ⟨words, happend.trans (by rw [h.stdout]), hlen, fun i hi => ?_⟩
    have hten : i < 10 := Nat.lt_of_lt_of_le hi (Nat.min_le_left _ _)
    rw [hwords i (toNat_of_inputCount hi) (arrayAt_arrayA.lt_memSize hten), h.values i hi]

/-- The body of `main`: the values are printed. -/
theorem body_prints (h : InBody m 40 t) (hun : Untouched s t) :
    Until Machine.step Body (fun u => InBody m 51 u ∧ Printed s u) t := by
  have hnowhere := bodyArea_nowhere
  have hcall := untouched_runs (A := nowhere) (by decide) (fun _ ha => ha.elim) (by decide)
    (callInput_spec h) hun
  refine (body_of_runs_outside (by decide) hnowhere (by decide) hcall).bind ?_
  rintro t ⟨⟨h, harg, hra⟩, hun⟩
  have hinput := input_fills h hun harg hra
  refine (body_of_runs (by decide) bodyArea_array (.inr (.inr fun _ => inArray_of_has))
    hinput).bind ?_
  rintro t ⟨h, hsize⟩
  refine (body_of_runs_outside (by decide) bodyArea_sizeArea (by decide)
    (callQsort_fills h hsize)).bind ?_
  rintro t ⟨h, hra, hsize⟩
  refine (body_of_runs_outside (by decide) hnowhere (by decide) (qsort_keeps h hra)).bind ?_
  rintro u ⟨h, hmem⟩
  rw [← hmem] at hsize
  refine (body_of_runs_outside (by decide) hnowhere (by decide) (callOutput_passes h hsize)).bind ?_
  rintro t ⟨h, hra, hsize, hbase⟩
  have houtput := output_prints h hra hsize hbase
  refine (body_of_runs_outside (by decide) bodyArea_port (by decide) houtput).bind ?_
  rintro t ⟨h, hprinted⟩
  have hresult := untouched_runs (s := t) (A := nowhere) (by decide) (fun _ ha => ha.elim)
    (by decide) (result_spec h) ⟨h.held, rfl, rfl⟩
  refine Until.mono (body_of_runs_outside (by decide) hnowhere (by decide) hresult)
    (fun _ hu => hu) fun u hu => ⟨hu.1, ?_⟩
  unfold Printed
  rw [hu.2.stdout]
  exact hprinted

end Body

/-! ## 3. The whole run -/

/-- At the return from `main`. -/
structure AtReturn (s t : Machine) : Prop where
  pc : t.pc = pcOf 54
  link : t.regs.x ra = pcOf 15
  held : program.HeldBy t.mem
  printed : Printed s t

section Run

variable {s c m t : Machine} {k : Nat} {i : Asm Label}

theorem steady_of_line (hheld : program.HeldBy t.mem) (hi : program.instrAt k = some i)
    (hk : k < 55) (hne : k ≠ 15) (hpc : t.pc = pcOf k) (hst : i.storeAddr t = none)
    (hlink : (t.regs.x ra).getLsbD 0 = false) : Steady t where
  line := ⟨k, hk, hne, hpc⟩
  stores := by
    intro a ha
    rw [(step_of_loaded program.assembles hheld hi hpc).2, hst] at ha
    cases ha
  held := hheld
  link := hlink

/-- The steps of a piece that does not load `ra`. -/
theorem steady_until {P Q : Machine → Prop} (h : Until Machine.step P Q t)
    (hheld : program.HeldBy t.mem) (hlink : (t.regs.x ra).getLsbD 0 = false)
    (hline : ∀ u, P u → ∃ k, k < 55 ∧ k ≠ 15 ∧ k ≠ 52 ∧ u.pc = pcOf k)
    (hbehind : ∀ u, P u → ∀ a, u.storeAddr = some a → program.Behind a)
    (hstores : ∀ u, P u → ∀ a, u.storeAddr = some a → a = stdoutStart ∨ InFrame a) :
    Until Machine.step Steady
      (fun u => Q u ∧ program.HeldBy u.mem ∧ (u.regs.x ra).getLsbD 0 = false) t := by
  refine Until.mono (h.invariant ⟨hheld, hlink⟩ fun u hu hJ => ?_) ?_ fun _ hu => hu
  · obtain ⟨k, hk, -, hne, hpc⟩ := hline u hu
    exact ⟨Program.loaded_step (hbehind u hu) hJ.1, link_step hJ.1 hk hne hpc hJ.2⟩
  · rintro u ⟨hu, hheld, hlink⟩
    obtain ⟨k, hk, hne, -, hpc⟩ := hline u hu
    exact ⟨⟨k, hk, hne, hpc⟩, hstores u hu, hheld, hlink⟩

theorem step_at {r : RegState} {mem : Word → Byte} {stdin noise : Nat → Word} {stdout : List Word}
    (hheld : program.HeldBy mem) (hi : program.instrAt k = some i) :
    Machine.step ⟨r, pcOf k, mem, stdin, noise, stdout⟩ =
      i.exec (addressOf source) ⟨r, pcOf k, mem, stdin, noise, stdout⟩ :=
  (step_of_loaded (s := ⟨r, pcOf k, mem, stdin, noise, stdout⟩) program.assembles hheld hi rfl).1

/-- The epilogue loads the return address that the prologue has saved. -/
theorem epilogue_returns (hm : Entered c m) (h : InBody m 51 t) (hsaved : Saved m t)
    (hlink : (t.regs.x ra).getLsbD 0 = false) (hprinted : Printed s t) :
    Until Machine.step Steady (AtReturn s) t := by
  have hline51 : program.instrAt 51 = some (.lw s0 56 sp) := rfl
  have hline52 : program.instrAt 52 = some (.lw ra 60 sp) := rfl
  have hline53 : program.instrAt 53 = some (.addi sp sp 64) := rfl
  obtain ⟨r, pc, mem, stdin, noise, stdout⟩ := t
  obtain rfl : pc = pcOf 51 := h.pc
  have hsavedRa : readWord mem savedRa = m.regs.x ra := hsaved.1
  have hheld : program.HeldBy mem := h.held
  have hsp : r.x sp = 0x7ac#32 := h.sp
  have h1 : Machine.step ⟨r, pcOf 51, mem, stdin, noise, stdout⟩ =
      ⟨r.set s0 (readWord mem savedS0), pcOf 52, mem, stdin, noise, stdout⟩ := by
    rw [step_at hheld hline51]
    have haddr : r.x sp + BitVec.ofInt 32 56 = savedS0 := by
      rw [hsp]
      rfl
    simp only [Asm.exec]
    rw [haddr]
    rfl
  have h2 : Machine.step ⟨r.set s0 (readWord mem savedS0), pcOf 52, mem, stdin, noise, stdout⟩ =
      ⟨(r.set s0 (readWord mem savedS0)).set ra (pcOf 15), pcOf 53, mem, stdin, noise, stdout⟩ := by
    rw [step_at hheld hline52]
    have haddr : (r.set s0 (readWord mem savedS0)).x sp + BitVec.ofInt 32 60 = savedRa := by
      simp +decide [hsp]
    simp only [Asm.exec]
    rw [haddr, ← hm.link, ← hsavedRa]
    rfl
  refine .next (steady_of_line hheld hline51 (by decide) (by decide) rfl rfl hlink) ?_
  rw [h1]
  refine .next (steady_of_line hheld hline52 (by decide) (by decide) rfl rfl ?_) ?_
  · show ((r.set s0 _).x ra).getLsbD 0 = false
    rwa [set_other _ (by decide)]
  rw [h2]
  refine .next (steady_of_line hheld hline53 (by decide) (by decide) rfl rfl ?_) ?_
  · simp +decide [pcOf]
  rw [step_at hheld hline53]
  refine .done ⟨rfl, ?_, hheld, hprinted⟩
  simp +decide [Asm.exec]

/-- A piece in front of `main` or its prologue, where nothing is loaded. -/
theorem quiet_piece {lo hi : Nat} {A : program.Region} {Q : Machine → Prop} (hfree : LoadFree lo hi)
    (hlines : hi < 15 ∨ 15 < lo ∧ hi < 52) (hA : ∀ a, A.has a → a < memSize ∧ InFrame a)
    (hun : Untouched s t) (hlink : (t.regs.x ra).getLsbD 0 = false) (h : program.Runs lo hi A Q t) :
    Until Machine.step Steady
      (fun u => (Q u ∧ Untouched s u) ∧ program.HeldBy u.mem ∧ (u.regs.x ra).getLsbD 0 = false) t := by
  have hend : hi < 55 := by omega
  have hquiet := untouched_runs hfree (fun a ha => (hA a ha).1) hend h hun
  refine steady_until hquiet hun.held hlink ?_ ?_ ?_
  · rintro u ⟨⟨k, hlo, hhi, hpc⟩, -⟩
    exact ⟨k, by omega, by omega, by omega, hpc⟩
  · exact fun u hu a ha => A.behind a (hu.stores a ha)
  · exact fun u hu a ha => .inr (hA a (hu.stores a ha)).2

/-- The stores of the body are behind the program. -/
theorem behind_of_body {u : Machine} (h : Body u) {a : Word} (ha : u.storeAddr = some a) :
    program.Behind a := by
  refine ⟨(h.2 a ha).1, ?_⟩
  have hsmall : 4 * (instructions program.lines).length = 220 := rfl
  rw [hsmall]
  rcases h.1.stores a ha with rfl | ⟨hlow, -⟩
  · decide
  · omega

/-- The program up to the return from `main`. -/
theorem program_spec (hheld : program.HeldBy s.mem) (hpc : s.pc = pcOf 0)
    (hlink : (s.regs.x ra).getLsbD 0 = false) : Until Machine.step Steady (AtReturn s) s := by
  have hnowhere : ∀ a, nowhere.has a → a < memSize ∧ InFrame a := fun _ ha => ha.elim
  have hsave : ∀ a, saveArea.has a → a < memSize ∧ InFrame a := by
    unfold InFrame
    rintro a (rfl | rfl)
    · decide
    · decide
  refine (quiet_piece (by decide) (by decide) hnowhere ⟨hheld, rfl, rfl⟩ hlink
    (start_spec hheld hpc)).bind ?_
  rintro c ⟨⟨hc, hun⟩, -, hlink⟩
  refine (quiet_piece (by decide) (by decide) hnowhere hun hlink (call_spec hc)).bind ?_
  rintro m ⟨⟨hm, hun⟩, -, hlink⟩
  refine (quiet_piece (by decide) (by decide) hsave hun hlink (prologue_spec hm)).bind ?_
  rintro t ⟨⟨⟨ht, hsaved⟩, hun⟩, hheld, hlink⟩
  have hbody := (body_prints ht hun).invariant hsaved fun u hu => saved_step hu
  refine (steady_until hbody hheld hlink ?_ ?_ ?_).bind ?_
  · rintro u ⟨⟨⟨⟨k, hlo, hhi, hpc⟩, -, -⟩, -⟩, -⟩
    exact ⟨k, by omega, by omega, by omega, hpc⟩
  · exact fun u hu a ha => behind_of_body hu.1 ha
  · exact fun u hu a ha => hu.1.1.stores a ha
  · rintro u ⟨⟨⟨hu, hprinted⟩, hsaved⟩, -, hlink⟩
    exact epilogue_returns hm hu hsaved hlink hprinted

end Run

/-! ## 4. On the cores -/

section Cores

variable {s t : Machine}

theorem AtReturn.steady (h : AtReturn s t) : Steady t := by
  refine steady_of_line (i := .jalr zero 0 ra) h.held (rfl : program.instrAt 54 = _) (by decide)
    (by decide) h.pc rfl ?_
  rw [h.link]
  decide

/-- The return goes to the EBREAK and changes nothing else. -/
theorem AtReturn.step (h : AtReturn s t) :
    t.step.pc = pcOf 15 ∧ t.step.mem = t.mem ∧ t.step.stdout = t.stdout := by
  have hline : program.instrAt 54 = some (.jalr zero 0 ra) := rfl
  rw [(step_of_loaded program.assembles h.held hline h.pc).1]
  refine ⟨?_, rfl, rfl⟩
  show (t.regs.x ra + BitVec.ofInt 32 0) &&& ~~~1#32 = pcOf 15
  rw [h.link]
  decide

/-- The words of the program are below every word that it stores to. -/
theorem apart_of_inFrame {k : Nat} (hk : k < 56) {a x : Word} (ha : InFrame a) (hx : inWord a x) :
    ¬ inWord (pcOf k) x := by
  have hpc : (pcOf k).toNat ≤ 220 := by
    rw [pcOf, BitVec.toNat_ofNat]
    omega
  obtain ⟨hlow, hhigh⟩ := ha
  unfold inWord at hx ⊢
  bv_omega

/-- The program ends, and the step in front of its EBREAK is the return from `main`. -/
theorem exists_endsAfter (hheld : program.HeldBy s.mem) (hpc : s.pc = pcOf 0)
    (hlink : (s.regs.x ra).getLsbD 0 = false) :
    ∃ K, s.EndsAfter (K + 1) ∧ AtReturn s (s.after K) := by
  obtain ⟨K, hreturn, hbefore⟩ := (program_spec hheld hpc hlink).exists_iterate
  replace hreturn : AtReturn s (s.after K) := hreturn
  have hsteady : ∀ k, k < K + 1 → Steady (s.after k) := by
    intro k hk
    rcases Nat.lt_or_eq_of_le (Nat.le_of_lt_succ hk) with hlt | rfl
    · exact hbefore k hlt
    · exact hreturn.steady
  obtain ⟨hlast, hmem, -⟩ := hreturn.step
  rw [← Machine.after_succ] at hlast hmem
  have hpcs : ∀ k, k ≤ K + 1 → ∃ j, j < 56 ∧ (s.after k).pc = pcOf j := by
    intro k hk
    rcases Nat.lt_or_eq_of_le hk with hlt | rfl
    · obtain ⟨j, hj, -, hj'⟩ := (hsteady k hlt).line
      exact ⟨j, Nat.lt_succ_of_lt hj, hj'⟩
    · exact ⟨15, by decide, hlast⟩
  refine ⟨K, ⟨fun k hk => (hsteady k hk).conforms, fun k hk => (hsteady k hk).running, ?_, ?_, ?_⟩,
    hreturn⟩
  · intro j k a x hj hk haddr hlt hin _
    obtain ⟨l, hl, hpcl⟩ := hpcs k hk
    rw [hpcl]
    rcases (hsteady j hj).stores a haddr with rfl | hframe
    · exact absurd hlt (by decide)
    · exact apart_of_inFrame hl hframe hin
  · rw [hlast]
    decide
  · have hheldLast : program.HeldBy (s.after (K + 1)).mem := by
      rw [hmem]
      exact hreturn.held
    have hline : program.instrAt 15 = some .ebreak := rfl
    have hmatch := matches_of_loaded program.assembles hheldLast hline hlast
    exact (mnemonicOf_eq_some hmatch).1

/-- What the core shows at the end: `cpu_finish_o` goes high for the first time, and `stdout`
has been extended by `words`. -/
structure Prints (c : CoreRun) (env : Env) (plat : Platform) (d K : Nat) (words : List Word) : Prop
    extends c.FinishesAt env plat d K True where
  stdout : (c.arch (Sequential.cycleOf env plat d K)).plat.stdout = plat.stdout ++ words

end Cores

end QsortAsm

/-- A jump in front of the EBREAK. -/
theorem Sequential.aheadNamesX0_of_jump {env : Env} {plat : Platform} {k : Nat}
    (h : mnemonicOf (Sequential.instruction env plat k) = some .jalr) :
    Sequential.AheadNamesX0 env plat (k + 1) := by
  intro j hj
  obtain rfl := Nat.succ.inj hj
  left
  show pcSrc _ _ (Sequential.signals env (Sequential.run env plat k)).ctrl.aluIsJump = true
  rw [Sequential.ctrl_eq h]
  exact Bool.or_true _

namespace QsortAsm

/-- `qsort.asm` in the memory of any of the four cores, any registers of the devices and any
words on `stdin`: the core comes to its EBREAK, raises `cpu_finish_o` there for the first time,
and has by then printed as many words as the first word says without a sign; the values that were
read, ten at most, come first and in the order of `stdin`. -/
theorem runs_on_cores (env : Env) {plat : Platform} (hheld : program.HeldBy plat.mem)
    {two : TwoStage} {three : ThreeStage} {four : Pipeline}
    (h2 : two.plat = plat) (h3 : three.plat = plat) (h4 : four.plat = plat) :
    let stdin (n : Nat) : Word := env.stdinBuffer (plat.stdinPointer + BitVec.ofNat 8 n)
    ∃ K words, words.length = (stdin 0).toNat ∧
      (∀ i, i < inputCount (stdin 0) → words[i]? = some (stdin (i + 1))) ∧
      Prints (SingleCycle.coreRun env plat) env plat 0 K words ∧
      Prints (two.coreRun env) env plat 1 K words ∧
      Prints (three.coreRun env) env plat 2 K words ∧
      Prints (four.coreRun env) env plat 3 K words := by
  intro stdin
  obtain ⟨K, hends, hreturn⟩ := exists_endsAfter (s := Sequential.machine env plat) hheld rfl
    (rfl : (0#32 : Word).getLsbD 0 = false)
  obtain ⟨words, happend, hlen, hwords⟩ := hreturn.printed
  obtain ⟨-, -, hstdout⟩ := hreturn.step
  rw [← Machine.after_succ] at hstdout
  have hout : ((Sequential.machine env plat).after (K + 1)).stdout = plat.stdout ++ words :=
    hstdout.trans happend
  have hahead : Sequential.AheadNamesX0 env plat (K + 1) := by
    apply Sequential.aheadNamesX0_of_jump
    rw [Sequential.instruction_eq_fetch hends (Nat.le_succ K)]
    have hline : program.instrAt 54 = some (.jalr zero 0 ra) := rfl
    exact (matches_of_loaded program.assembles hreturn.held hline hreturn.pc).1
  refine ⟨K + 1, words, hlen, hwords, ?_, ?_, ?_, ?_⟩
  · obtain ⟨hfin, -, -, hcore⟩ := SingleCycle.runsProgram hends
    exact ⟨hfin, hcore.trans hout⟩
  · rw [← h2] at hends hout ⊢
    obtain ⟨hfin, -, -, hcore⟩ := TwoStage.runsProgram hends
    exact ⟨hfin, hcore.trans hout⟩
  · rw [← h3] at hends hout hahead ⊢
    obtain ⟨⟨hlow, hhigh⟩, -, -, hcore⟩ := ThreeStage.runsProgram hends
    exact ⟨⟨hlow, hhigh.trans (iff_of_true hahead trivial)⟩, hcore.trans hout⟩
  · rw [← h4] at hends hout hahead ⊢
    obtain ⟨⟨hlow, hhigh⟩, -, -, hcore⟩ := Pipeline.runsProgram hends
    exact ⟨⟨hlow, hhigh.trans (iff_of_true hahead trivial)⟩, hcore.trans hout⟩

/-- The words 3, 9, 4, 6 on `stdin`. -/
def threeValues : Env where
  stdinBuffer := fun i => [3#32, 9#32, 4#32, 6#32].getD i.toNat 0#32
  unmappedInstr := fun _ => 0#32
  unmappedData := fun _ => 0#32

/-- The 4-stage core prints 9, 4, 6. -/
theorem runs_on_cores_three :
    let four : Pipeline := Pipeline.ofProgram (assemble source)
    ∃ K, Prints (four.coreRun threeValues) threeValues four.plat 3 K [9#32, 4#32, 6#32] := by
  intro four
  have hheld : program.HeldBy four.plat.mem := Program.heldBy_image
  obtain ⟨K, words, hlen, hwords, -, -, -, hprints⟩ := runs_on_cores threeValues hheld
    (rfl : (TwoStage.ofPlatform four.plat).plat = _)
    (rfl : (ThreeStage.ofPlatform four.plat).plat = _) (rfl : four.plat = _)
  have heq : words = [9#32, 4#32, 6#32] := by
    apply List.ext_getElem?
    intro i
    rcases Nat.lt_or_ge i 3 with hi | hi
    · rw [hwords i hi]
      match i, hi with
      | 0, _ => rfl
      | 1, _ => rfl
      | 2, _ => rfl
    · rw [List.getElem?_eq_none (hlen.trans_le hi), List.getElem?_eq_none hi]
  exact ⟨K, heq ▸ hprints⟩

end QsortAsm

end MicroRiscv
