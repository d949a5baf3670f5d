import MicroRiscv.AssemblyRules
import MicroRiscv.QsortMain

/-!
# The assembly sort program: `input` and `output`

`source` is `qsort.asm`, with the labels as they stand there; its lines are counted from 0 and
the routines are `input` (lines 17 to 28) and `output` (29 to 35). Both are specified for any
words on `stdin`, any array behind the program and any caller.

Results:
1. `input_round`, `input_exit`, `input_spec`: `input` stores the announced number of words,
   ten at most.
2. `output_round`, `output_exit`, `output_spec`: `output` prints as many words as its first
   argument says without a sign.
-/

namespace MicroRiscv

namespace QsortAsm

/-! ## The program -/

/-- The labels of `qsort.asm`. -/
inductive Label
  | start | qsort | input | beforeInputLoop | afterInputLoop
  | output | beforeOutputLoop | afterOutputLoop | main
deriving DecidableEq, Repr

abbrev zero : RegIdx := 0#5
abbrev ra : RegIdx := 1#5
abbrev sp : RegIdx := 2#5
abbrev t0 : RegIdx := 5#5
abbrev t1 : RegIdx := 6#5
abbrev t2 : RegIdx := 7#5
abbrev s0 : RegIdx := 8#5
abbrev fp : RegIdx := 8#5
abbrev s1 : RegIdx := 9#5
abbrev a0 : RegIdx := 10#5
abbrev a1 : RegIdx := 11#5
abbrev a2 : RegIdx := 12#5
abbrev s2 : RegIdx := 18#5
abbrev s3 : RegIdx := 19#5
abbrev s4 : RegIdx := 20#5
abbrev s5 : RegIdx := 21#5
abbrev s6 : RegIdx := 22#5
abbrev s7 : RegIdx := 23#5
abbrev s8 : RegIdx := 24#5
abbrev s9 : RegIdx := 25#5
abbrev s10 : RegIdx := 26#5
abbrev s11 : RegIdx := 27#5
abbrev t3 : RegIdx := 28#5

open Line Asm in
/-- `qsort.asm`. -/
def source : List (Line Label) := [
  label .start,
    instr (addi sp zero 0x7EC),
    instr (addi fp sp 0),
    instr (lui s1 0x11111),
    instr (addi s1 s1 0x111),
    instr (add s2 s1 s1),
    instr (add s3 s2 s1),
    instr (add s4 s3 s1),
    instr (add s5 s4 s1),
    instr (add s6 s5 s1),
    instr (add s7 s6 s1),
    instr (add s8 s7 s1),
    instr (add s9 s8 s1),
    instr (add s10 s9 s1),
    instr (add s11 s10 s1),
    instr (jal ra .main),
    instr ebreak,
  label .qsort,
    instr (jalr zero 0 ra),
  label .input,
    instr (addi t0 a0 0),
    instr (lw a0 0x7fc zero),
    instr (addi t1 zero 10),
    instr (addi t2 zero 0),
  label .beforeInputLoop,
    instr (bge t2 t1 .afterInputLoop),
    instr (bge t2 a0 .afterInputLoop),
    instr (lw t3 0x7fc zero),
    instr (sw t3 0 t0),
    instr (addi t0 t0 4),
    instr (addi t2 t2 1),
    instr (jal zero .beforeInputLoop),
  label .afterInputLoop,
    instr (jalr zero 0 ra),
  label .output,
  label .beforeOutputLoop,
    instr (beq a0 zero .afterOutputLoop),
    instr (lw t0 0 a1),
    instr (sw t0 0x7fc zero),
    instr (addi a1 a1 4),
    instr (addi a0 a0 (-1)),
    instr (jal zero .beforeOutputLoop),
  label .afterOutputLoop,
    instr (jalr zero 0 ra),
  label .main,
    instr (addi sp sp (-64)),
    instr (sw ra 60 sp),
    instr (sw s0 56 sp),
    instr (addi s0 sp 64),
    instr (addi a0 s0 (-52)),
    instr (jal ra .input),
    instr (sw a0 (-56) s0),
    instr (addi a2 a0 (-1)),
    instr (addi a1 zero 0),
    instr (addi a0 s0 (-52)),
    instr (jal ra .qsort),
    instr (lw a0 (-56) s0),
    instr (addi a1 s0 (-52)),
    instr (jal ra .output),
    instr (addi a0 zero 0),
    instr (lw s0 56 sp),
    instr (lw ra 60 sp),
    instr (addi sp sp 64),
    instr (jalr zero 0 ra)]

def program : Program Label where
  lines := source
  assembles := by decide +kernel
  small := by decide

/-! ## Registers and arrays -/

/-- The registers `rs` apart, `r'` is `r`. -/
def Keeps (rs : List RegIdx) (r r' : RegState) : Prop := ∀ i, i ∉ rs → r'.x i = r.x i

theorem Keeps.refl (rs : List RegIdx) (r : RegState) : Keeps rs r r := fun _ _ => rfl

theorem Keeps.set {rs : List RegIdx} {r r' : RegState} {d : RegIdx} (h : Keeps rs r r')
    (hd : d ∈ rs) (v : Word) : Keeps rs r (r'.set d v) := by
  intro i hi
  have hne : ¬ (d ≠ 0#5 ∧ i = d) := by
    rintro ⟨-, rfl⟩
    exact hi hd
  rw [RegState.set_x, if_neg hne]
  exact h i hi

theorem Keeps.trans {rs rs' : List RegIdx} {r r' r'' : RegState} (h : Keeps rs r r')
    (h' : Keeps rs' r' r'') (hsub : rs' ⊆ rs) : Keeps rs r r'' := by
  intro i hi
  rw [h' i fun hmem => hi (hsub hmem), h i hi]

/-- The words `v 0, …, v (n - 1)` stored from `base` on. -/
def storeWords (m : Word → Byte) (base : Word) (v : Nat → Word) : Nat → Word → Byte
  | 0 => m
  | n + 1 => writeWord (storeWords m base v n) (base + BitVec.ofNat 32 (4 * n)) (v n)

/-- An array of ten words in the memory, behind the program. -/
structure ArrayAt (base : Word) : Prop where
  aligned : base.toNat % 4 = 0
  above : 220 ≤ base.toNat
  below : base.toNat + 40 ≤ 2028

section Array

variable {base : Word}

theorem ArrayAt.toNat_element (h : ArrayAt base) {i : Nat} (hi : i < 10) :
    (base + BitVec.ofNat 32 (4 * i)).toNat = base.toNat + 4 * i := by
  have hbelow := h.below
  rw [BitVec.toNat_add, BitVec.toNat_ofNat]
  omega

theorem ArrayAt.lt_memSize (h : ArrayAt base) {i : Nat} (hi : i < 10) :
    base + BitVec.ofNat 32 (4 * i) < memSize := by
  have hbelow := h.below
  rw [MicroRiscv.lt_memSize, h.toNat_element hi]
  omega

/-- The elements of an array, as a place to store to. -/
def ArrayAt.region (h : ArrayAt base) : program.Region where
  has a := ∃ i, i < 10 ∧ a = base + BitVec.ofNat 32 (4 * i)
  behind := by
    rintro a ⟨i, hi, rfl⟩
    have haligned := h.aligned
    have habove : 4 * (instructions program.lines).length ≤ base.toNat := h.above
    rw [Program.Behind, h.toNat_element hi]
    omega

/-- The element at `i` holds the `i`-th stored word. -/
theorem readWord_storeWords (h : ArrayAt base) (m : Word → Byte) (v : Nat → Word) {n i : Nat}
    (hn : n ≤ 10) (hi : i < n) :
    readWord (storeWords m base v n) (base + BitVec.ofNat 32 (4 * i)) = v i := by
  have haligned := h.aligned
  induction n with
  | zero => exact absurd hi (Nat.not_lt_zero i)
  | succ n ih =>
    have hlast := h.toNat_element (i := n) (by omega)
    have hthis := h.toNat_element (i := i) (by omega)
    rw [storeWords, readWord_writeWord _ (by omega) (h.lt_memSize (by omega)) (by omega)]
    split
    · next heq =>
      rw [heq] at hlast
      rw [show i = n by omega]
    · next hne =>
      apply ih (by omega)
      have hin : i ≠ n := by
        rintro rfl
        exact hne rfl
      omega

end Array

theorem toInt_small {j : Nat} (hj : j ≤ 10) : (BitVec.ofNat 32 j).toInt = j := by
  rw [BitVec.toInt_eq_toNat_cond, BitVec.toNat_ofNat]
  omega

/-! ## `input` -/

/-- The number of values that `input` reads for an announced size. -/
def inputCount (size : Word) : Nat := min 10 size.toInt.toNat

/-- The registers before round `j` of the loop of `input`. -/
structure InputRegs (s : Machine) (base : Word) (j : Nat) (r : RegState) : Prop where
  size : r.x a0 = s.stdin 0
  pointer : r.x t0 = base + BitVec.ofNat 32 (4 * j)
  limit : r.x t1 = 10#32
  counter : r.x t2 = BitVec.ofNat 32 j
  keeps : Keeps [a0, t0, t1, t2, t3] s.regs r

/-- Before round `j`, when `input` was called in `s`. -/
structure InputInv (s : Machine) (base : Word) (j : Nat) (t : Machine) : Prop where
  pc : t.pc = pcOf 21
  regs : InputRegs s base j t.regs
  mem : t.mem = storeWords s.mem base (fun n => s.stdin (n + 1)) j
  held : program.HeldBy t.mem
  stdin : ∀ n, t.stdin n = s.stdin (j + 1 + n)
  stdout : t.stdout = s.stdout

/-- After `input`. -/
structure InputDone (s : Machine) (base : Word) (t : Machine) : Prop where
  pc : t.pc = s.regs.x ra
  size : t.regs.x a0 = s.stdin 0
  keeps : Keeps [a0, t0, t1, t2, t3] s.regs t.regs
  mem : t.mem = storeWords s.mem base (fun n => s.stdin (n + 1)) (inputCount (s.stdin 0))
  held : program.HeldBy t.mem
  stdout : t.stdout = s.stdout

section Input

variable {s t : Machine} {base : Word} {j : Nat}

theorem element_succ (base : Word) (j : Nat) :
    base + BitVec.ofNat 32 (4 * j) + BitVec.ofInt 32 4 = base + BitVec.ofNat 32 (4 * (j + 1)) := by
  rw [BitVec.add_assoc]
  congr 1
  exact pcOf_succ j

theorem input_round (hbase : ArrayAt base) (hj : j < inputCount (s.stdin 0))
    (h : InputInv s base j t) :
    program.Runs 17 28 hbase.region (InputInv s base (j + 1)) t := by
  obtain ⟨r, pc, mem, stdin, noise, stdout⟩ := t
  obtain rfl : pc = pcOf 21 := h.pc
  have hregs : InputRegs s base j r := h.regs
  obtain ⟨hten, hsize⟩ := Nat.lt_min.mp hj
  have hlimit : (r.x t2).toInt < (r.x t1).toInt := by
    rw [hregs.limit, hregs.counter, toInt_small le_rfl, toInt_small (by omega)]
    omega
  have hmore : (r.x t2).toInt < (r.x a0).toInt := by
    rw [hregs.size, hregs.counter, toInt_small (by omega)]
    omega
  have hslot : (r.set t3 (stdin 0)).x t0 + BitVec.ofInt 32 0 = base + BitVec.ofNat 32 (4 * j) := by
    simp +decide [hregs.pointer]
  refine .bge_next h.held rfl hlimit ?_
  refine .bge_next h.held rfl hmore ?_
  refine .lw_stdin h.held rfl (port_addr r) ?_
  refine .sw_mem h.held rfl hslot (hbase.lt_memSize hten) ⟨j, hten, rfl⟩ fun hheld => ?_
  refine .addi hheld rfl ?_
  refine .addi hheld rfl ?_
  refine .j hheld rfl ?_
  refine .done { pc := rfl, held := hheld, stdout := h.stdout, regs := ?_, mem := ?_, stdin := ?_ }
  · constructor
    · simp +decide [hregs.size]
    · simpa +decide [hregs.pointer] using element_succ base j
    · simp +decide [hregs.limit]
    · simpa +decide [hregs.counter] using (BitVec.ofNat_add j 1).symm
    · exact ((hregs.keeps.set (by decide) _).set (by decide) _).set (by decide) _
  · have hvalue : (r.set t3 (stdin 0)).x t3 = s.stdin (j + 1) := h.stdin 0
    show writeWord mem _ _ = _
    rw [hvalue, show mem = _ from h.mem]
    rfl
  · intro n
    rw [Nat.add_right_comm (j + 1) 1 n]
    exact h.stdin (n + 1)

/-- The end of `input`, at either of the two bounds. -/
theorem input_exit (hbase : ArrayAt base) (hret : s.regs.x ra &&& ~~~1#32 = s.regs.x ra)
    (h : InputInv s base (inputCount (s.stdin 0)) t) :
    program.Runs 17 28 hbase.region (InputDone s base) t := by
  obtain ⟨r, pc, mem, stdin, noise, stdout⟩ := t
  obtain rfl : pc = pcOf 21 := h.pc
  have hregs : InputRegs s base (inputCount (s.stdin 0)) r := h.regs
  have hra : r.x ra = s.regs.x ra := hregs.keeps ra (by decide)
  have hcount : inputCount (s.stdin 0) ≤ 10 := Nat.min_le_left _ _
  have hend : program.Runs 17 28 hbase.region (InputDone s base)
      ⟨r, pcOf 28, mem, stdin, noise, stdout⟩ := by
    refine .jalr h.held rfl (by rw [hra, hret]) ?_
    exact .done ⟨hra, hregs.size, hregs.keeps, h.mem, h.held, h.stdout⟩
  by_cases hten : inputCount (s.stdin 0) = 10
  · have hlimit : (r.x t1).toInt ≤ (r.x t2).toInt := by
      rw [hregs.limit, hregs.counter, hten]
    exact .bge_taken h.held rfl hlimit hend
  · have hlimit : (r.x t2).toInt < (r.x t1).toInt := by
      rw [hregs.limit, hregs.counter, toInt_small le_rfl, toInt_small hcount]
      omega
    have hall : (r.x a0).toInt ≤ (r.x t2).toInt := by
      rw [hregs.size, hregs.counter, toInt_small hcount]
      unfold inputCount at hten ⊢
      omega
    refine .bge_next h.held rfl hlimit ?_
    exact .bge_taken h.held rfl hall hend

/-- `input`, called with the address of an array. -/
theorem input_spec (hbase : ArrayAt base) (hheld : program.HeldBy s.mem) (hpc : s.pc = pcOf 17)
    (harg : s.regs.x a0 = base) (hret : s.regs.x ra &&& ~~~1#32 = s.regs.x ra) :
    program.Runs 17 28 hbase.region (InputDone s base) s := by
  have hloop : ∀ t, InputInv s base 0 t → program.Runs 17 28 hbase.region (InputDone s base) t := by
    intro t ht
    -- the rounds that are left
    apply Until.loop (I := fun n t => ∃ j, j + n = inputCount (s.stdin 0) ∧ InputInv s base j t)
    · rintro u ⟨j, hj, hu⟩
      obtain rfl : j = inputCount (s.stdin 0) := hj
      exact input_exit hbase hret hu
    · rintro n u ⟨j, hj, hu⟩
      exact (input_round hbase (by omega) hu).mono fun _ hv => ⟨j + 1, by omega, hv⟩
    · exact ⟨0, Nat.zero_add _, ht⟩
  obtain ⟨r, pc, mem, stdin, noise, stdout⟩ := s
  obtain rfl : pc = pcOf 17 := hpc
  have hbaseReg : r.x a0 = base := harg
  refine .addi hheld rfl ?_
  refine .lw_stdin hheld rfl (port_addr _) ?_
  refine .addi hheld rfl ?_
  refine .addi hheld rfl ?_
  apply hloop
  refine { pc := rfl, regs := ?_, mem := rfl, held := hheld, stdin := ?_, stdout := rfl }
  · constructor
    · simp +decide
    · simp +decide [hbaseReg]
    · simp +decide [r.x0]
    · simp +decide [r.x0]
    · have hkeeps := Keeps.refl [a0, t0, t1, t2, t3] r
      exact (((hkeeps.set (by decide) _).set (by decide) _).set (by decide) _).set (by decide) _
  · intro n
    rw [Nat.zero_add, Nat.add_comm 1 n]

end Input

/-! ## `output` -/

/-- The address of `stdout`, as a place to store to. -/
def port : program.Region where
  has a := a = stdoutStart
  behind := by
    rintro a rfl
    unfold Program.Behind
    decide

/-- Before a round of the loop of `output`, when it was called in `s`: `j` words are printed
and `n` are left. -/
structure OutputInv (s : Machine) (j n : Nat) (t : Machine) : Prop where
  pc : t.pc = pcOf 29
  count : t.regs.x a0 = BitVec.ofNat 32 n
  pointer : t.regs.x a1 = s.regs.x a1 + BitVec.ofNat 32 (4 * j)
  keeps : Keeps [a0, a1, t0] s.regs t.regs
  mem : t.mem = s.mem
  stdout : ∃ words, t.stdout = s.stdout ++ words ∧ words.length = j ∧
    ∀ i, i < j → s.regs.x a1 + BitVec.ofNat 32 (4 * i) < memSize →
      words[i]? = some (readWord s.mem (s.regs.x a1 + BitVec.ofNat 32 (4 * i)))

/-- After `output`: it printed as many words as its first argument says. -/
structure OutputDone (s t : Machine) : Prop where
  pc : t.pc = s.regs.x ra
  keeps : Keeps [a0, a1, t0] s.regs t.regs
  mem : t.mem = s.mem
  stdout : ∃ words, t.stdout = s.stdout ++ words ∧ words.length = (s.regs.x a0).toNat ∧
    ∀ i, i < (s.regs.x a0).toNat → s.regs.x a1 + BitVec.ofNat 32 (4 * i) < memSize →
      words[i]? = some (readWord s.mem (s.regs.x a1 + BitVec.ofNat 32 (4 * i)))

section Output

variable {s t : Machine} {j n : Nat}

theorem count_pred (n : Nat) :
    BitVec.ofNat 32 (n + 1) + BitVec.ofInt 32 (-1) = BitVec.ofNat 32 n := by
  have hone : BitVec.ofNat 32 1 + BitVec.ofInt 32 (-1) = 0#32 := rfl
  rw [BitVec.ofNat_add, BitVec.add_assoc, hone, BitVec.add_zero]

theorem output_round (hheld : program.HeldBy s.mem) (hn : n + 1 < 2 ^ 32)
    (h : OutputInv s j (n + 1) t) : program.Runs 29 35 port (OutputInv s (j + 1) n) t := by
  obtain ⟨words, hout, hlen, hwords⟩ := h.stdout
  obtain ⟨r, pc, mem, stdin, noise, stdout⟩ := t
  obtain rfl : pc = pcOf 29 := h.pc
  obtain rfl : mem = s.mem := h.mem
  have hcount : r.x a0 = BitVec.ofNat 32 (n + 1) := h.count
  have hpointer : r.x a1 = s.regs.x a1 + BitVec.ofNat 32 (4 * j) := h.pointer
  have hmore : r.x a0 ≠ r.x zero := by
    rw [hcount, r.x0]
    intro heq
    have hnat := congrArg BitVec.toNat heq
    rw [BitVec.toNat_ofNat, Nat.mod_eq_of_lt hn] at hnat
    exact Nat.succ_ne_zero n hnat
  refine .beq_next hheld rfl hmore ?_
  refine .lw hheld rfl fun v stdin' noise' hv => ?_
  refine .sw_stdout hheld rfl (port_addr _) rfl ?_
  refine .addi hheld rfl ?_
  refine .addi hheld rfl ?_
  refine .j hheld rfl ?_
  refine .done { pc := rfl, mem := rfl, count := ?_, pointer := ?_, keeps := ?_, stdout := ?_ }
  · simpa +decide [hcount] using count_pred n
  · simpa +decide [hpointer] using element_succ (s.regs.x a1) j
  · exact ((h.keeps.set (by decide) _).set (by decide) _).set (by decide) _
  · refine ⟨words ++ [v], ?_, ?_, ?_⟩
    · show stdout ++ [v] = _
      rw [show stdout = _ from hout, List.append_assoc]
    · rw [List.length_append, hlen]
      rfl
    · intro i hi hlt
      obtain hin | rfl : i < j ∨ i = j := by omega
      · rw [List.getElem?_append_left (by omega)]
        exact hwords i hin hlt
      · have haddr : r.x a1 + BitVec.ofInt 32 0 = s.regs.x a1 + BitVec.ofNat 32 (4 * i) := by
          rw [hpointer]
          exact BitVec.add_zero _
        rw [haddr] at hv
        rw [← hlen, List.getElem?_concat_length, hlen, hv hlt]

theorem output_exit (hheld : program.HeldBy s.mem) (hret : s.regs.x ra &&& ~~~1#32 = s.regs.x ra)
    (h : OutputInv s (s.regs.x a0).toNat 0 t) : program.Runs 29 35 port (OutputDone s) t := by
  obtain ⟨r, pc, mem, stdin, noise, stdout⟩ := t
  obtain rfl : pc = pcOf 29 := h.pc
  obtain rfl : mem = s.mem := h.mem
  have hra : r.x ra = s.regs.x ra := h.keeps ra (by decide)
  have hnone : r.x a0 = r.x zero := by
    rw [r.x0]
    exact h.count
  refine .beq_taken hheld rfl hnone ?_
  refine .jalr hheld rfl (by rw [hra, hret]) ?_
  exact .done ⟨hra, h.keeps, rfl, h.stdout⟩

/-- `output`, for any count. -/
theorem output_spec (hheld : program.HeldBy s.mem) (hpc : s.pc = pcOf 29)
    (hret : s.regs.x ra &&& ~~~1#32 = s.regs.x ra) :
    program.Runs 29 35 port (OutputDone s) s := by
  have hcount := (s.regs.x a0).isLt
  apply Until.loop (I := fun n t => ∃ j, j + n = (s.regs.x a0).toNat ∧ OutputInv s j n t)
  · rintro u ⟨j, hj, hu⟩
    obtain rfl : j = (s.regs.x a0).toNat := hj
    exact output_exit hheld hret hu
  · rintro n u ⟨j, hj, hu⟩
    exact (output_round hheld (by omega) hu).mono fun _ hv => ⟨j + 1, by omega, hv⟩
  · refine ⟨0, Nat.zero_add _, hpc, ?_, ?_, Keeps.refl _ _, rfl, [], ?_, rfl, ?_⟩
    · rw [BitVec.ofNat_toNat, BitVec.setWidth_eq]
    · exact (BitVec.add_zero _).symm
    · rw [List.append_nil]
    · intro i hi
      exact absurd hi (Nat.not_lt_zero i)

end Output

end QsortAsm

end MicroRiscv
