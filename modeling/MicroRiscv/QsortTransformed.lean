import MicroRiscv.Lib.ByteMemory
import MicroRiscv.QsortMain

/-!
# The register-style sort program

`qsort_transformed.c` is `qsort.c` rewritten by hand with global variables for the
registers, byte addresses for the indices and jumps for the loops. A `size_t` has 64 bits
and an `int` 32, byte order is little-endian, and the globals are zero at the start.

`qsort` may recurse without end, so it takes fuel; the loops are bounded by a register
that counts towards its limit and are total.

Results:
1. `input_values`, `output_lines`: the input and output loops do what those of `qsort.c` do.
2. `qsort_returns`: the comparison at the start of `qsort` is unsigned and the wrong way
   round, so a call with `l = 0` returns without sorting.
3. `main_stdout`: the program prints the values as they came.
4. `preserves_program_iff`: it prints what `qsort.c` prints exactly when they are sorted.
-/

namespace MicroRiscv

namespace QsortTransformed

open ByteMemory

abbrev SizeT := BitVec 64

/-- The globals the program uses, the memory, and standard input and output. -/
structure State where
  a0 : SizeT
  a1 : SizeT
  a2 : SizeT
  t0 : SizeT
  t1 : SizeT
  t2 : SizeT
  t3 : SizeT
  t4 : SizeT
  t5 : SizeT
  t6 : SizeT
  s1 : SizeT
  s2 : SizeT
  s3 : SizeT
  s4 : SizeT
  s9 : SizeT
  s10 : SizeT
  s11 : SizeT
  mem : SizeT → BitVec 8
  stdin : List (BitVec 32)
  stdout : List Qsort.Line

/-! ## Casts and calls -/

/-- `(int) x`. -/
def toInt (x : SizeT) : BitVec 32 := x.setWidth 32

/-- An `int` used as a `size_t`. -/
def ofInt (v : BitVec 32) : SizeT := v.signExtend 64

/-- `fscanf(stdin, "%08x\n", (int*)&t)`: the result, the new value of the global `t`, of
which only the low half is written, and what is left to read. -/
def fscanf (stdin : List (BitVec 32)) (t : SizeT) : SizeT × SizeT × List (BitVec 32) :=
  match stdin with
  | [] => (-1#64, t, [])
  | v :: stdin => (1#64, t.extractLsb' 32 32 ++ v, stdin)

/-! ## The functions -/

def swap (s : State) : State :=
  let s := { s with t6 := ofInt (load s.mem s.a0) }
  let s := { s with mem := store s.mem s.a0 (load s.mem s.a1) }
  { s with mem := store s.mem s.a1 (toInt s.t6) }

/-- The exchange in the loop of `partition`. -/
def partitionExchange (s : State) : State :=
  let s := { s with s2 := s.s2 + 1#64 }
  let s := { s with t2 := s.s2 <<< 2 }
  let s := { s with a0 := s.a0 + s.t2 }
  let s := { s with t3 := s.s3 <<< 2 }
  let s := { s with a1 := s.a0 + s.t3 }
  swap s

/-- One round of the loop of `partition`, behind its first line. -/
def partitionBody (s : State) : State :=
  let s := { s with s3 := s.s3 + 1#64 }
  if (toInt s.s1).sle (load s.mem s.t1) then s else partitionExchange s

theorem partitionBody_counters (s : State) :
    (partitionBody s).s3 = s.s3 + 1#64 ∧ (partitionBody s).a2 = s.a2 := by
  simp only [partitionBody]
  split <;> exact ⟨rfl, rfl⟩

theorem toInt_add_one (x : SizeT) {u : BitVec 32} (h : (toInt x).toInt < u.toInt) :
    (toInt (x + 1#64)).toInt = (toInt x).toInt + 1 := by
  have hadd : toInt (x + 1#64) = toInt x + 1#32 := by
    unfold toInt
    rw [BitVec.setWidth_add x 1#64 (by decide)]
    rfl
  have hlow := BitVec.le_toInt (toInt x)
  have hhigh := BitVec.toInt_lt (x := u)
  rw [hadd, BitVec.toInt_add]
  apply Int.bmod_eq_of_le <;> simp at hlow hhigh ⊢ <;> omega

/-- From `before_partition_loop` to `after_partition_loop`. -/
def partitionLoop (s : State) : State :=
  if (toInt s.a2).sle (toInt s.s3) then s else partitionLoop (partitionBody s)
termination_by ((toInt s.a2).toInt - (toInt s.s3).toInt).toNat
decreasing_by
  -- s3 counts up to a2, which the round keeps
  rename_i hlt
  have hless : (toInt s.s3).toInt < (toInt s.a2).toInt := by simpa [BitVec.sle] using hlt
  obtain ⟨h3, h2⟩ := partitionBody_counters s
  rw [h3, h2, toInt_add_one s.s3 hless]
  omega

def partition (s : State) : State :=
  let stackS1 := s.s1
  let stackS2 := s.s2
  let stackS3 := s.s3
  let s := { s with t0 := s.a2 <<< 2 }
  let s := { s with t0 := s.a0 + s.t0 }
  let s := { s with t1 := s.s3 <<< 2 }
  let s := { s with t1 := s.a0 + s.t1 }
  let s := { s with s1 := s.t0 }
  let s := { s with s2 := s.a1 - 1#64 }
  let s := { s with s3 := s.a1 }
  let s := partitionLoop s
  let s := { s with s2 := s.s2 + 1#64 }
  let s := { s with t4 := s.s2 <<< 2 }
  let s := { s with a0 := s.a0 + s.t4 }
  let s := { s with t5 := s.a2 <<< 2 }
  let s := { s with a1 := s.a0 + s.t5 }
  let s := swap s
  let s := { s with a0 := s.s2 }
  { s with s1 := stackS1, s2 := stackS2, s3 := stackS3 }

/-- `qsort`, nested at most `fuel` deep. -/
def qsort (fuel : Nat) (s : State) : Option State :=
  match fuel with
  | 0 => none
  | fuel + 1 =>
    let stackS4 := s.s4
    let s := { s with s9 := s.a0, s10 := s.a1, s11 := s.a2 }
    if s.a1 ≤ s.a2 then some { s with s4 := stackS4 }
    else do
      let s := partition s
      let s := { s with s4 := s.a0 }
      let s := { s with a0 := s.s9, a1 := s.s10, a2 := s.s4 - 1#64 }
      let s ← qsort fuel s
      let s := { s with a0 := s.s9, a1 := s.s4 + 1#64, a2 := s.s11 }
      let s ← qsort fuel s
      some { s with s4 := stackS4 }

/-- From `input_loop_begin` to the return. -/
def inputLoop (s : State) : State :=
  if h5 : s.t5 = 0#64 then { s with a0 := s.t1 }
  else
    let (ret, t2, stdin) := fscanf s.stdin s.t2
    let s' := { s with a0 := ret, t2 := t2, stdin := stdin }
    if s'.a0 = s'.t4 then
      let s' := { s' with mem := store s'.mem s'.t0 (toInt s'.t2) }
      let s' := { s' with t0 := s'.t0 + 4#64 }
      inputLoop { s' with t5 := s.t5 - 1#64 }
    else { s' with a0 := s'.t1 }
termination_by s.t5.toNat
decreasing_by
  show (s.t5 - 1#64).toNat < s.t5.toNat
  bv_omega

def input (s : State) : State :=
  let s := { s with t0 := s.a0 }
  let (ret, t1, stdin) := fscanf s.stdin s.t1
  let s := { s with a0 := ret, t1 := t1, stdin := stdin }
  let s := { s with t4 := 1#64 }
  if s.a0 = s.t4 then
    let s := { s with t4 := 1#64 }
    let s := { s with t5 := 10#64 }
    inputLoop s
  else { s with a0 := 0#64 }

/-- From `before_output_loop` to the return. -/
def output (s : State) : State :=
  if h0 : s.a0 = 0#64 then s
  else
    let s' := { s with stdout := s.stdout ++ [Qsort.hex08 (load s.mem s.a1)] }
    let s' := { s' with a1 := s'.a1 + 4#64 }
    output { s' with a0 := s.a0 - 1#64 }
termination_by s.a0.toNat
decreasing_by
  show (s.a0 - 1#64).toNat < s.a0.toNat
  bv_omega

/-- `main` with the local array at the address `array`. -/
def main (fuel : Nat) (array : SizeT) (s : State) : Option State := do
  let s := { s with a0 := array }
  let s := input s
  let size := toInt s.a0
  let s := { s with a0 := array }
  let s := { s with a1 := 0#64 }
  let s := { s with a2 := ofInt (size - 1#32) }
  let s ← qsort fuel s
  let s := { s with a0 := ofInt size }
  let s := { s with a1 := array }
  some (output s)

/-- The globals at the start of the program. -/
def start (mem : SizeT → BitVec 8) (stdin : List (BitVec 32)) : State where
  a0 := 0#64
  a1 := 0#64
  a2 := 0#64
  t0 := 0#64
  t1 := 0#64
  t2 := 0#64
  t3 := 0#64
  t4 := 0#64
  t5 := 0#64
  t6 := 0#64
  s1 := 0#64
  s2 := 0#64
  s3 := 0#64
  s4 := 0#64
  s9 := 0#64
  s10 := 0#64
  s11 := 0#64
  mem := mem
  stdin := stdin
  stdout := []

/-! ## Input -/

/-- `input` has stored the values `got` from `base` on and the values `rest` are left. -/
structure Reading (base : SizeT) (got rest : List (BitVec 32)) (s : State) : Prop where
  room : got.length + rest.length ≤ 10
  counter : s.t5 = BitVec.ofNat 64 (10 - got.length)
  one : s.t4 = 1#64
  pointer : s.t0 = wordAddr base got.length
  stdin : s.stdin = rest
  holds : Holds s.mem base got

/-- A round of the input loop that reads the value `v`. -/
def readRound (s : State) (v : BitVec 32) (rest : List (BitVec 32)) : State :=
  { s with
    a0 := 1#64, t2 := s.t2.extractLsb' 32 32 ++ v, stdin := rest, mem := store s.mem s.t0 v,
    t0 := s.t0 + 4#64, t5 := s.t5 - 1#64 }

theorem ofNat_ne_zero {n : Nat} (hpos : 0 < n) (hsmall : n ≤ 10) : BitVec.ofNat 64 n ≠ 0#64 := by
  intro hzero
  have hnat := congrArg BitVec.toNat hzero
  rw [BitVec.toNat_ofNat, BitVec.toNat_ofNat] at hnat
  omega

theorem toInt_append (u v : BitVec 32) : toInt (u ++ v) = v := by
  unfold toInt
  rw [BitVec.setWidth_append]
  simp

theorem inputLoop_read {s : State} {v : BitVec 32} {rest : List (BitVec 32)} (h5 : s.t5 ≠ 0#64)
    (h4 : s.t4 = 1#64) (hin : s.stdin = v :: rest) :
    inputLoop s = inputLoop (readRound s v rest) := by
  rw [inputLoop, dif_neg h5]
  simp [fscanf, hin, h4, toInt_append, readRound]

theorem inputLoop_end {s : State} (h4 : s.t4 = 1#64) (hin : s.stdin = []) :
    inputLoop s = { s with a0 := s.t1 } := by
  rw [inputLoop]
  split
  · rfl
  · simp [fscanf, hin, h4]

/-- One round keeps the invariant. -/
theorem Reading.step {base : SizeT} {got rest : List (BitVec 32)} {v : BitVec 32} {s : State}
    (h : Reading base got (v :: rest) s) : Reading base (got ++ [v]) rest (readRound s v rest) := by
  have hroom := h.room
  rw [List.length_cons] at hroom
  constructor
  · rw [List.length_append, List.length_singleton]
    omega
  · show s.t5 - 1#64 = _
    rw [h.counter, List.length_append, List.length_singleton]
    have hcount : 10 - got.length = 10 - (got.length + 1) + 1 := by omega
    rw [hcount, BitVec.ofNat_add, BitVec.add_sub_cancel]
  · exact h.one
  · show s.t0 + 4#64 = _
    rw [h.pointer, List.length_append, List.length_singleton, wordAddr_succ]
  · rfl
  · show Holds (store s.mem s.t0 v) base (got ++ [v])
    rw [h.pointer]
    exact h.holds.push (by decide) (by omega) v

/-- The input loop stores all values, keeps the size in `t1` and returns it. -/
theorem inputLoop_spec {base : SizeT} {got rest : List (BitVec 32)} {s : State}
    (h : Reading base got rest s) :
    (inputLoop s).a0 = s.t1 ∧ (inputLoop s).stdout = s.stdout ∧
    Holds (inputLoop s).mem base (got ++ rest) := by
  induction rest generalizing got s with
  | nil =>
    rw [inputLoop_end h.one h.stdin, List.append_nil]
    exact ⟨rfl, rfl, h.holds⟩
  | cons v rest ih =>
    have h5 : s.t5 ≠ 0#64 := by
      have hroom := h.room
      rw [List.length_cons] at hroom
      rw [h.counter]
      exact ofNat_ne_zero (by omega) (by omega)
    obtain ⟨ha0, hout, hholds⟩ := ih h.step
    rw [inputLoop_read h5 h.one h.stdin]
    rw [List.append_assoc, List.singleton_append] at hholds
    exact ⟨ha0, hout, hholds⟩

/-- `input` returns the size and leaves the values in the array. -/
theorem input_values {values : List (BitVec 32)} (hlen : values.length ≤ 10) (size : BitVec 32)
    {s : State} (hin : s.stdin = size :: values) :
    toInt (input s).a0 = size ∧ (input s).stdout = s.stdout ∧ Holds (input s).mem s.a0 values := by
  have hinput : ∃ s1, input s = inputLoop s1 ∧ toInt s1.t1 = size ∧ s1.stdout = s.stdout ∧
      Reading s.a0 [] values s1 := by
    unfold input
    simp only [hin, fscanf, if_true]
    refine ⟨_, rfl, toInt_append _ _, rfl, ?_⟩
    exact ⟨by simpa using hlen, rfl, rfl, (BitVec.add_zero s.a0).symm, rfl, holds_nil _ _⟩
  obtain ⟨s1, heq, hsize, hout, hreading⟩ := hinput
  obtain ⟨ha0, hout', hholds⟩ := inputLoop_spec hreading
  rw [heq, ha0, hout']
  exact ⟨hsize, hout, hholds⟩

/-! ## Output -/

/-- `output` has printed the values `got` from `base` on and the values `rest` are left. -/
structure Printing (base : SizeT) (got rest : List (BitVec 32)) (s : State) : Prop where
  room : got.length + rest.length ≤ 10
  counter : s.a0 = BitVec.ofNat 64 rest.length
  pointer : s.a1 = wordAddr base got.length
  holds : Holds s.mem base (got ++ rest)

/-- A round of the output loop. -/
def printRound (s : State) : State :=
  { s with
    stdout := s.stdout ++ [Qsort.hex08 (load s.mem s.a1)], a1 := s.a1 + 4#64, a0 := s.a0 - 1#64 }

theorem output_print {s : State} (h0 : s.a0 ≠ 0#64) : output s = output (printRound s) := by
  rw [output, dif_neg h0]
  rfl

theorem Printing.step {base : SizeT} {got rest : List (BitVec 32)} {v : BitVec 32} {s : State}
    (h : Printing base got (v :: rest) s) : Printing base (got ++ [v]) rest (printRound s) := by
  have hroom := h.room
  rw [List.length_cons] at hroom
  constructor
  · rw [List.length_append, List.length_singleton]
    omega
  · show s.a0 - 1#64 = _
    rw [h.counter, List.length_cons, BitVec.ofNat_add, BitVec.add_sub_cancel]
  · show s.a1 + 4#64 = _
    rw [h.pointer, List.length_append, List.length_singleton, wordAddr_succ]
  · rw [List.append_assoc]
    exact h.holds

/-- `output` prints the values that are left. -/
theorem output_lines {base : SizeT} {got rest : List (BitVec 32)} {s : State}
    (h : Printing base got rest s) :
    (output s).stdout = s.stdout ++ rest.map Qsort.hex08 := by
  induction rest generalizing got s with
  | nil =>
    have hzero : s.a0 = 0#64 := h.counter
    rw [output, dif_pos hzero]
    exact (List.append_nil _).symm
  | cons v rest ih =>
    have hne : s.a0 ≠ 0#64 := by
      have hroom := h.room
      rw [List.length_cons] at hroom
      rw [h.counter, List.length_cons]
      exact ofNat_ne_zero (by omega) (by omega)
    have hv : load s.mem s.a1 = v := by
      rw [h.pointer]
      apply h.holds
      rw [List.getElem?_append_right (Nat.le_refl _), Nat.sub_self]
      rfl
    rw [output_print hne, ih h.step]
    show s.stdout ++ [Qsort.hex08 (load s.mem s.a1)] ++ _ = _
    rw [hv, List.map_cons, List.append_assoc, List.singleton_append]

/-! ## The program -/

/-- A call of `qsort` with `l = 0` returns at once: no unsigned `r` is below it. -/
theorem qsort_returns (fuel : Nat) {s : State} (h1 : s.a1 = 0#64) :
    qsort (fuel + 1) s = some { s with s9 := s.a0, s10 := s.a1, s11 := s.a2 } := by
  have hle : s.a1 ≤ s.a2 := by
    rw [h1]
    exact Nat.zero_le s.a2.toNat
  unfold qsort
  simp only [hle, if_true]

theorem ofInt_small {n : Nat} (hn : n ≤ 10) : ofInt (BitVec.ofNat 32 n) = BitVec.ofNat 64 n := by
  have hall : ∀ k : Fin 11, ofInt (BitVec.ofNat 32 k) = BitVec.ofNat 64 k := by decide
  exact hall ⟨n, Nat.lt_succ_of_le hn⟩

/-- The program terminates and prints the values in the order they came. -/
theorem main_stdout {values : List (BitVec 32)} (hlen : values.length ≤ 10) (fuel : Nat)
    (array : SizeT) (mem : SizeT → BitVec 8) :
    ∃ s, main (fuel + 1) array (start mem (BitVec.ofNat 32 values.length :: values)) = some s ∧
      s.stdout = values.map Qsort.hex08 := by
  have hin : ({ start mem (BitVec.ofNat 32 values.length :: values) with a0 := array } : State).stdin =
      BitVec.ofNat 32 values.length :: values := rfl
  obtain ⟨hsize, hout, hholds⟩ := input_values hlen (BitVec.ofNat 32 values.length) hin
  generalize ht : input { start mem (BitVec.ofNat 32 values.length :: values) with a0 := array } = t
    at hsize hout hholds
  have hmain : main (fuel + 1) array (start mem (BitVec.ofNat 32 values.length :: values)) =
      (qsort (fuel + 1)
        { t with a0 := array, a1 := 0#64, a2 := ofInt (toInt t.a0 - 1#32) }).bind
      fun s => some (output { s with a0 := ofInt (toInt t.a0), a1 := array }) := by
    rw [← ht]
    rfl
  have hroom : ([] : List (BitVec 32)).length + values.length ≤ 10 := by
    rwa [List.length_nil, Nat.zero_add]
  have hprint : ∀ a2 s9 s10 s11, Printing array [] values
      { t with
        a0 := ofInt (BitVec.ofNat 32 values.length), a1 := array, a2 := a2, s9 := s9, s10 := s10,
        s11 := s11 } :=
    fun _ _ _ _ => ⟨hroom, ofInt_small hlen, (BitVec.add_zero array).symm, hholds⟩
  rw [hmain, qsort_returns fuel rfl, hsize]
  refine ⟨_, rfl, ?_⟩
  rw [output_lines (hprint _ _ _ _)]
  show t.stdout ++ _ = _
  rw [hout]
  rfl

/-- On the input of a size and as many values the program terminates and prints what
`qsort.c` prints, whatever memory and the uninitialised array contain. -/
def PreservesProgram (values : List (BitVec 32)) : Prop :=
  ∀ (array : SizeT) (mem : SizeT → BitVec 8) (h : Qsort.Heap), ∃ fuel s,
    main fuel array (start mem (BitVec.ofNat 32 values.length :: values)) = some s ∧
    s.stdout = (Qsort.main (BitVec.ofNat 32 values.length :: values) h).1

/-- An uninitialised array that happens to be zero. -/
def zeroHeap : Qsort.Heap := ⟨fun _ => 0#32, []⟩

/-- Whatever the fuel, the program prints nothing else than the values as they came. -/
theorem stdout_of_main {values : List (BitVec 32)} (hlen : values.length ≤ 10) {fuel : Nat}
    {array : SizeT} {mem : SizeT → BitVec 8} {s : State}
    (hmain : main fuel array (start mem (BitVec.ofNat 32 values.length :: values)) = some s) :
    s.stdout = values.map Qsort.hex08 := by
  cases fuel with
  | zero => cases hmain
  | succ fuel =>
    obtain ⟨s', hs', hout⟩ := main_stdout hlen fuel array mem
    rw [hmain] at hs'
    cases hs'
    exact hout

/-- The two programs agree exactly on the values that need no sorting. -/
theorem preserves_program_iff {values : List (BitVec 32)} (hlen : values.length ≤ 10) :
    PreservesProgram values ↔ values.Pairwise fun u v => u.toInt ≤ v.toInt := by
  constructor
  · intro hpres
    obtain ⟨fuel, s, hmain, hout⟩ := hpres 0#64 (fun _ => 0#8) zeroHeap
    rw [stdout_of_main hlen hmain] at hout
    exact (Qsort.main_lines_eq_iff hlen zeroHeap).mp hout.symm
  · intro hsorted array mem h
    obtain ⟨s, hmain, hout⟩ := main_stdout hlen 0 array mem
    refine ⟨1, s, hmain, ?_⟩
    rw [hout, (Qsort.main_lines_eq_iff hlen h).mpr hsorted]

/-- On the two values 1 and 2 the programs agree. -/
theorem preserves_program_sorted : PreservesProgram [1#32, 2#32] :=
  (preserves_program_iff (by decide)).mpr (by decide)

/-- On the two values 2 and 1 they do not. -/
theorem two_values_unsorted :
    ¬ ∀ values : List (BitVec 32), values.length ≤ 10 → PreservesProgram values := by
  intro h
  have hlen : [2#32, 1#32].length ≤ 10 := by decide
  obtain ⟨fuel, s, hmain, hout⟩ := h [2#32, 1#32] hlen 0#64 (fun _ => 0#8) zeroHeap
  rw [stdout_of_main hlen hmain] at hout
  have hsorted := (Qsort.main_lines_eq_iff hlen zeroHeap).mp hout.symm
  exact absurd hsorted (by decide)

end QsortTransformed

end MicroRiscv
