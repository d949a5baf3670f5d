import MicroRiscv.QsortAsm
import MicroRiscv.QsortMain

/-!
# The assembly `input` and `output` against their C originals

`Returns` follows a call of a routine of `qsort.asm` to its return. The C functions are
those of `QsortMain`, on the list of the words of the stream.

Results:
1. `inputOutput_lines`: what the C functions print.
2. `calls_spec`: what the assembly routines print, for every size of at most ten.
3. `agreesWithC_iff`: they agree exactly on the sizes that are not negative.
-/

namespace MicroRiscv

/-! ## 1. The C functions -/

namespace Qsort

/-- `input` and then `output` on the returned size. -/
def inputOutput (stdin : List (BitVec 32)) (h : Heap) : List Line :=
  let (size, h) := input stdin h
  (output size h).1

/-- `input` looks at ten values at most. -/
theorem inputLoop_take (i : Nat) (values : List (BitVec 32)) (h : Heap) :
    inputLoop i values h = inputLoop i (values.take (10 - i)) h := by
  induction values generalizing i h with
  | nil => rw [List.take_nil]
  | cons v values ih =>
    by_cases hi : i < 10
    · have hrest : 10 - i = 10 - (i + 1) + 1 := by omega
      rw [hrest, List.take_succ_cons, inputLoop, if_pos hi, inputLoop, if_pos hi]
      exact ih (i + 1) _
    · rw [inputLoop.eq_def, if_neg hi, inputLoop.eq_def, if_neg hi]

theorem inputOutput_lines {size : BitVec 32} {values : List (BitVec 32)} (hten : size.toInt ≤ 10)
    (hlen : size.toInt ≤ values.length) (h : Heap) :
    inputOutput (size :: values) h = (values.take size.toInt.toNat).map hex08 := by
  have hfirst : (values.take 10).length = min 10 values.length := List.length_take
  have hfit : 0 + (values.take 10).length ≤ 10 := by omega
  have hstored := (inputLoop_elements hfit h).2
  have htake : values.take size.toInt.toNat = (List.range size.toInt.toNat).map fun k : Nat =>
      (inputLoop 0 (values.take 10) h).cell (0 + k : Nat) := by
    have hcells := congrArg (List.take size.toInt.toNat) hstored
    rw [← List.map_take, List.take_range, Nat.min_eq_left (by omega), List.take_take,
      Nat.min_eq_left (by omega)] at hcells
    exact hcells.symm
  show (outputLoop size.toInt 0 (inputLoop 0 values h)).1 = _
  rw [inputLoop_take, outputLoop_lines (n := size.toInt.toNat) (by omega), htake, List.map_map]
  rfl

end Qsort

namespace QsortAsm

/-! ## 2. The assembly routines -/

/-- The state in which the call `input(A)` starts that returns to `ret`. -/
def callInput (s : Machine) (ret base : Word) : Machine :=
  { s with regs := (s.regs.set ra ret).set a0 base, pc := addressOf source .input }

/-- The state in which the call `output(size, A)` starts that returns to `ret`. -/
def callOutput (s : Machine) (ret size base : Word) : Machine :=
  { s with
    regs := ((s.regs.set ra ret).set a0 size).set a1 base
    pc := addressOf source .output }

/-- From `s` the machine comes to `ret` for the first time in the state `t`. -/
def Returns (s : Machine) (ret : Word) (t : Machine) : Prop :=
  First Machine.step (fun t => t.pc = ret) s t

/-- A return address outside of the two routines, which make no calls. -/
structure ReturnAddress (ret : Word) : Prop where
  even : ret &&& ~~~1#32 = ret
  outside : ∀ k, 17 ≤ k → k ≤ 35 → ret ≠ pcOf k

/-- The stream begins with the words of the list. -/
def Delivers (stdin : Nat → Word) (words : List Word) : Prop :=
  ∀ i v, words[i]? = some v → stdin i = v

/-- `input(A)` and then `output` on the returned size come to an end and print the first
`size` values, none for a negative size, as the C functions do. -/
def AgreesWithC (s : Machine) (base ret ret' size : Word) (values : List Word) : Prop :=
  ∃ t u, Returns (callInput s ret base) ret t ∧
    Returns (callOutput t ret' (t.regs.x a0) base) ret' u ∧
    ∃ printed, u.stdout = s.stdout ++ printed ∧
      printed.length = (max 0 size.toInt).toNat ∧
      printed = values.take (max 0 size.toInt).toNat ∧
      ∀ h, printed.map Qsort.hex08 = Qsort.inputOutput (size :: values) h

section Calls

variable {s t u : Machine} {base ret ret' size : Word} {values : List Word}

/-- A routine ends at its return address. -/
theorem exists_returns {lo hi : Nat} {A : program.Region} {Q : Machine → Prop}
    (hret : ∀ k, lo ≤ k → k ≤ hi → ret ≠ pcOf k) (h : program.Runs lo hi A Q s)
    (hQ : ∀ t, Q t → t.pc = ret) : ∃ t, Returns s ret t ∧ Q t := by
  refine Until.exists_first h hQ ?_
  rintro t ⟨⟨k, hlo, hhi, hpc⟩, -⟩ hstop
  exact hret k hlo hhi (hstop.symm.trans hpc)

theorem exists_input (hheld : program.HeldBy s.mem) (hbase : ArrayAt base)
    (hret : ReturnAddress ret) : 
    ∃ t, Returns (callInput s ret base) ret t ∧ InputDone (callInput s ret base) base t := by
  have hra : (callInput s ret base).regs.x ra = ret := by simp +decide [callInput]
  have harg : (callInput s ret base).regs.x a0 = base := by simp +decide [callInput]
  have hruns := input_spec (s := callInput s ret base) hbase hheld rfl harg (by rw [hra, hret.even])
  exact exists_returns (fun k hlo hhi => hret.outside k hlo (by omega)) hruns
    fun t ht => ht.pc.trans hra

theorem exists_output (hheld : program.HeldBy s.mem) (hret : ReturnAddress ret)
    (size base : Word) :
    ∃ t, Returns (callOutput s ret size base) ret t ∧
      OutputDone (callOutput s ret size base) t := by
  have hra : (callOutput s ret size base).regs.x ra = ret := by simp +decide [callOutput]
  have hruns := output_spec (s := callOutput s ret size base) hheld rfl (by rw [hra, hret.even])
  exact exists_returns (fun k hlo hhi => hret.outside k (by omega) hhi) hruns
    fun t ht => ht.pc.trans hra

/-- What both calls print: as many words as the size says when it is read without a sign, and
first the values that were stored. -/
theorem calls_spec (hheld : program.HeldBy s.mem) (hbase : ArrayAt base) (hret : ReturnAddress ret)
    (hret' : ReturnAddress ret') (hsize : s.stdin 0 = size) : 
    ∃ t u, Returns (callInput s ret base) ret t ∧
      Returns (callOutput t ret' (t.regs.x a0) base) ret' u ∧
      ∃ printed, u.stdout = s.stdout ++ printed ∧ printed.length = size.toNat ∧
        ∀ i, i < inputCount size → i < size.toNat → printed[i]? = some (s.stdin (i + 1)) := by
  obtain ⟨t, ht, hin⟩ := exists_input hheld hbase hret
  obtain ⟨u, hu, hout⟩ := exists_output hin.held hret' (t.regs.x a0) base
  obtain ⟨printed, happend, hlen, hwords⟩ := hout.stdout
  have hcount : (callOutput t ret' (t.regs.x a0) base).regs.x a0 = size := by
    rw [← hsize, ← show t.regs.x a0 = s.stdin 0 from hin.size]
    simp +decide [callOutput]
  have hpointer : (callOutput t ret' (t.regs.x a0) base).regs.x a1 = base := by
    simp +decide [callOutput]
  rw [hcount] at hlen hwords
  rw [hpointer] at hwords
  refine ⟨t, u, ht, hu, printed, ?_, hlen, ?_⟩
  · rw [happend]
    exact congrArg (· ++ printed) hin.stdout
  · intro i hi hlt
    have hten : inputCount size ≤ 10 := Nat.min_le_left _ _
    rw [hwords i hlt (hbase.lt_memSize (by omega))]
    show some (readWord t.mem _) = _
    have hannounced : (callInput s ret base).stdin 0 = size := hsize
    rw [hin.mem, hannounced, readWord_storeWords hbase _ _ hten hi]
    rfl

theorem toNat_of_nonneg (h : 0 ≤ size.toInt) : size.toNat = size.toInt.toNat := by
  have hlt := size.isLt
  rw [BitVec.toInt_eq_toNat_cond] at *
  split at h <;> omega

theorem toNat_of_neg (h : size.toInt < 0) : 0 < size.toNat := by
  have hlt := size.isLt
  rw [BitVec.toInt_eq_toNat_cond] at h
  split at h <;> omega

theorem agrees_of_nonneg (hheld : program.HeldBy s.mem) (hbase : ArrayAt base)
    (hret : ReturnAddress ret) (hret' : ReturnAddress ret')
    (hstream : Delivers s.stdin (size :: values)) (hten : size.toInt ≤ 10)
    (hlen : size.toInt ≤ values.length) (hsign : 0 ≤ size.toInt) :
    AgreesWithC s base ret ret' size values := by
  obtain ⟨t, u, ht, hu, printed, happend, hprinted, hwords⟩ :=
    calls_spec hheld hbase hret hret' (hstream 0 size rfl)
  have hnat := toNat_of_nonneg hsign
  have hmax : (max 0 size.toInt).toNat = size.toInt.toNat := by omega
  have hcount : inputCount size = size.toInt.toNat := by
    unfold inputCount
    omega
  have hvalues : printed = values.take size.toInt.toNat := by
    apply List.ext_getElem?
    intro i
    by_cases hi : i < size.toInt.toNat
    · rw [hwords i (by omega) (by omega), List.getElem?_take_of_lt hi]
      have hget : i < values.length := by omega
      have hvalue : values[i]? = some values[i] := List.getElem?_eq_getElem hget
      rw [hvalue, hstream (i + 1) values[i] hvalue]
    · rw [List.getElem?_eq_none (by omega), List.getElem?_eq_none]
      rw [List.length_take]
      omega
  refine ⟨t, u, ht, hu, printed, happend, by omega, by rw [hmax, hvalues], fun h => ?_⟩
  rw [Qsort.inputOutput_lines hten hlen, hvalues]

/-- A negative size is counted down from `2 ^ 32 + size`. -/
theorem not_agrees_of_neg (hheld : program.HeldBy s.mem) (hbase : ArrayAt base)
    (hret : ReturnAddress ret) (hret' : ReturnAddress ret') (hsize : s.stdin 0 = size)
    (hsign : size.toInt < 0) : ¬ AgreesWithC s base ret ret' size values := by
  rintro ⟨t, u, ht, hu, printed, happend, hprinted, -⟩
  obtain ⟨t', u', ht', hu', printed', happend', hprinted', -⟩ :=
    calls_spec hheld hbase hret hret' hsize
  obtain rfl := ht.unique ht'
  obtain rfl := hu.unique hu'
  obtain rfl : printed = printed' := List.append_cancel_left (happend.symm.trans happend')
  have hpos := toNat_of_neg hsign
  omega

end Calls

/-! ## 3. Agreement -/

/-- On sizes of at most ten the assembly routines agree with the C functions exactly when the
size is not negative. -/
theorem agreesWithC_iff {s : Machine} {base ret ret' size : Word} {values : List Word}
    (hheld : program.HeldBy s.mem) (hbase : ArrayAt base) (hret : ReturnAddress ret)
    (hret' : ReturnAddress ret') (hstream : Delivers s.stdin (size :: values))
    (hten : size.toInt ≤ 10) (hlen : size.toInt ≤ values.length) :
    AgreesWithC s base ret ret' size values ↔ 0 ≤ size.toInt := by
  constructor
  · intro hagrees
    by_contra hneg
    exact not_agrees_of_neg hheld hbase hret hret' (hstream 0 size rfl) (Int.not_le.mp hneg) hagrees
  · exact agrees_of_nonneg hheld hbase hret hret' hstream hten hlen

theorem arrayAt_main : ArrayAt 0x7b8#32 := by
  constructor <;> decide

/-- Behind a call in `main`. -/
theorem returnAddress_main {k : Nat} (hlo : 36 ≤ k) (hhi : k < 55) : ReturnAddress (pcOf k) := by
  constructor
  · have hall : ∀ j : Fin 55, pcOf j &&& ~~~1#32 = pcOf j := by decide
    exact hall ⟨k, hhi⟩
  · intro j hj hj' heq
    have hnat := congrArg BitVec.toNat heq
    simp only [pcOf, BitVec.toNat_ofNat] at hnat
    omega

theorem delivers_boot (words : List Word) :
    Delivers (Machine.boot (assemble source) words).stdin words := by
  intro i v hv
  show words.getD i 0#32 = v
  rw [List.getD_eq_getElem?_getD, hv]
  rfl

theorem agreesWithC_three :
    AgreesWithC (Machine.boot (assemble source) [3#32, 9#32, 4#32, 6#32]) 0x7b8#32 (pcOf 42)
      (pcOf 50) 3#32 [9#32, 4#32, 6#32] := by
  refine Iff.mpr (b := 0 ≤ (3#32 : Word).toInt) ?_ (by decide)
  exact agreesWithC_iff Program.heldBy_image arrayAt_main
    (returnAddress_main (by decide) (by decide)) (returnAddress_main (by decide) (by decide))
    (delivers_boot _) (by decide) (by decide)

/-- Size -1, with no values. -/
theorem not_agreesWithC_minus_one :
    let s := Machine.boot (assemble source) [0xffffffff#32]
    Delivers s.stdin [0xffffffff#32] ∧ (0xffffffff#32 : Word).toInt ≤ 10 ∧
      (0xffffffff#32 : Word).toInt ≤ ([] : List Word).length ∧
      ¬ AgreesWithC s 0x7b8#32 (pcOf 42) (pcOf 50) 0xffffffff#32 [] :=
  ⟨delivers_boot _, by decide, by decide,
    not_agrees_of_neg Program.heldBy_image arrayAt_main (returnAddress_main (by decide) (by decide))
    (returnAddress_main (by decide) (by decide)) rfl
      (by decide)⟩

end QsortAsm

end MicroRiscv
