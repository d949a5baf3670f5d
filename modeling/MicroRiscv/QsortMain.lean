import MicroRiscv.Qsort

/-!
# Input, output and `main` of the C sort program

Standard input is the list of the words that `fscanf` with `%08x` delivers one after the
other; standard output is the list of the printed lines. `A` is uninitialised when `main`
starts, so a run begins with an arbitrary array.

Results:
1. `hex08_injective`: a printed line determines the word.
2. `input_segment`: `input` stores the values it reads from index 0 on.
3. `main_lines`: for a size of at most ten that is followed by as many values, `main`
   prints the elements of the sorted array.
4. `main_lines_eq_iff`: it prints the values as they came exactly when they are sorted.
-/

namespace MicroRiscv

namespace Qsort

open Segment

/-! ## Lines -/

abbrev Line := List Char

def hexDigit (d : BitVec 4) : Char :=
  if d.toNat < 10 then Char.ofNat (48 + d.toNat) else Char.ofNat (87 + d.toNat)

/-- What `fprintf` prints for `%08x`, without the end of the line. -/
def hex08 (v : BitVec 32) : Line :=
  (List.range 8).map fun i => hexDigit (v.extractLsb' (28 - 4 * i) 4)

theorem hexDigit_injective : ∀ d e : BitVec 4, hexDigit d = hexDigit e → d = e := by
  decide

theorem hex08_injective {v w : BitVec 32} (h : hex08 v = hex08 w) : v = w := by
  have hdigit : ∀ i, i < 8 → v.extractLsb' (28 - 4 * i) 4 = w.extractLsb' (28 - 4 * i) 4 := by
    intro i hi
    have hmap := List.map_inj_left.mp h i (List.mem_range.mpr hi)
    exact hexDigit_injective _ _ hmap
  apply BitVec.eq_of_getLsbD_eq
  intro j hj
  have hbit := congrArg (fun d => d.getLsbD (j % 4)) (hdigit (7 - j / 4) (by omega))
  have hindex : 28 - 4 * (7 - j / 4) + j % 4 = j := by omega
  have hlt : j % 4 < 4 := Nat.mod_lt _ (by decide)
  simpa only [BitVec.getLsbD_extractLsb', hlt, decide_true, Bool.true_and, hindex] using hbit

/-! ## The functions -/

/-- The loop of `input`, which stores at `A + i`. -/
def inputLoop (i : Nat) (stdin : List (BitVec 32)) (h : Heap) : Heap :=
  if i < 10 then
    match stdin with
    | [] => h
    | v :: stdin => inputLoop (i + 1) stdin (h.store i v)
  else h

/-- `input` returns the announced size, or 0 when there is none. -/
def input (stdin : List (BitVec 32)) (h : Heap) : BitVec 32 × Heap :=
  match stdin with
  | [] => (0#32, h)
  | size :: stdin => (size, inputLoop 0 stdin h)

/-- The loop of `output` from `i` on. -/
def outputLoop (size i : Int) (h : Heap) : List Line × Heap :=
  if i < size then
    let (v, h) := h.load i
    let (lines, h) := outputLoop size (i + 1) h
    (hex08 v :: lines, h)
  else ([], h)
termination_by (size - i).toNat

def output (size : BitVec 32) (h : Heap) : List Line × Heap := outputLoop size.toInt 0 h

/-- `main`, from an uninitialised array on. Where the sort overflows, a run has no further
effects in the model. -/
def main (stdin : List (BitVec 32)) (h : Heap) : List Line × Heap :=
  let (size, h) := input stdin h
  match qsort 0 (size - 1#32).toInt h with
  | .ok h => output size h
  | .error h => ([], h)

/-! ## Lists of elements -/

/-- The elements at the indices from 0 up to `n`. -/
def elements (h : Heap) (n : Nat) : List (BitVec 32) :=
  (List.range n).map fun i : Nat => h.cell i

/-- A full `input` loop stores the values it reads and nothing else. -/
theorem inputLoop_elements {i : Nat} {values : List (BitVec 32)} (hlen : i + values.length ≤ 10)
    (h : Heap) :
    (∀ j : Int, j < i → (inputLoop i values h).cell j = h.cell j) ∧
    (List.range values.length).map (fun k => (inputLoop i values h).cell (i + k : Nat)) =
      values := by
  induction values generalizing i h with
  | nil =>
    refine ⟨fun j _ => ?_, rfl⟩
    unfold inputLoop
    split <;> rfl
  | cons v values ih =>
    rw [List.length_cons] at hlen
    have hloop : inputLoop i (v :: values) h = inputLoop (i + 1) values (h.store i v) := by
      rw [inputLoop, if_pos (by omega)]
    obtain ⟨hframe, hvalues⟩ := ih (i := i + 1) (by omega) (h.store i v)
    rw [hloop]
    constructor
    · intro j hj
      rw [hframe j (by omega)]
      exact Function.update_of_ne (by omega) _ _
    · rw [List.length_cons, List.range_succ_eq_map, List.map_cons, List.map_map]
      have hfirst : (inputLoop (i + 1) values (h.store i v)).cell (i + 0 : Nat) = v := by
        rw [hframe _ (by omega)]
        exact Function.update_self _ _ _
      have hrest : (fun k => (inputLoop (i + 1) values (h.store i v)).cell (i + k : Nat)) ∘
          Nat.succ = fun k => (inputLoop (i + 1) values (h.store i v)).cell (i + 1 + k : Nat) := by
        funext k
        show _ = (inputLoop (i + 1) values (h.store i v)).cell (i + 1 + k : Nat)
        rw [Function.comp_apply, Nat.succ_eq_add_one, Nat.add_right_comm, ← Nat.add_assoc]
      rw [hfirst, hrest, hvalues]

theorem outputLoop_next {size i : Int} (hi : i < size) (h : Heap) :
    (outputLoop size i h).1 = hex08 (h.cell i) :: (outputLoop size (i + 1) (h.load i).2).1 := by
  rw [outputLoop, if_pos hi]
  rfl

/-- The loop of `output` prints the remaining elements. -/
theorem outputLoop_lines {size : Int} {n : Nat} {i : Int} (hn : (size - i).toNat = n) (h : Heap) :
    (outputLoop size i h).1 = (List.range n).map fun k : Nat => hex08 (h.cell (i + k)) := by
  induction n generalizing i h with
  | zero =>
    rw [outputLoop, if_neg (by omega)]
    rfl
  | succ n ih =>
    rw [outputLoop_next (by omega), ih (by omega), List.range_succ_eq_map, List.map_cons,
      List.map_map]
    have hrest : (fun k : Nat => hex08 (h.cell (i + k))) ∘ Nat.succ =
        fun k : Nat => hex08 ((h.load i).2.cell (i + 1 + k)) := by
      funext k
      show hex08 (h.cell (i + (k + 1 : Nat))) = hex08 (h.cell (i + 1 + k))
      rw [Nat.cast_succ, Int.add_assoc i 1, Int.add_comm 1]
    rw [hrest, Nat.cast_zero, Int.add_zero]

/-! ## `main` on at most ten values -/

/-- The array after the values have been read and sorted. -/
def sortedHeap (values : List (BitVec 32)) (h : Heap) : Heap :=
  reached (qsort 0 (values.length - 1) (inputLoop 0 values h))

/-- A sort of at most ten values does not overflow. -/
theorem sortedHeap_spec {values : List (BitVec 32)} (hlen : values.length ≤ 10) (h : Heap) :
    qsort 0 (values.length - 1) (inputLoop 0 values h) = .ok (sortedHeap values h) ∧
    QsortSpec 0 (values.length - 1) (inputLoop 0 values h) (sortedHeap values h) := by
  obtain ⟨h', hok, hspec⟩ := qsort_spec (l := 0) (r := values.length - 1) (by decide)
    (fun _ => by omega) (inputLoop 0 values h)
  unfold sortedHeap
  rw [hok]
  exact ⟨rfl, hspec⟩

theorem small_toInt {n : Nat} (hn : n ≤ 10) :
    (BitVec.ofNat 32 n).toInt = n ∧ (BitVec.ofNat 32 n - 1#32).toInt = n - 1 := by
  have hall : ∀ k : Fin 11, (BitVec.ofNat 32 k).toInt = (k : Nat) ∧
      (BitVec.ofNat 32 k - 1#32).toInt = (k : Nat) - 1 := by decide
  exact hall ⟨n, Nat.lt_succ_of_le hn⟩

theorem main_lines {values : List (BitVec 32)} (hlen : values.length ≤ 10) (h : Heap) :
    (main (BitVec.ofNat 32 values.length :: values) h).1 =
      (elements (sortedHeap values h) values.length).map hex08 := by
  obtain ⟨hsize, hlast⟩ := small_toInt hlen
  have hmain : main (BitVec.ofNat 32 values.length :: values) h =
      outputLoop values.length 0 (sortedHeap values h) := by
    simp only [main, input, hlast, (sortedHeap_spec hlen h).1, output, hsize]
  rw [hmain, outputLoop_lines (n := values.length) (by omega)]
  simp [elements]

/-- The sorted elements are a permutation of the values and sorted. -/
theorem sortedHeap_elements {values : List (BitVec 32)} (hlen : values.length ≤ 10) (h : Heap) :
    (elements (sortedHeap values h) values.length).Perm values ∧
    (elements (sortedHeap values h) values.length).Pairwise fun u v => u.toInt ≤ v.toInt := by
  have hspec := (sortedHeap_spec hlen h).2
  have hvalues : elements (inputLoop 0 values h) values.length = values := by
    have hroom : 0 + values.length ≤ 10 := by omega
    have hread := (inputLoop_elements hroom h).2
    simpa [elements] using hread
  have hindices : ∀ i : Int, i ∈ (List.range values.length).map (fun k : Nat => (k : Int)) ↔
      i ∈ Set.Icc 0 ((values.length : Int) - 1) := by
    intro i
    rw [List.mem_map, Set.mem_Icc]
    constructor
    · rintro ⟨k, hk, rfl⟩
      have := List.mem_range.mp hk
      omega
    · intro hi
      exact ⟨i.toNat, List.mem_range.mpr (by omega), by omega⟩
  constructor
  · have hnodup : ((List.range values.length).map fun k : Nat => (k : Int)).Nodup :=
      List.nodup_range.map Nat.cast_injective
    have hperm := hspec.acts.rearranged.perm_map hnodup hindices
    rw [List.map_map, List.map_map] at hperm
    exact hperm.trans (List.Perm.of_eq hvalues)
  · unfold elements
    rw [List.pairwise_map]
    apply List.pairwise_lt_range.imp_of_mem
    intro i j hi hj hij
    have hilt := List.mem_range.mp hi
    have hjlt := List.mem_range.mp hj
    exact hspec.sorted ⟨by omega, by omega⟩ ⟨by omega, by omega⟩ (by omega)

/-- `main` prints the values in the order they came exactly when they are sorted. -/
theorem main_lines_eq_iff {values : List (BitVec 32)} (hlen : values.length ≤ 10) (h : Heap) :
    (main (BitVec.ofNat 32 values.length :: values) h).1 = values.map hex08 ↔
      values.Pairwise fun u v => u.toInt ≤ v.toInt := by
  obtain ⟨hperm, hsorted⟩ := sortedHeap_elements hlen h
  have hinj : Function.Injective hex08 := fun _ _ he => hex08_injective he
  rw [main_lines hlen, (List.map_injective_iff.mpr hinj).eq_iff]
  constructor
  · intro heq
    rwa [heq] at hsorted
  · intro hvalues
    exact hperm.eq_of_pairwise (fun u v _ _ huv hvu => BitVec.toInt_inj.mp (le_antisymm huv hvu))
      hsorted hvalues

end Qsort

end MicroRiscv
