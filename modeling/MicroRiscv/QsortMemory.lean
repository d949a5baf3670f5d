import MicroRiscv.QsortMain

/-!
# Memory safety of the C sort program

The announced size, the number of values that follow and the capacity of the array are
three quantities that only `input` relates: it stores as many values as there are, at most
ten, and returns the announced size. Everything after it trusts that size.

Results:
1. `inputLoop_log`, `qsort_log_first`, `outputLoop_log`: the accesses of the three parts.
2. `safe_of_fits`: a size that the stored values cover keeps the program inside them.
3. `main_safe_iff`: exactly those sizes do.
-/

namespace MicroRiscv

namespace Qsort

/-! ## Definitions -/

/-- Every access is inside the array, and every element that is read was written before. -/
structure Safe (log : List Access) : Prop where
  inBounds : ∀ x, x ∈ log → 0 ≤ x.index ∧ x.index ≤ 9
  written : ∀ pre i post, log = pre ++ .read i :: post → .write i ∈ pre

/-- The announced size exceeds neither the capacity nor the values that follow, and the
last index `size - 1` does not overflow. -/
def Fits : List (BitVec 32) → Prop
  | [] => True
  | size :: values =>
    size.toInt ≤ 10 ∧ size.toInt ≤ values.length ∧ size ≠ 0x80000000#32

/-! ## 1. The accesses -/

/-- The loop of `input` writes one element after the other. -/
theorem inputLoop_log (i : Nat) (values : List (BitVec 32)) (h : Heap) :
    (inputLoop i values h).log =
      h.log ++ (List.range (min (10 - i) values.length)).map fun k : Nat => .write (i + k) := by
  induction values generalizing i h with
  | nil =>
    unfold inputLoop
    split <;> simp
  | cons v values ih =>
    unfold inputLoop
    split
    · next hi =>
      have hmin : min (10 - i) (values.length + 1) = min (10 - (i + 1)) values.length + 1 := by
        omega
      rw [ih, List.length_cons, hmin, List.range_succ_eq_map, List.map_cons, List.map_map,
        Heap.store, List.append_assoc, List.singleton_append, Nat.cast_zero, Int.add_zero]
      congr 3
      funext k
      simp [Nat.cast_succ, Int.add_assoc, Int.add_comm 1]
    · next hi =>
      have hmin : min (10 - i) (v :: values).length = 0 := by omega
      rw [hmin]
      simp

/-- `partition` looks at the last element first. -/
theorem partition_log_first {l r : Int} (hlr : l ≤ r) (h : Heap) :
    ∃ post, (partition l r h).2.log = h.log ++ .read r :: post := by
  have hstart : LoopInv l r (h.cell r) (h.load r).2 (l - 1) l (h.load r).2 :=
    ⟨le_rfl, by omega, hlr, Acts.refl _ _, rfl, fun x _ _ => by omega, fun x _ _ => by omega⟩
  obtain ⟨new, hlog, _⟩ := (partitionLoop_spec hstart).acts.touches
  let i := (partitionLoop r (h.cell r) (l - 1) l (h.load r).2).1 + 1
  refine ⟨new ++ [.read i, .read r, .write i, .write r], ?_⟩
  show (swap i r (partitionLoop r (h.cell r) (l - 1) l (h.load r).2).2).log = _
  rw [swap_log, hlog, Heap.load, List.append_assoc, List.append_assoc, List.singleton_append]

/-- So does a sort of more than one element. -/
theorem qsort_log_first {l r : Int} (hlt : l < r) (h : Heap) :
    ∃ post, (reached (qsort l r h)).log = h.log ++ .read r :: post := by
  obtain ⟨post, hpart⟩ := partition_log_first hlt.le h
  obtain ⟨new, hlog, _⟩ := (acts_after_partition hlt h).touches
  refine ⟨post ++ new, ?_⟩
  rw [hlog, hpart, List.append_assoc, List.cons_append]

theorem outputLoop_log {size : Int} {n : Nat} {i : Int} (hn : (size - i).toNat = n) (h : Heap) :
    (outputLoop size i h).2.log =
      h.log ++ (List.range n).map fun k : Nat => .read (i + k) := by
  induction n generalizing i h with
  | zero =>
    rw [outputLoop, if_neg (by omega)]
    simp
  | succ n ih =>
    rw [outputLoop, if_pos (by omega)]
    show (outputLoop size (i + 1) (h.load i).2).2.log = _
    rw [ih (by omega), List.range_succ_eq_map, List.map_cons, List.map_map, Heap.load,
      List.append_assoc, List.singleton_append, Nat.cast_zero, Int.add_zero]
    congr 3
    funext k
    simp [Nat.cast_succ, Int.add_assoc, Int.add_comm 1]

/-- What `input` writes when there are `n` values for it. -/
def stored (n : Nat) : List Access := (List.range n).map fun k : Nat => .write k

/-- The last index, unless the subtraction overflows. -/
theorem last_toInt (size : BitVec 32) :
    (size - 1#32).toInt = if size = 0x80000000#32 then 2 ^ 31 - 1 else size.toInt - 1 := by
  split
  · next h => rw [h]; decide
  · next h =>
    have hne : size.toNat ≠ 2147483648 := fun he => h (BitVec.eq_of_toNat_eq he)
    have hlt := size.isLt
    rw [BitVec.toInt_eq_toNat_cond, BitVec.toInt_eq_toNat_cond, BitVec.toNat_sub]
    simp only [BitVec.toNat_ofNat]
    split <;> split <;> omega

/-- A sort that overflows is followed by no access, and neither is one of a size that is not
positive. -/
theorem main_accesses (size : BitVec 32) (values : List (BitVec 32)) (h : Heap) :
    (main (size :: values) h).2.log =
      (reached (qsort 0 (size - 1#32).toInt (inputLoop 0 values h))).log ++
        (List.range size.toInt.toNat).map fun k : Nat => .read k := by
  cases hsort : qsort 0 (size - 1#32).toInt (inputLoop 0 values h) with
  | ok h1 =>
    have hmain : main (size :: values) h = outputLoop size.toInt 0 h1 := by
      simp only [main, input, hsort, output]
    rw [hmain, outputLoop_log (n := size.toInt.toNat) (by omega)]
    simp [reached]
  | error h1 =>
    have hmain : main (size :: values) h = ([], h1) := by
      simp only [main, input, hsort]
    -- only the size for which size - 1 is the largest int gets here
    have hmin : size = 0x80000000#32 := by
      by_contra hne
      have hlast := last_toInt size
      rw [if_neg hne] at hlast
      have hlt := BitVec.toInt_lt (x := size)
      obtain ⟨h2, hok, _⟩ := qsort_spec (l := 0) (r := (size - 1#32).toInt) (by decide)
        (fun _ => by omega) (inputLoop 0 values h)
      rw [hsort] at hok
      cases hok
    rw [hmain, hmin]
    simp [reached]

/-- The accesses of `main`: those of `input`, of `qsort` and of `output`. -/
theorem main_log (size : BitVec 32) (values : List (BitVec 32)) (cell : Int → BitVec 32) :
    ∃ sorting : List Access, (main (size :: values) ⟨cell, []⟩).2.log =
        stored (min 10 values.length) ++
          (sorting ++ (List.range size.toInt.toNat).map fun k : Nat => .read k) ∧
      (∀ x, x ∈ sorting → 0 ≤ x.index ∧ x.index ≤ (size - 1#32).toInt) ∧
      (0 < (size - 1#32).toInt → ∃ post, sorting = .read (size - 1#32).toInt :: post) ∧
      ((size - 1#32).toInt ≤ 0 → sorting = []) := by
  let h0 := inputLoop 0 values ⟨cell, []⟩
  have hinput : h0.log = stored (min 10 values.length) := by
    rw [inputLoop_log]
    simp [stored]
  obtain ⟨sorting, hsort, hin⟩ := (qsort_acts 0 (size - 1#32).toInt h0).touches
  refine ⟨sorting, ?_, hin, fun hpos => ?_, fun hle => ?_⟩
  · rw [main_accesses, hsort, hinput, List.append_assoc]
  · obtain ⟨post, hfirst⟩ := qsort_log_first hpos h0
    exact ⟨post, List.append_cancel_left (hsort.symm.trans hfirst)⟩
  · rw [qsort_short (not_lt.mpr hle)] at hsort
    exact List.self_eq_append_right.mp hsort

/-! ## 2. Sizes that fit -/

theorem read_notMem_stored (n : Nat) (i : Int) : .read i ∉ stored n := by
  simp [stored]

theorem write_mem_stored {n : Nat} {i : Int} : .write i ∈ stored n ↔ 0 ≤ i ∧ i < n := by
  simp only [stored, List.mem_map, List.mem_range, Access.write.injEq]
  constructor
  · rintro ⟨k, hk, rfl⟩
    omega
  · rintro ⟨h0, hn⟩
    exact ⟨i.toNat, by omega, by omega⟩

/-- After `input` has stored `n` elements, accesses to these elements are safe. -/
theorem safe_stored {n : Nat} (hn : n ≤ 10) {rest : List Access}
    (hrest : ∀ x, x ∈ rest → 0 ≤ x.index ∧ x.index < n) : Safe (stored n ++ rest) := by
  constructor
  · intro x hx
    rcases List.mem_append.mp hx with hx | hx
    · obtain ⟨k, hk, rfl⟩ := List.mem_map.mp hx
      have := List.mem_range.mp hk
      simp only [Access.index]
      omega
    · have := hrest x hx
      omega
  · intro pre i post hsplit
    -- a read is none of the accesses of input, which are therefore all before it
    rcases List.append_eq_append_iff.mp hsplit with ⟨mid, rfl, hmid⟩ | ⟨mid, hpre, hmid⟩
    · have hi := hrest (.read i) (by rw [hmid]; simp)
      exact List.mem_append_left _ (write_mem_stored.mpr hi)
    · cases mid with
      | nil =>
        rw [List.append_nil] at hpre
        rw [List.nil_append] at hmid
        have hi := hrest (.read i) (by rw [← hmid]; simp)
        rw [← hpre]
        exact write_mem_stored.mpr hi
      | cons x mid =>
        rw [List.cons_append, List.cons.injEq] at hmid
        have hmem : .read i ∈ stored n := by rw [hpre, hmid.1]; simp
        exact absurd hmem (read_notMem_stored n i)

/-- Reading another element first is not. -/
theorem not_safe_stored {n : Nat} {i : Int} (hi : ¬ (0 ≤ i ∧ i < n)) (post : List Access) :
    ¬ Safe (stored n ++ .read i :: post) := fun h =>
  hi (write_mem_stored.mp (h.written (stored n) i post rfl))

theorem safe_of_fits {stdin : List (BitVec 32)} (h : Fits stdin) (cell : Int → BitVec 32) :
    Safe (main stdin ⟨cell, []⟩).2.log := by
  cases stdin with
  | nil =>
    have hnone : (main [] ⟨cell, []⟩).2.log = stored 0 ++ [] := by
      have hmain : main [] ⟨cell, []⟩ = outputLoop 0 0 ⟨cell, []⟩ := by
        have hlast : (0#32 - 1#32).toInt = -1 := by decide
        simp only [main, input, hlast, qsort_short (l := 0) (r := -1) (by decide), output]
        rfl
      rw [hmain, outputLoop_log (n := 0) rfl]
      rfl
    rw [hnone]
    exact safe_stored (by decide) fun x hx => absurd hx List.not_mem_nil
  | cons size values =>
    obtain ⟨h10, hlen, hmin⟩ := h
    obtain ⟨sorting, hlog, hin, _, _⟩ := main_log size values cell
    have hlast := last_toInt size
    rw [if_neg hmin] at hlast
    rw [hlog]
    refine safe_stored (Nat.min_le_left _ _) fun x hx => ?_
    rcases List.mem_append.mp hx with hx | hx
    · have := hin x hx
      omega
    · obtain ⟨k, hk, rfl⟩ := List.mem_map.mp hx
      have := List.mem_range.mp hk
      simp only [Access.index]
      omega

/-! ## 3. Sizes that do not -/

theorem fits_of_safe {stdin : List (BitVec 32)} {cell : Int → BitVec 32}
    (h : Safe (main stdin ⟨cell, []⟩).2.log) : Fits stdin := by
  cases stdin with
  | nil => trivial
  | cons size values =>
    obtain ⟨sorting, hlog, _, hfirst, hnone⟩ := main_log size values cell
    rw [hlog] at h
    have hlast := last_toInt size
    by_contra hnot
    have hover : ¬ (0 ≤ (size - 1#32).toInt ∧
        (size - 1#32).toInt < (min 10 values.length : Nat)) ∧ 0 ≤ (size - 1#32).toInt := by
      unfold Fits at hnot
      by_cases hmin : size = 0x80000000#32
      · rw [if_pos hmin] at hlast
        omega
      · rw [if_neg hmin] at hlast
        have : ¬ (size.toInt ≤ 10 ∧ size.toInt ≤ values.length) := fun hle =>
          hnot ⟨hle.1, hle.2, hmin⟩
        omega
    rcases lt_or_eq_of_le hover.2 with hpos | hzero
    · -- qsort looks at the last element of the announced array
      obtain ⟨post, rfl⟩ := hfirst hpos
      exact not_safe_stored hover.1 _ h
    · -- output looks at the only element of the announced array
      have hone : size.toInt = 1 := by
        split at hlast <;> omega
      rw [hnone hzero.ge, hone] at h
      refine not_safe_stored (i := 0) (fun hin => hover.1 ?_) [] h
      rwa [← hzero]

/-- For every standard input and every content of the uninitialised array, the program
stays inside the array and reads only what it wrote exactly if the size fits. -/
theorem main_safe_iff (stdin : List (BitVec 32)) (cell : Int → BitVec 32) :
    Safe (main stdin ⟨cell, []⟩).2.log ↔ Fits stdin :=
  ⟨fits_of_safe, fun h => safe_of_fits h cell⟩

/-- Eleven values, announced as eleven: the sort starts with `A[10]`. -/
theorem main_not_safe_eleven :
    ¬ ∀ (stdin : List (BitVec 32)) (cell : Int → BitVec 32),
      Safe (main stdin ⟨cell, []⟩).2.log := by
  intro h
  have hfits := fits_of_safe (h (11#32 :: List.replicate 11 0#32) fun _ => 0#32)
  exact absurd hfits.1 (by decide)

end Qsort

end MicroRiscv
