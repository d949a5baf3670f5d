import Mathlib.Algebra.Order.Group.Int
import Mathlib.Data.BitVec
import Mathlib.Data.Int.ConditionallyCompleteOrder
import Mathlib.Order.ConditionallyCompleteLattice.Basic
import MicroRiscv.Lib.Segment

/-!
# The C sort program

`qsort.c` sorts an array of `int` in place: `partition` moves the elements below the last
one to the front, `qsort` recurses into both sides. The array is a family of words over
`Int` indices, together with the log of the accesses to it. Elements compare as signed.

The indices are `int` values too. `partition` computes none outside `l - 1` to `r`
(`LoopInv`, `PartitionSpec`), so from a non-negative `l` on it cannot overflow. `qsort`
computes `k + 1`, which overflows if the pivot ends up at the largest `int`
(`qsort_overflows`). Such an overflow has no meaning in C: the model stops there, with the
array as it is, and `qsort_spec` says which indices keep it away.

Results:
1. `partition_spec`: what `partition` does, from `partitionLoop_spec`, its loop invariant.
2. `partition_contract`: the same as one statement about any array and any two indices.
3. `qsort_acts`: whether it overflows or not, `qsort` only rearranges its segment.
4. `qsort_spec`: unless the segment ends at the largest `int`, `qsort` sorts.
5. `qsort_sorts`: the same as one statement about any array and any two indices.
-/

namespace MicroRiscv

namespace Qsort

open Segment

/-! ## The array -/

/-- An access to the element at an index. -/
inductive Access
  | read (i : Int)
  | write (i : Int)
deriving DecidableEq, Repr

def Access.index : Access → Int
  | .read i => i
  | .write i => i

/-- The elements and the accesses so far, oldest first. -/
structure Heap where
  cell : Int → BitVec 32
  log : List Access

def Heap.load (h : Heap) (i : Int) : BitVec 32 × Heap :=
  (h.cell i, { h with log := h.log ++ [.read i] })

def Heap.store (h : Heap) (i : Int) (v : BitVec 32) : Heap :=
  ⟨Function.update h.cell i v, h.log ++ [.write i]⟩

/-! ## The functions -/

/-- `swap(&A[x], &A[y])`. -/
def swap (x y : Int) (h : Heap) : Heap :=
  let (tmp, h) := h.load x
  let (v, h) := h.load y
  let h := h.store x v
  h.store y tmp

/-- The `for` loop of `partition`, from the current `i` and `j` on. -/
def partitionLoop (r : Int) (pivot : BitVec 32) (i j : Int) (h : Heap) : Int × Heap :=
  if j < r then
    let (v, h) := h.load j
    if v.slt pivot then
      let i := i + 1
      partitionLoop r pivot i (j + 1) (swap i j h)
    else partitionLoop r pivot i (j + 1) h
  else (i, h)
termination_by (r - j).toNat

def partition (l r : Int) (h : Heap) : Int × Heap :=
  let (pivot, h) := h.load r
  let (i, h) := partitionLoop r pivot (l - 1) l h
  let i := i + 1
  (i, swap i r h)

/-! ## What an operation may do to the array -/

/-- From `h` to `h'` the elements at the indices `S` were rearranged, and only they were
accessed. -/
structure Acts (S : Set Int) (h h' : Heap) : Prop where
  rearranged : Rearranged S h.cell h'.cell
  touches : ∃ new, h'.log = h.log ++ new ∧ ∀ x, x ∈ new → x.index ∈ S

namespace Acts

variable {S T : Set Int} {h h' h'' : Heap}

theorem refl (S : Set Int) (h : Heap) : Acts S h h :=
  ⟨Rearranged.refl S _, [], (List.append_nil _).symm, fun _ hx => nomatch hx⟩

theorem trans (h1 : Acts S h h') (h2 : Acts S h' h'') : Acts S h h'' := by
  obtain ⟨hr1, new1, hlog1, hin1⟩ := h1
  obtain ⟨hr2, new2, hlog2, hin2⟩ := h2
  refine ⟨hr1.trans hr2, new1 ++ new2, by rw [hlog2, hlog1, List.append_assoc], fun x hx => ?_⟩
  rcases List.mem_append.mp hx with hx | hx
  · exact hin1 x hx
  · exact hin2 x hx

theorem mono (h1 : Acts S h h') (hST : S ⊆ T) : Acts T h h' := by
  obtain ⟨hr, new, hlog, hin⟩ := h1
  exact ⟨hr.mono hST, new, hlog, fun x hx => hST (hin x hx)⟩

/-- An operation on other indices keeps an element. -/
theorem cell_eq (ha : Acts S h h') {i : Int} (hi : i ∉ S) : h'.cell i = h.cell i :=
  ha.rearranged.eq_of_notMem hi

end Acts

theorem load_acts {S : Set Int} (h : Heap) {i : Int} (hi : i ∈ S) : Acts S h (h.load i).2 := by
  refine ⟨Rearranged.refl S _, [.read i], rfl, fun x hx => ?_⟩
  rw [List.mem_singleton.mp hx]
  exact hi

section Swap

variable {x y i : Int} (h : Heap)

theorem swap_cell (x y : Int) : (swap x y h).cell =
    Function.update (Function.update h.cell x (h.cell y)) y (h.cell x) := rfl

theorem swap_log (x y : Int) :
    (swap x y h).log = h.log ++ [.read x, .read y, .write x, .write y] := by
  simp [swap, Heap.load, Heap.store]

theorem swap_cell_left (x y : Int) : (swap x y h).cell x = h.cell y := by
  rw [swap_cell]
  by_cases hxy : x = y
  · rw [hxy, Function.update_self]
  · rw [Function.update_of_ne hxy, Function.update_self]

theorem swap_cell_right (x y : Int) : (swap x y h).cell y = h.cell x := by
  rw [swap_cell, Function.update_self]

theorem swap_cell_other (hx : i ≠ x) (hy : i ≠ y) : (swap x y h).cell i = h.cell i := by
  rw [swap_cell, Function.update_of_ne hy, Function.update_of_ne hx]

theorem swap_acts {S : Set Int} (hx : x ∈ S) (hy : y ∈ S) : Acts S h (swap x y h) := by
  refine ⟨rearranged_swap h.cell hx hy, _, swap_log h x y, fun a ha => ?_⟩
  simp only [List.mem_cons, List.not_mem_nil, or_false] at ha
  rcases ha with rfl | rfl | rfl | rfl
  · exact hx
  · exact hy
  · exact hx
  · exact hy

end Swap

/-! ## `partition` -/

section Partition

variable {l r : Int} {pivot : BitVec 32} {h0 h : Heap} {i j : Int}

/-- The loop invariant of `partition`: up to `i` the elements are below the pivot, from
there to `j` they are not, and the pivot is still at `r`. -/
structure LoopInv (l r : Int) (pivot : BitVec 32) (h0 : Heap) (i j : Int) (h : Heap) : Prop where
  lower : l - 1 ≤ i
  lag : i < j
  upper : j ≤ r
  acts : Acts (Set.Icc l r) h0 h
  last : h.cell r = h0.cell r
  small : ∀ x, l ≤ x → x ≤ i → (h.cell x).toInt < pivot.toInt
  large : ∀ x, i < x → x < j → pivot.toInt ≤ (h.cell x).toInt

/-- A round that leaves `A[j]` where it is. -/
theorem LoopInv.skip (hinv : LoopInv l r pivot h0 i j h) (hj : j < r)
    (hge : pivot.toInt ≤ (h.cell j).toInt) :
    LoopInv l r pivot h0 i (j + 1) (h.load j).2 := by
  have hlower := hinv.lower
  have hlag := hinv.lag
  have hmem : j ∈ Set.Icc l r := ⟨by omega, le_of_lt hj⟩
  refine ⟨hlower, by omega, hj, hinv.acts.trans (load_acts h hmem), hinv.last,
    hinv.small, fun x hx hxj => ?_⟩
  rcases lt_or_eq_of_le (Int.lt_add_one_iff.mp hxj) with hlt | rfl
  · exact hinv.large x hx hlt
  · exact hge

/-- A round that exchanges `A[j]` with the first element that is not below the pivot; this
is `A[j]` itself when there is none between `i` and `j`. -/
theorem LoopInv.exchange (hinv : LoopInv l r pivot h0 i j h) (hj : j < r)
    (hlt : (h.cell j).toInt < pivot.toInt) :
    LoopInv l r pivot h0 (i + 1) (j + 1) (swap (i + 1) j (h.load j).2) := by
  have hlower := hinv.lower
  have hlag := hinv.lag
  have hmem : j ∈ Set.Icc l r := ⟨by omega, le_of_lt hj⟩
  have hmem1 : i + 1 ∈ Set.Icc l r := ⟨by omega, by omega⟩
  have hacts : Acts (Set.Icc l r) h (swap (i + 1) j (h.load j).2) :=
    (load_acts h hmem).trans (swap_acts _ hmem1 hmem)
  refine ⟨by omega, by omega, hj, hinv.acts.trans hacts, ?_, fun x hx hxi => ?_,
    fun x hx hxj => ?_⟩
  · rw [swap_cell_other _ (by omega) (by omega)]
    exact hinv.last
  · rcases lt_or_eq_of_le hxi with hxi | rfl
    · rw [swap_cell_other _ (by omega) (by omega)]
      exact hinv.small x hx (by omega)
    · rw [swap_cell_left]
      exact hlt
  · rcases lt_or_eq_of_le (Int.lt_add_one_iff.mp hxj) with hxj | rfl
    · rw [swap_cell_other _ (by omega) (by omega)]
      exact hinv.large x (by omega) hxj
    · rw [swap_cell_right]
      exact hinv.large (i + 1) (by omega) hx

theorem partitionLoop_exchange (hj : j < r) (hlt : (h.cell j).slt pivot = true) :
    partitionLoop r pivot i j h =
      partitionLoop r pivot (i + 1) (j + 1) (swap (i + 1) j (h.load j).2) := by
  rw [partitionLoop, if_pos hj]
  exact if_pos hlt

theorem partitionLoop_skip (hj : j < r) (hge : ¬ (h.cell j).slt pivot = true) :
    partitionLoop r pivot i j h = partitionLoop r pivot i (j + 1) (h.load j).2 := by
  rw [partitionLoop, if_pos hj]
  exact if_neg hge

theorem slt_iff (v w : BitVec 32) : v.slt w = true ↔ v.toInt < w.toInt := by
  simp [BitVec.slt]

/-- The loop ends with the invariant at `j = r`. -/
theorem partitionLoop_spec (hinv : LoopInv l r pivot h0 i j h) :
    LoopInv l r pivot h0 (partitionLoop r pivot i j h).1 r (partitionLoop r pivot i j h).2 := by
  induction i, j, h using partitionLoop.induct r pivot with
  | case1 i j h hj v h1 hload hlt i1 ih =>
    cases hload
    rw [partitionLoop_exchange hj hlt]
    exact ih (hinv.exchange hj ((slt_iff _ _).mp hlt))
  | case2 i j h hj v h1 hload hge ih =>
    cases hload
    rw [partitionLoop_skip hj hge]
    exact ih (hinv.skip hj (not_lt.mp fun hlt => hge ((slt_iff _ _).mpr hlt)))
  | case3 i j h hj =>
    rw [partitionLoop, if_neg hj]
    obtain rfl : j = r := le_antisymm hinv.upper (not_lt.mp hj)
    exact hinv

/-- What `partition` does to the segment `[l, r]`: it returns the index `i` at which the
last element ends up, with the smaller elements before it and the others behind it. -/
structure PartitionSpec (l r : Int) (h : Heap) (i : Int) (h' : Heap) : Prop where
  lower : l ≤ i
  upper : i ≤ r
  acts : Acts (Set.Icc l r) h h'
  pivot : h'.cell i = h.cell r
  small : ∀ x, l ≤ x → x < i → (h'.cell x).toInt < (h'.cell i).toInt
  large : ∀ x, i < x → x ≤ r → (h'.cell i).toInt ≤ (h'.cell x).toInt

theorem partition_spec (hlr : l ≤ r) (h : Heap) :
    PartitionSpec l r h (partition l r h).1 (partition l r h).2 := by
  have hstart : LoopInv l r (h.cell r) h (l - 1) l (h.load r).2 :=
    ⟨le_rfl, by omega, hlr, load_acts h ⟨hlr, le_rfl⟩, rfl, fun x _ _ => by omega,
      fun x _ _ => by omega⟩
  have hend := partitionLoop_spec hstart
  have hpart : partition l r h =
      ((partitionLoop r (h.cell r) (l - 1) l (h.load r).2).1 + 1,
        swap ((partitionLoop r (h.cell r) (l - 1) l (h.load r).2).1 + 1) r
          (partitionLoop r (h.cell r) (l - 1) l (h.load r).2).2) := rfl
  rw [hpart]
  generalize (partitionLoop r (h.cell r) (l - 1) l (h.load r).2).1 = i at hend ⊢
  generalize (partitionLoop r (h.cell r) (l - 1) l (h.load r).2).2 = h1 at hend ⊢
  have hlower := hend.lower
  have hlag := hend.lag
  have hpivot : (swap (i + 1) r h1).cell (i + 1) = h.cell r := by
    rw [swap_cell_left, hend.last]
  refine ⟨by omega, by omega, ?_, hpivot, fun x hx hxi => ?_, fun x hx hxr => ?_⟩
  · exact hend.acts.trans (swap_acts h1 ⟨by omega, by omega⟩ ⟨hlr, le_rfl⟩)
  · rw [hpivot, swap_cell_other _ (by omega) (by omega)]
    exact hend.small x hx (by omega)
  · rw [hpivot]
    rcases lt_or_eq_of_le hxr with hxr | rfl
    · rw [swap_cell_other _ (by omega) (by omega)]
      exact hend.large x (by omega) hxr
    · rw [swap_cell_right]
      exact hend.large (i + 1) (by omega) (by omega)

/-- `partition(A, l, r)` terminates, as a total function, and returns the index in
`[l, r]` at which the former `A[r]` now separates the smaller elements from the others;
it has only rearranged and accessed the elements of `A[l..r]`. -/
theorem partition_contract (hlr : l ≤ r) (h : Heap) :
    ∃ i h', partition l r h = (i, h') ∧ l ≤ i ∧ i ≤ r ∧
      h'.cell i = h.cell r ∧
      (∀ x, l ≤ x → x < i → (h'.cell x).toInt < (h'.cell i).toInt) ∧
      (∀ x, i < x → x ≤ r → (h'.cell i).toInt ≤ (h'.cell x).toInt) ∧
      Rearranged (Set.Icc l r) h.cell h'.cell ∧
      (∀ x, x < l ∨ r < x → h'.cell x = h.cell x) ∧
      ∃ new, h'.log = h.log ++ new ∧ ∀ a, a ∈ new → l ≤ a.index ∧ a.index ≤ r := by
  have hspec := partition_spec hlr h
  refine ⟨_, _, rfl, hspec.lower, hspec.upper, hspec.pivot, hspec.small, hspec.large,
    hspec.acts.rearranged, fun x hx => ?_, hspec.acts.touches⟩
  apply hspec.acts.cell_eq
  rintro ⟨hlx, hxr⟩
  cases hx with
  | inl hx => exact not_le.mpr hx hlx
  | inr hx => exact not_le.mpr hx hxr

/-- The array 3, 1, 2 with the pivot 2. -/
theorem partition_contract_three :
    (0 : Int) ≤ 2 ∧ ∃ i h',
      partition 0 2 ⟨fun x => if x = 0 then 3#32 else if x = 1 then 1#32 else 2#32, []⟩ =
        (i, h') ∧ h'.cell i = 2#32 := by
  obtain ⟨i, h', hpart, -, -, hpivot, -⟩ := partition_contract (l := 0) (r := 2) (by decide)
    ⟨fun x => if x = 0 then 3#32 else if x = 1 then 1#32 else 2#32, []⟩
  exact ⟨by decide, i, h', hpart, hpivot⟩

end Partition

/-! ## `qsort` -/

/-- The values of an `int`. -/
def InInt (x : Int) : Prop := -2 ^ 31 ≤ x ∧ x < 2 ^ 31

instance (x : Int) : Decidable (InInt x) := inferInstanceAs (Decidable (_ ∧ _))

/-- `qsort`, with the array where it returns, or where an index overflows. -/
def qsort (l r : Int) (h : Heap) : Except Heap Heap :=
  if _ : l < r then
    let k := (partition l r h).1
    let h1 := (partition l r h).2
    if InInt (k - 1) then do
      let h2 ← qsort l (k - 1) h1
      if InInt (k + 1) then qsort (k + 1) r h2 else .error h2
    else .error h1
  else .ok h
termination_by (r - l + 1).toNat
decreasing_by
  -- both sides are shorter, because the pivot is in neither
  all_goals
    have hspec := partition_spec (le_of_lt ‹l < r›) h
    have := hspec.lower
    have := hspec.upper
    omega

/-- The array where a sort returned or stopped. -/
def reached : Except Heap Heap → Heap
  | .ok h => h
  | .error h => h

/-- The elements of `[l, r]` are in non-decreasing signed order. -/
def Sorted (l r : Int) (h : Heap) : Prop :=
  MonotoneOn (fun i => (h.cell i).toInt) (Set.Icc l r)

/-- What `qsort` does to the segment `[l, r]`. -/
structure QsortSpec (l r : Int) (h h' : Heap) : Prop where
  acts : Acts (Set.Icc l r) h h'
  sorted : Sorted l r h'

theorem PartitionSpec.before_subset {l r k : Int} {h h1 : Heap} (hp : PartitionSpec l r h k h1) :
    Set.Icc l (k - 1) ⊆ Set.Icc l r :=
  Set.Icc_subset_Icc le_rfl (by have := hp.upper; omega)

theorem PartitionSpec.behind_subset {l r k : Int} {h h1 : Heap} (hp : PartitionSpec l r h k h1) :
    Set.Icc (k + 1) r ⊆ Set.Icc l r :=
  Set.Icc_subset_Icc (by have := hp.lower; omega) le_rfl

/-- Sorting both sides of a partitioned segment sorts the segment. -/
theorem PartitionSpec.join {l r k : Int} {h h1 h2 h3 : Heap} (hp : PartitionSpec l r h k h1)
    (hleft : QsortSpec l (k - 1) h1 h2) (hright : QsortSpec (k + 1) r h2 h3) :
    QsortSpec l r h h3 := by
  have hlower := hp.lower
  have hupper := hp.upper
  -- the frame: each side is left alone by the sort of the other, the pivot by both
  have hkeep1 : ∀ i, k - 1 < i → h2.cell i = h1.cell i := fun i hi =>
    hleft.acts.cell_eq fun hmem => not_le.mpr hi hmem.2
  have hkeep2 : ∀ i, i < k + 1 → h3.cell i = h2.cell i := fun i hi =>
    hright.acts.cell_eq fun hmem => not_le.mpr hi hmem.1
  have hpivot : h3.cell k = h1.cell k := by
    rw [hkeep2 k (by omega), hkeep1 k (by omega)]
  constructor
  · exact (hp.acts.trans (hleft.acts.mono hp.before_subset)).trans
      (hright.acts.mono hp.behind_subset)
  · apply monotoneOn_join (k := k)
    · intro i hi j hj hij
      have hik : i < k := hi.2
      have hjk : j < k := hj.2
      show (h3.cell i).toInt ≤ (h3.cell j).toInt
      rw [hkeep2 i (by omega), hkeep2 j (by omega)]
      exact hleft.sorted ⟨hi.1.1, by omega⟩ ⟨hj.1.1, by omega⟩ hij
    · intro i hi j hj hij
      have hki : k < i := hi.2
      exact hright.sorted ⟨hki, hi.1.2⟩ ⟨lt_of_lt_of_le hki hij, hj.1.2⟩ hij
    · intro i hi hik
      have hall : ∀ x, x ∈ Set.Icc l (k - 1) → (h1.cell x).toInt ≤ (h1.cell k).toInt :=
        fun x hx => le_of_lt (hp.small x hx.1 (by have := hx.2; omega))
      show (h3.cell i).toInt ≤ (h3.cell k).toInt
      rw [hkeep2 i (by omega), hpivot]
      exact hleft.acts.rearranged.forall_mem (p := fun v => v.toInt ≤ (h1.cell k).toInt) hall
        ⟨hi.1, by omega⟩
    · intro i hi hki
      have hall : ∀ x, x ∈ Set.Icc (k + 1) r → (h1.cell k).toInt ≤ (h2.cell x).toInt := by
        intro x hx
        have hkx : k < x := hx.1
        rw [hkeep1 x (by omega)]
        exact hp.large x hkx hx.2
      show (h3.cell k).toInt ≤ (h3.cell i).toInt
      rw [hpivot]
      exact hright.acts.rearranged.forall_mem (p := fun v => (h1.cell k).toInt ≤ v.toInt) hall
        ⟨hki, hi.2⟩

section Sorting

variable {l r : Int} {h : Heap}

theorem qsort_long (hlt : l < r) (hbefore : InInt ((partition l r h).1 - 1)) :
    qsort l r h = (qsort l ((partition l r h).1 - 1) (partition l r h).2).bind fun h2 =>
      if InInt ((partition l r h).1 + 1) then qsort ((partition l r h).1 + 1) r h2
      else .error h2 := by
  rw [qsort, dif_pos hlt]
  exact if_pos hbefore

theorem qsort_before (hlt : l < r) (hbefore : ¬ InInt ((partition l r h).1 - 1)) :
    qsort l r h = .error (partition l r h).2 := by
  rw [qsort, dif_pos hlt]
  exact if_neg hbefore

theorem qsort_short (hge : ¬ l < r) (h : Heap) : qsort l r h = .ok h := by
  rw [qsort, dif_neg hge]

/-- The sorts of the two sides, whether they return or not. -/
theorem acts_sides (hlt : l < r) (hbefore : InInt ((partition l r h).1 - 1))
    (hleft : Acts (Set.Icc l ((partition l r h).1 - 1)) (partition l r h).2
      (reached (qsort l ((partition l r h).1 - 1) (partition l r h).2)))
    (hright : ∀ h2, Acts (Set.Icc ((partition l r h).1 + 1) r) h2
      (reached (qsort ((partition l r h).1 + 1) r h2))) :
    Acts (Set.Icc l r) (partition l r h).2 (reached (qsort l r h)) := by
  have hp := partition_spec hlt.le h
  rw [qsort_long hlt hbefore]
  have hacts := hleft.mono hp.before_subset
  cases hresult : qsort l ((partition l r h).1 - 1) (partition l r h).2 with
  | error h2 =>
    rw [hresult] at hacts
    exact hacts
  | ok h2 =>
    rw [hresult] at hacts
    show Acts _ _ (reached (if InInt ((partition l r h).1 + 1) then
      qsort ((partition l r h).1 + 1) r h2 else .error h2))
    split
    · exact hacts.trans ((hright h2).mono hp.behind_subset)
    · exact hacts

/-- Whether an index overflows or not, only the segment is accessed and rearranged. -/
theorem qsort_acts (l r : Int) (h : Heap) : Acts (Set.Icc l r) h (reached (qsort l r h)) := by
  induction l, r, h using qsort.induct with
  | case1 l r h hlt k h1 hbefore ihLeft ihRight =>
    exact (partition_spec hlt.le h).acts.trans (acts_sides hlt hbefore ihLeft ihRight)
  | case2 l r h hlt k hbefore =>
    rw [qsort_before hlt hbefore]
    exact (partition_spec hlt.le h).acts
  | case3 l r h hge =>
    rw [qsort_short hge]
    exact Acts.refl _ h

/-- What a sort of more than one element does after its first partition. -/
theorem acts_after_partition (hlt : l < r) (h : Heap) :
    Acts (Set.Icc l r) (partition l r h).2 (reached (qsort l r h)) := by
  by_cases hbefore : InInt ((partition l r h).1 - 1)
  · exact acts_sides hlt hbefore (qsort_acts _ _ _) fun h2 => qsort_acts _ _ h2
  · rw [qsort_before hlt hbefore]
    exact Acts.refl _ _

/-- No index of a sort overflows if the pivot cannot end up at the largest `int`. -/
theorem qsort_spec (hl : -2 ^ 31 < l) (hr : l < r → r < 2 ^ 31 - 1) (h : Heap) :
    ∃ h', qsort l r h = .ok h' ∧ QsortSpec l r h h' := by
  induction l, r, h using qsort.induct with
  | case1 l r h hlt k h1 hbefore ihLeft ihRight =>
    have hp := partition_spec hlt.le h
    have hlower : l ≤ k := hp.lower
    have hupper : k ≤ r := hp.upper
    have hmax := hr hlt
    have hbehind : InInt (k + 1) := ⟨by omega, by omega⟩
    obtain ⟨h2, hleft, hleftSpec⟩ := ihLeft hl fun _ => by omega
    obtain ⟨h3, hright, hrightSpec⟩ := ihRight h2 (by omega) fun _ => hmax
    refine ⟨h3, ?_, hp.join hleftSpec hrightSpec⟩
    rw [qsort_long hlt hbefore, hleft]
    exact (if_pos hbehind).trans hright
  | case2 l r h hlt k hbefore =>
    have hp := partition_spec hlt.le h
    have hlower : l ≤ k := hp.lower
    have hupper : k ≤ r := hp.upper
    have hmax := hr hlt
    exact absurd ⟨by omega, by omega⟩ hbefore
  | case3 l r h hge =>
    refine ⟨h, qsort_short hge h, Acts.refl _ h, fun i hi j hj _ => ?_⟩
    -- at most one index
    obtain rfl : i = j := by
      have := hi.1
      have := hi.2
      have := hj.1
      have := hj.2
      omega
    exact le_rfl

/-- `qsort(A, l, r)` with indices below the largest `int` terminates, as a total function,
without an overflow and with `A[l..r]` sorted, and has only rearranged and accessed the
elements of `A[l..r]`. -/
theorem qsort_sorts (hl : 0 ≤ l) (hr : l < r → r < 2 ^ 31 - 1) (h : Heap) :
    ∃ h', qsort l r h = .ok h' ∧ Sorted l r h' ∧
      Rearranged (Set.Icc l r) h.cell h'.cell ∧
      (∀ i, i < l ∨ r < i → h'.cell i = h.cell i) ∧
      ∃ new, h'.log = h.log ++ new ∧ ∀ x, x ∈ new → l ≤ x.index ∧ x.index ≤ r := by
  obtain ⟨h', hok, hspec⟩ := qsort_spec (by omega) hr h
  refine ⟨h', hok, hspec.sorted, hspec.acts.rearranged, fun i hi => ?_, hspec.acts.touches⟩
  apply hspec.acts.cell_eq
  rintro ⟨hli, hir⟩
  rcases hi with hi | hi
  · exact not_le.mpr hi hli
  · exact not_le.mpr hi hir

/-- Three elements, sorted at the indices 5 to 7. -/
theorem qsort_sorts_three :
    (0 : Int) ≤ 5 ∧ (7 : Int) < 2 ^ 31 - 1 ∧
    ∃ h', qsort 5 7 ⟨fun x => if x = 5 then 3#32 else if x = 6 then 1#32 else 2#32, []⟩ =
      .ok h' ∧ Sorted 5 7 h' := by
  obtain ⟨h', hok, hsorted, _⟩ := qsort_sorts (l := 5) (r := 7) (by decide) (by decide)
    ⟨fun x => if x = 5 then 3#32 else if x = 6 then 1#32 else 2#32, []⟩
  exact ⟨by decide, by decide, h', hok, hsorted⟩

/-- The elements 1 and 2 at the last two indices: the pivot stays at the largest `int`. -/
theorem qsort_overflows :
    ¬ ∀ (l r : Int) (h : Heap), 0 ≤ l → r < 2 ^ 31 →
      ∃ h', qsort l r h = .ok h' ∧ Sorted l r h' := by
  intro hall
  let h : Heap := ⟨fun x => if x = 2147483646 then 1#32 else 2#32, []⟩
  have hlt : (2147483646 : Int) < 2147483647 := by decide
  have hk : (partition 2147483646 2147483647 h).1 = 2147483647 := by
    show (partitionLoop 2147483647 (h.cell 2147483647) 2147483645 2147483646
      (h.load 2147483647).2).1 + 1 = 2147483647
    rw [partitionLoop_exchange hlt (by decide), partitionLoop, if_neg (by decide)]
    decide
  obtain ⟨h', hok, _⟩ := hall 2147483646 2147483647 h (by decide) (by decide)
  rw [qsort_long hlt (by rw [hk]; decide), hk, qsort_short (by decide)] at hok
  cases hok

end Sorting

end Qsort

end MicroRiscv
