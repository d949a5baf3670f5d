import Mathlib.Algebra.BigOperators.Group.Finset.Basic
import Mathlib.Algebra.Order.BigOperators.Group.Finset
import Mathlib.Logic.Function.Iterate

/-!
# Runs in blocks of steps

A machine that takes several steps for one step of a coarser one. Block `k` of a run takes
`cost k` steps, so it begins at `clock cost k`. `R k` is the relation at the beginning of block
`k`, `D k` what holds in each of its steps.

1. `exists_block`: each step of a run lies in a block.
2. `RunsIn.succ`: a run grows by a block.
3. `runsIn_of_blocks`, `exists_runsIn`: a run is made of blocks if each of them leads to the
   beginning of the next one, with costs that are known or that depend on the run.
-/

namespace Stuttering

/-- The step with which block `k` begins. -/
def clock (cost : Nat → Nat) (k : Nat) : Nat := ∑ i ∈ Finset.range k, cost i

@[simp] theorem clock_zero (cost : Nat → Nat) : clock cost 0 = 0 := rfl

theorem clock_succ (cost : Nat → Nat) (k : Nat) : clock cost (k + 1) = clock cost k + cost k :=
  Finset.sum_range_succ _ _

theorem clock_congr {cost cost' : Nat → Nat} {k : Nat} (h : ∀ i, i < k → cost i = cost' i) :
    clock cost k = clock cost' k :=
  Finset.sum_congr rfl fun i hi => h i (Finset.mem_range.mp hi)

/-! ## 1. Every step lies in a block -/

theorem exists_block {cost : Nat → Nat} {K n : Nat} (h : n < clock cost K) :
    ∃ k, k < K ∧ clock cost k ≤ n ∧ n < clock cost (k + 1) := by
  induction K with
  | zero => exact absurd h (Nat.not_lt_zero n)
  | succ K ih =>
    rcases Nat.lt_or_ge n (clock cost K) with hlt | hge
    · obtain ⟨k, hk, hblock⟩ := ih hlt
      exact ⟨k, Nat.lt_succ_of_lt hk, hblock⟩
    · exact ⟨K, Nat.lt_succ_self K, hge, h⟩

/-! ## 2. Growing runs -/

variable {σ : Type*}

/-- The run from `s` consists of `K` blocks. -/
structure RunsIn (step : σ → σ) (R D : Nat → σ → Prop) (cost : Nat → Nat) (K : Nat) (s : σ) :
    Prop where
  begins : ∀ k, k ≤ K → R k (step^[clock cost k] s)
  during : ∀ k, k < K → ∀ n, clock cost k ≤ n → n < clock cost (k + 1) → D k (step^[n] s)

variable {step : σ → σ} {R D : Nat → σ → Prop} {cost cost' : Nat → Nat} {K : Nat} {s : σ}

theorem RunsIn.zero (h : R 0 s) : RunsIn step R D cost 0 s where
  begins k hk := by
    obtain rfl := Nat.le_zero.mp hk
    exact h
  during k hk := absurd hk (Nat.not_lt_zero k)

/-- `m` steps that lead from the beginning of block `k` to the beginning of the next one. -/
structure Block (step : σ → σ) (R D : Nat → σ → Prop) (k m : Nat) (s : σ) : Prop where
  during : ∀ j, j < m → D k (step^[j] s)
  next : R (k + 1) (step^[m] s)

theorem RunsIn.succ (h : RunsIn step R D cost K s)
    (hb : Block step R D K (cost K) (step^[clock cost K] s)) : RunsIn step R D cost (K + 1) s where
  begins k hk := by
    rcases Nat.lt_or_eq_of_le hk with hlt | rfl
    · exact h.begins k (Nat.le_of_lt_succ hlt)
    · rw [clock_succ, Nat.add_comm (clock cost K), Function.iterate_add_apply]
      exact hb.next
  during k hk n hle hlt := by
    rcases Nat.lt_succ_iff_lt_or_eq.mp hk with hk | rfl
    · exact h.during k hk n hle hlt
    · obtain ⟨j, rfl⟩ := Nat.exists_eq_add_of_le hle
      rw [clock_succ] at hlt
      rw [Nat.add_comm (clock cost k), Function.iterate_add_apply]
      exact hb.during j (Nat.lt_of_add_lt_add_left hlt)

/-- Only the costs of the blocks there are count. -/
theorem RunsIn.congr (h : RunsIn step R D cost K s) (hc : ∀ k, k < K → cost k = cost' k) :
    RunsIn step R D cost' K s where
  begins k hk := by
    rw [← clock_congr fun i hi => hc i (Nat.lt_of_lt_of_le hi hk)]
    exact h.begins k hk
  during k hk := by
    rw [← clock_congr fun i hi => hc i (Nat.lt_trans hi hk),
      ← clock_congr fun i hi => hc i (Nat.lt_of_lt_of_le hi hk)]
    exact h.during k hk

/-- What holds in the steps of every block holds in every step before the last beginning. -/
theorem RunsIn.before (h : RunsIn step R D cost K s) {n : Nat} (hn : n < clock cost K) :
    ∃ k, k < K ∧ D k (step^[n] s) := by
  obtain ⟨k, hk, hle, hlt⟩ := exists_block hn
  exact ⟨k, hk, h.during k hk n hle hlt⟩

/-- A block of a run. -/
theorem RunsIn.block (h : RunsIn step R D cost K s) {k : Nat} (hk : k < K) :
    Block step R D k (cost k) (step^[clock cost k] s) where
  during j hj := by
    rw [← Function.iterate_add_apply, Nat.add_comm]
    apply h.during k hk _ (Nat.le_add_right _ _)
    rw [clock_succ]
    exact Nat.add_lt_add_left hj _
  next := by
    rw [← Function.iterate_add_apply, Nat.add_comm (cost k), ← clock_succ]
    exact h.begins (k + 1) hk

/-! ## 3. Runs from blocks -/

theorem runsIn_of_blocks (h0 : R 0 s)
    (h : ∀ k, k < K → ∀ t, R k t → Block step R D k (cost k) t) : RunsIn step R D cost K s := by
  induction K with
  | zero => exact .zero h0
  | succ K ih =>
    have hrun := ih fun k hk => h k (Nat.lt_succ_of_lt hk)
    exact hrun.succ (h K (Nat.lt_succ_self K) _ (hrun.begins K le_rfl))

/-- The costs need not be functions of the index: `C k` is what is known of the cost of block
`k`. -/
theorem exists_runsIn {C : Nat → Nat → Prop} (h0 : R 0 s)
    (h : ∀ k, k < K → ∀ t, R k t → ∃ m, C k m ∧ Block step R D k m t) :
    ∃ cost, (∀ k, k < K → C k (cost k)) ∧ RunsIn step R D cost K s := by
  induction K with
  | zero => exact ⟨fun _ => 0, fun k hk => absurd hk (Nat.not_lt_zero k), .zero h0⟩
  | succ K ih =>
    obtain ⟨cost, hcost, hrun⟩ := ih fun k hk => h k (Nat.lt_succ_of_lt hk)
    obtain ⟨m, hm, hblock⟩ := h K (Nat.lt_succ_self K) _ (hrun.begins K le_rfl)
    -- the cost of a block is known when the run in front of it is
    have hlast : Function.update cost K m K = m := Function.update_self K m cost
    have hother : ∀ k, k < K → cost k = Function.update cost K m k :=
      fun k hk => (Function.update_of_ne (Nat.ne_of_lt hk) m cost).symm
    refine ⟨Function.update cost K m, fun k hk => ?_, (hrun.congr hother).succ ?_⟩
    · rcases Nat.lt_succ_iff_lt_or_eq.mp hk with hk | rfl
      · rw [← hother k hk]
        exact hcost k hk
      · rw [hlast]
        exact hm
    · rw [hlast, ← clock_congr hother]
      exact hblock

end Stuttering
