import Mathlib.Algebra.BigOperators.Group.Finset.Basic
import Mathlib.Algebra.Order.BigOperators.Group.Finset

/-!
# Division by repeated subtraction

A loop divides by subtracting: each round subtracts the divisor from the remainder if it
fits and counts one, and the loop ends with the round after which the divisor no longer
fits. The divisor is read anew in every round, so it is a sequence `d 1, d 2, …`.

1. `Stops` says which round is the last one, `count` how often was subtracted by then.
2. `exists_stops_count_iff`: the loop ends with the count `q` exactly when `Counts` holds,
   a condition on the partial sums of the divisors alone.
3. `counts_const`, `stops_const`, `count_const`: a fixed divisor is counted as often as the
   division says, in as many rounds, or one.
-/

namespace RepeatedSubtraction

/-! ## 1. The loop -/

/-- What the first `k` rounds subtract. -/
def total (d : Nat → Nat) (k : Nat) : Nat := ∑ i ∈ Finset.range k, d (i + 1)

/-- The divisor of round `k` fits in that round and once more after it. -/
def Continues (d : Nat → Nat) (a k : Nat) : Prop := total d k + d k ≤ a

/-- Dividing `a`, the loop ends with round `k`. -/
structure Stops (d : Nat → Nat) (a k : Nat) : Prop where
  pos : 1 ≤ k
  before : ∀ i, 1 ≤ i → i < k → Continues d a i
  last : ¬ Continues d a k

/-- The number of subtractions when the loop ends with round `k`: the last round counts
only if its divisor still fits once. -/
def count (d : Nat → Nat) (a k : Nat) : Nat := if total d k ≤ a then k else k - 1

/-- The first `q` divisors fit into `a`, the loop does not end before them, and either the
last of them or the next one does not fit into what is left. -/
def Counts (d : Nat → Nat) (a q : Nat) : Prop :=
  (∀ i, 1 ≤ i → i < q → Continues d a i) ∧ total d q ≤ a ∧
    (a < total d (q + 1) ∨ (1 ≤ q ∧ a < total d q + d q))

variable {d : Nat → Nat} {a k : Nat}

@[simp] theorem total_zero (d : Nat → Nat) : total d 0 = 0 := rfl

theorem total_succ (d : Nat → Nat) (k : Nat) : total d (k + 1) = total d k + d (k + 1) :=
  Finset.sum_range_succ _ _

theorem total_mono (d : Nat → Nat) {j k : Nat} (h : j ≤ k) : total d j ≤ total d k :=
  Finset.sum_le_sum_of_subset (Finset.range_mono h)

/-- What was subtracted before the last round fits. -/
theorem Stops.total_pred_le (h : Stops d a k) : total d (k - 1) ≤ a := by
  rcases Nat.eq_zero_or_pos (k - 1) with h0 | hpos
  · rw [h0, total_zero]
    exact Nat.zero_le a
  · have hlt : k - 1 < k := Nat.sub_lt h.pos Nat.one_pos
    exact Nat.le_trans (Nat.le_add_right _ _) (h.before _ hpos hlt)

/-- A divisor of zero never ends the loop. -/
theorem Stops.divisor_pos (h : Stops d a k) : 0 < d k := by
  rw [Nat.pos_iff_ne_zero]
  intro hzero
  have hk : k - 1 + 1 = k := Nat.sub_add_cancel h.pos
  have htotal : total d k = total d (k - 1) := by
    rw [← hk, total_succ, hk, hzero, Nat.add_zero]
  apply h.last
  unfold Continues
  rw [hzero, Nat.add_zero, htotal]
  exact h.total_pred_le

/-- The loop ends, or it never does. -/
theorem stops_or_continues (d : Nat → Nat) (a : Nat) :
    (∃ k, Stops d a k) ∨ ∀ k, 1 ≤ k → Continues d a k := by
  classical
  by_cases hex : ∃ k, 1 ≤ k ∧ ¬ Continues d a k
  · have hfind := Nat.find_spec hex
    refine .inl ⟨Nat.find hex, hfind.1, fun i hi hlt => ?_, hfind.2⟩
    by_contra hstop
    exact Nat.find_min hex hlt ⟨hi, hstop⟩
  · refine .inr fun k hk => ?_
    by_contra hstop
    exact hex ⟨k, hk, hstop⟩

/-! ## 2. The count -/

/-- The loop ends after `q` subtractions exactly when `q` counts the divisors. -/
theorem exists_stops_count_iff {q : Nat} :
    (∃ k, Stops d a k ∧ count d a k = q) ↔ Counts d a q := by
  constructor
  · rintro ⟨k, hstop, rfl⟩
    have hlast : a < total d k + d k := Nat.lt_of_not_le hstop.last
    unfold count
    split
    · next hfit => exact ⟨hstop.before, hfit, .inr ⟨hstop.pos, hlast⟩⟩
    · next hfit =>
      refine ⟨fun i hi hlt => hstop.before i hi (by omega), hstop.total_pred_le, .inl ?_⟩
      rw [Nat.sub_add_cancel hstop.pos]
      exact Nat.lt_of_not_le hfit
  · rintro ⟨hbefore, hfit, hend⟩
    by_cases hq : 1 ≤ q ∧ a < total d q + d q
    · exact ⟨q, ⟨hq.1, hbefore, Nat.not_le.mpr hq.2⟩, if_pos hfit⟩
    · -- the loop survives round q, so it is the next divisor that does not fit
      have hnext : a < total d (q + 1) := hend.resolve_right hq
      refine ⟨q + 1, ⟨Nat.le_add_left 1 q, ?_, ?_⟩, if_neg (Nat.not_le.mpr hnext)⟩
      · intro i hi hlt
        rcases Nat.lt_succ_iff_lt_or_eq.mp hlt with hlt | rfl
        · exact hbefore i hi hlt
        · exact Nat.le_of_not_lt fun hover => hq ⟨hi, hover⟩
      · exact Nat.not_le.mpr (Nat.lt_of_lt_of_le hnext (Nat.le_add_right _ _))

theorem count_le (d : Nat → Nat) (a k : Nat) : count d a k ≤ k := by
  unfold count
  split
  · exact Nat.le_refl k
  · exact Nat.sub_le k 1

/-! ## 3. Two kinds of divisors -/

theorem total_const (b k : Nat) : total (fun _ => b) k = k * b := by
  simp [total]

/-- A fixed divisor is counted as often as it fits. -/
theorem counts_const {b : Nat} (hb : 0 < b) (a : Nat) : Counts (fun _ => b) a (a / b) := by
  have hdiv : a / b * b ≤ a := Nat.div_mul_le_self a b
  have hlt : a < (a / b + 1) * b := by
    rw [Nat.mul_comm]
    exact Nat.lt_mul_div_succ a hb
  refine ⟨fun i _ hi => ?_, by rwa [total_const], .inl (by rwa [total_const])⟩
  have hle : (i + 1) * b ≤ a / b * b := Nat.mul_le_mul_right b hi
  unfold Continues
  rw [total_const, ← Nat.succ_mul]
  exact Nat.le_trans hle hdiv

theorem continues_const {b : Nat} (hb : 0 < b) :
    Continues (fun _ => b) a k ↔ k + 1 ≤ a / b := by
  unfold Continues
  rw [total_const, ← Nat.succ_mul, Nat.le_div_iff_mul_le hb]

/-- With a fixed divisor the loop takes a round for each time it fits, and at least one. -/
theorem stops_const {b : Nat} (hb : 0 < b) (a : Nat) : Stops (fun _ => b) a (max 1 (a / b)) where
  pos := Nat.le_max_left 1 _
  before i _ hlt := (continues_const hb).mpr (by omega)
  last hc := by
    have := (continues_const hb).mp hc
    omega

theorem count_const {b : Nat} (hb : 0 < b) (a : Nat) :
    count (fun _ => b) a (max 1 (a / b)) = a / b := by
  have hfit : total (fun _ => b) (max 1 (a / b)) ≤ a ↔ max 1 (a / b) ≤ a / b := by
    rw [total_const, Nat.le_div_iff_mul_le hb]
  unfold count
  split
  · next h => exact Nat.le_antisymm (hfit.mp h) (Nat.le_max_right 1 _)
  · next h =>
    have hzero : a / b < 1 := Nat.lt_of_not_le fun hle => h (hfit.mpr (Nat.max_le.mpr ⟨hle, le_rfl⟩))
    rw [Nat.max_eq_left hzero.le]
    exact (Nat.lt_one_iff.mp hzero).symm

/-- When of two divisors in a row at least one is positive, half the rounds subtract. -/
theorem le_total_of_pairs (h : ∀ i, 1 ≤ i → 1 ≤ d i + d (i + 1)) (m : Nat) :
    m ≤ total d (2 * m) := by
  induction m with
  | zero => exact Nat.zero_le _
  | succ m ih =>
    have hpair := h (2 * m + 1) (Nat.le_add_left 1 _)
    rw [Nat.mul_succ, total_succ, total_succ]
    omega

/-- Then the count stays below any even bound whose half exceeds `a`. -/
theorem Stops.count_lt_of_pairs (hs : Stops d a k) (h : ∀ i, 1 ≤ i → 1 ≤ d i + d (i + 1))
    {m : Nat} (hm : a < m) : count d a k < 2 * m := by
  have hover : a < total d (2 * m) := Nat.lt_of_lt_of_le hm (le_total_of_pairs h m)
  have hsmall : ∀ j, total d j ≤ a → j < 2 * m := by
    intro j hj
    by_contra hge
    have := total_mono d (Nat.le_of_not_lt hge)
    omega
  unfold count
  split
  · next hfit => exact hsmall k hfit
  · exact hsmall (k - 1) hs.total_pred_le

end RepeatedSubtraction
