import Mathlib.Tactic.TypeStar

/-!
# Start/finish handshakes

A unit with inputs that change in every cycle is idle until it accepts a start, is then
occupied for a number of cycles and ends with a pulse after which it is idle again.

1. `run` drives a step function with a sequence of inputs; `run_congr` says which changes
   of the inputs go unnoticed.
2. `Lawful` are the rules of the handshake on the cycles of a run, `Serves` an accepted
   start with its latency. `Lawful.ends_iff`: it has exactly one pulse, at that latency.
-/

namespace Handshake

/-! ## 1. Runs over inputs -/

section Run

variable {S I : Type*} {step : S → I → S} {s : S}

/-- The state before cycle `n`. -/
def run (step : S → I → S) (s : S) (inp : Nat → I) : Nat → S
  | 0 => s
  | n + 1 => step (run step s inp n) (inp n)

theorem run_succ (inp : Nat → I) (n : Nat) :
    run step s inp (n + 1) = step (run step s inp n) (inp n) := rfl

/-- Inputs that every step of the run treats alike give the same run. -/
theorem run_congr {inp inp' : Nat → I}
    (h : ∀ n, step (run step s inp n) (inp' n) = step (run step s inp n) (inp n)) (n : Nat) :
    run step s inp' n = run step s inp n := by
  induction n with
  | zero => rfl
  | succ n ih => rw [run_succ, run_succ, ih, h n]

/-- What holds at first and is kept by every step holds in every cycle. -/
theorem run_invariant {P : S → Prop} (h0 : P s) (hstep : ∀ t i, P t → P (step t i))
    (inp : Nat → I) (n : Nat) : P (run step s inp n) := by
  induction n with
  | zero => exact h0
  | succ n ih => exact hstep _ _ ih

end Run

/-! ## 2. The handshake -/

section Cycles

variable {idle finish start : Nat → Prop}

/-- The rules: an idle unit waits for a start, and is idle again after the pulse. -/
structure Lawful (idle finish start : Nat → Prop) : Prop where
  waits : ∀ n, idle n → ¬ start n → idle (n + 1)
  returns : ∀ n, finish n → idle (n + 1)
  not_finish : ∀ n, idle n → ¬ finish n

/-- A start that is not ignored. -/
def Accepts (idle start : Nat → Prop) (n : Nat) : Prop := idle n ∧ start n

/-- The start accepted in cycle `n` is answered `l` cycles later. -/
structure Serves (idle finish : Nat → Prop) (n l : Nat) : Prop where
  pos : 1 ≤ l
  occupied : ∀ i, n < i → i < n + l → ¬ idle i ∧ ¬ finish i
  ends : finish (n + l)

/-- The pulse in cycle `m` answers the start of cycle `n`: no start is accepted between. -/
def Ends (idle finish start : Nat → Prop) (n m : Nat) : Prop :=
  n < m ∧ finish m ∧ ∀ i, n < i → i < m → ¬ Accepts idle start i

theorem Lawful.idle_until (h : Lawful idle finish start) {k m : Nat} (hkm : k ≤ m)
    (hidle : idle k) (hno : ∀ i, k ≤ i → i < m → ¬ Accepts idle start i) : idle m := by
  induction hkm with
  | refl => exact hidle
  | @step m hkm ih =>
    have hm : idle m := ih fun i hi hlt => hno i hi (Nat.lt_succ_of_lt hlt)
    exact h.waits m hm fun hs => hno m hkm (Nat.lt_succ_self m) ⟨hm, hs⟩

/-- An accepted start is answered by one pulse, and no other pulse can be its answer. -/
theorem Lawful.ends_iff (h : Lawful idle finish start) {n l : Nat}
    (hs : Serves idle finish n l) {m : Nat} : Ends idle finish start n m ↔ m = n + l := by
  have hpos := hs.pos
  constructor
  · rintro ⟨hlt, hfin, hno⟩
    rcases Nat.lt_trichotomy m (n + l) with hbefore | heq | hafter
    · exact absurd hfin (hs.occupied m hlt hbefore).2
    · exact heq
    · -- after the pulse the unit stays idle until a start is accepted
      have hidle := h.returns _ hs.ends
      refine absurd hfin (h.not_finish m (h.idle_until hafter hidle fun i hi him => ?_))
      exact hno i (by omega) him
  · rintro rfl
    exact ⟨by omega, hs.ends, fun i hi hlt hacc => (hs.occupied i hi hlt).1 hacc.1⟩

end Cycles

end Handshake
