import Mathlib.Logic.Function.Iterate
import Mathlib.Tactic.TypeStar

/-!
# Runs of a deterministic machine up to a condition

`Until step P Q s`: from `s` the machine reaches a state with `Q`, and every state before
it has `P`. It says at once that a piece of code ends, how it ends and what holds on the
way. The rules put pieces one behind the other (`bind`), iterate them (`loop`) and read
the numbers of steps off again (`exists_iterate`). `First step stop s t` is the first state
with `stop`, which a run has at most one of.
-/

variable {S : Type*}

inductive Until (step : S → S) (P Q : S → Prop) : S → Prop
  | done {s : S} : Q s → Until step P Q s
  | next {s : S} : P s → Until step P Q (step s) → Until step P Q s

namespace Until

variable {step : S → S} {P P' Q Q' R : S → Prop} {s : S}

theorem mono (h : Until step P Q s) (hP : ∀ t, P t → P' t) (hQ : ∀ t, Q t → Q' t) :
    Until step P' Q' s := by
  induction h with
  | done hq => exact done (hQ _ hq)
  | next hp _ ih => exact next (hP _ hp) ih

/-- One piece behind the other. -/
theorem bind (h : Until step P Q s) (hQ : ∀ t, Q t → Until step P R t) : Until step P R s := by
  induction h with
  | done hq => exact hQ _ hq
  | next hp _ ih => exact next hp ih

/-- A loop with the invariant `I`, indexed by the rounds that are left. -/
theorem loop {I : Nat → S → Prop} (hexit : ∀ t, I 0 t → Until step P Q t)
    (hround : ∀ n t, I (n + 1) t → Until step P (I n) t) {n : Nat} (h : I n s) :
    Until step P Q s := by
  induction n generalizing s with
  | zero => exact hexit s h
  | succ n ih => exact (hround n s h).bind fun _ ht => ih ht

/-- What a step with `P` keeps holds all along. -/
theorem invariant {J : S → Prop} (h : Until step P Q s) (hs : J s)
    (hJ : ∀ t, P t → J t → J (step t)) :
    Until step (fun t => P t ∧ J t) (fun t => Q t ∧ J t) s := by
  induction h with
  | done hq => exact done ⟨hq, hs⟩
  | next hp _ ih => exact next ⟨hp, hs⟩ (ih (hJ _ hp hs))

/-- The number of steps. -/
theorem exists_iterate (h : Until step P Q s) :
    ∃ n, Q (step^[n] s) ∧ ∀ i, i < n → P (step^[i] s) := by
  induction h with
  | done hq => exact ⟨0, hq, fun i hi => absurd hi (Nat.not_lt_zero i)⟩
  | next hp _ ih =>
    obtain ⟨n, hq, hbefore⟩ := ih
    refine ⟨n + 1, hq, fun i hi => ?_⟩
    cases i with
    | zero => exact hp
    | succ i => exact hbefore i (Nat.lt_of_succ_lt_succ hi)

/-- The number of steps, later in a run. -/
theorem exists_later {c : Nat} (h : Until step P Q (step^[c] s)) :
    ∃ n, c ≤ n ∧ Q (step^[n] s) ∧ ∀ i, c ≤ i → i < n → P (step^[i] s) := by
  obtain ⟨n, hq, hbefore⟩ := h.exists_iterate
  refine ⟨n + c, Nat.le_add_left c n, ?_, fun i hc hi => ?_⟩
  · rw [Function.iterate_add_apply]
    exact hq
  · have hp := hbefore (i - c) (by omega)
    rw [← Function.iterate_add_apply, Nat.sub_add_cancel hc] at hp
    exact hp

end Until

/-- The first state of the run from `s` in which `stop` holds. -/
def First (step : S → S) (stop : S → Prop) (s t : S) : Prop :=
  stop t ∧ ∃ n, step^[n] s = t ∧ ∀ i, i < n → ¬ stop (step^[i] s)

section First

variable {step : S → S} {stop P Q : S → Prop} {s t t' : S}

theorem First.unique (h : First step stop s t) (h' : First step stop s t') : t = t' := by
  obtain ⟨hstop, n, rfl, hbefore⟩ := h
  obtain ⟨hstop', n', rfl, hbefore'⟩ := h'
  rcases Nat.lt_trichotomy n n' with hlt | rfl | hlt
  · exact absurd hstop (hbefore' n hlt)
  · rfl
  · exact absurd hstop' (hbefore n' hlt)

theorem Until.exists_first (h : Until step P Q s) (hQ : ∀ t, Q t → stop t)
    (hP : ∀ t, P t → ¬ stop t) : ∃ t, First step stop s t ∧ Q t := by
  obtain ⟨n, hq, hbefore⟩ := h.exists_iterate
  exact ⟨_, ⟨hQ _ hq, n, rfl, fun i hi => hP _ (hbefore i hi)⟩, hq⟩

end First
