import Mathlib.Data.List.TakeWhile
import Mathlib.Order.Lattice

/-!
# Computations that fail without a rollback

`Fallible ε σ` are computations on a state `σ` that may fail with an `ε`. A failure keeps
the state that has been reached: this is how exceptions behave in a language with mutable
objects, and why a loop that fails in the middle has done a part of its work.

1. `exec`, and how it passes through the operations; `bind_eq_error_iff`.
2. `exec_forM_of_acts`: a loop whose actions succeed or fail independently of the state
   does the actions in front of the first one that fails, and ends as this one does.
-/

abbrev Fallible (ε σ : Type) := ExceptT ε (StateM σ)

namespace Fallible

variable {ε σ α β ι : Type}

/-! ## 1. Execution -/

/-- The result of a computation and the state it ends in. -/
def exec (x : Fallible ε σ α) (s : σ) : Except ε α × σ := StateT.run (ExceptT.run x) s

@[simp] theorem exec_pure (a : α) (s : σ) : exec (pure a : Fallible ε σ α) s = (.ok a, s) := rfl

@[simp] theorem exec_throw (e : ε) (s : σ) :
    exec (throw e : Fallible ε σ α) s = (.error e, s) := rfl

@[simp] theorem exec_get (s : σ) : exec (get : Fallible ε σ σ) s = (.ok s, s) := rfl

@[simp] theorem exec_modify (f : σ → σ) (s : σ) :
    exec (modify f : Fallible ε σ Unit) s = (.ok (), f s) := rfl

/-- A computation without a state keeps it. -/
@[simp] theorem exec_liftM (x : Except ε α) (s : σ) :
    exec (liftM x : Fallible ε σ α) s = (x, s) := rfl

theorem exec_bind (x : Fallible ε σ α) (f : α → Fallible ε σ β) (s : σ) :
    exec (x >>= f) s = match exec x s with
      | (.ok a, s') => exec (f a) s'
      | (.error e, s') => (.error e, s') := by
  unfold exec
  rw [ExceptT.run_bind, StateT.run_bind]
  match x.run.run s with
  | (.ok a, s') => rfl
  | (.error e, s') => rfl

theorem exec_bind_ok {x : Fallible ε σ α} {s s' : σ} {a : α} (h : exec x s = (.ok a, s'))
    (f : α → Fallible ε σ β) : exec (x >>= f) s = exec (f a) s' := by
  rw [exec_bind, h]

theorem exec_bind_error {x : Fallible ε σ α} {s s' : σ} {e : ε} (h : exec x s = (.error e, s'))
    (f : α → Fallible ε σ β) : exec (x >>= f) s = (.error e, s') := by
  rw [exec_bind, h]

theorem exec_tryCatch (x : Fallible ε σ α) (h : ε → Fallible ε σ α) (s : σ) :
    exec (tryCatch x h) s = match exec x s with
      | (.ok a, s') => (.ok a, s')
      | (.error e, s') => exec (h e) s' := by
  have hrun : exec (tryCatch x h) s = match StateT.run x s with
      | (.ok a, s') => (.ok a, s')
      | (.error e, s') => exec (h e) s' := by
    simp only [exec, tryCatch, tryCatchThe, MonadExceptOf.tryCatch, ExceptT.tryCatch,
      ExceptT.run_mk, StateT.run_bind]
    rcases StateT.run x s with ⟨_ | _, _⟩
    · rfl
    · rfl
  exact hrun

/-- A computation that returns comes from a first part that returns. -/
theorem bind_eq_ok_iff {x : Except ε α} {f : α → Except ε β} {b : β} :
    (x >>= f) = .ok b ↔ ∃ a, x = .ok a ∧ f a = .ok b := by
  cases x with
  | ok a =>
    constructor
    · exact fun h => ⟨a, rfl, h⟩
    · rintro ⟨_, ha, h⟩
      cases ha
      exact h
  | error e =>
    constructor
    · intro h
      cases h
    · rintro ⟨_, ha, _⟩
      cases ha

/-- One that fails does so in its first part or behind it. -/
theorem bind_eq_error_iff {x : Except ε α} {f : α → Except ε β} {e : ε} :
    (x >>= f) = .error e ↔ x = .error e ∨ ∃ a, x = .ok a ∧ f a = .error e := by
  cases x with
  | ok a =>
    constructor
    · exact fun h => .inr ⟨a, rfl, h⟩
    · rintro (ha | ⟨_, ha, h⟩)
      · cases ha
      · cases ha
        exact h
  | error e' =>
    constructor
    · intro h
      cases h
      exact .inl rfl
    · rintro (ha | ⟨_, ha, _⟩)
      · cases ha
        rfl
      · cases ha

/-! ## 2. Loops -/

/-- Change the state, or fail and leave it. -/
def act (d : Except ε (σ → σ)) (s : σ) : Except ε Unit × σ :=
  match d with
  | .ok f => (.ok (), f s)
  | .error e => (.error e, s)

/-- The action does what `d` says, whatever the state. -/
def Acts (d : Except ε (σ → σ)) (x : Fallible ε σ Unit) : Prop := ∀ s, exec x s = act d s

/-- The actions in front of the first one that fails. -/
def accepted (d : ι → Except ε (σ → σ)) (l : List ι) : List ι :=
  l.takeWhile fun i => (d i).toBool

/-- How a loop over the actions ends. -/
def outcome (d : ι → Except ε (σ → σ)) : List ι → Except ε Unit
  | [] => .ok ()
  | i :: l =>
    match d i with
    | .ok _ => outcome d l
    | .error e => .error e

/-- What an action does when it succeeds. -/
def effect (d : ι → Except ε (σ → σ)) (s : σ) (i : ι) : σ :=
  match d i with
  | .ok f => f s
  | .error _ => s

theorem exec_forM_of_acts {d : ι → Except ε (σ → σ)} {x : ι → Fallible ε σ Unit}
    (h : ∀ i, Acts (d i) (x i)) (l : List ι) (s : σ) :
    exec (forM l x) s = (outcome d l, (accepted d l).foldl (effect d) s) := by
  induction l generalizing s with
  | nil => rfl
  | cons i l ih =>
    rw [List.forM_cons, exec_bind, h i s]
    cases hd : d i with
    | ok f => simp [act, outcome, accepted, effect, hd, ih, Except.toBool]
    | error e => simp [act, outcome, accepted, hd, Except.toBool]

/-- A loop whose actions all succeed. -/
theorem exec_forM_of_ok {x : ι → Fallible ε σ Unit} {g : ι → σ → σ}
    (h : ∀ i s, exec (x i) s = (.ok (), g i s)) (l : List ι) (s : σ) :
    exec (forM l x) s = (.ok (), l.foldl (fun s i => g i s) s) := by
  induction l generalizing s with
  | nil => rfl
  | cons i l ih =>
    rw [List.forM_cons, exec_bind_ok (h i s), ih]
    rfl

/-- The same for a loop that collects the results. -/
theorem exec_mapM_of_ok {x : ι → Fallible ε σ α} {g : ι → σ → σ}
    (h : ∀ i s, ∃ a, exec (x i) s = (.ok a, g i s)) (l : List ι) (s : σ) :
    ∃ as, exec (l.mapM x) s = (.ok as, l.foldl (fun s i => g i s) s) := by
  induction l generalizing s with
  | nil => exact ⟨[], rfl⟩
  | cons i l ih =>
    obtain ⟨a, ha⟩ := h i s
    obtain ⟨as, has⟩ := ih (g i s)
    refine ⟨a :: as, ?_⟩
    rw [List.mapM_cons, exec_bind_ok ha, exec_bind_ok has]
    rfl

/-- The same where no computation changes the state. -/
theorem exec_mapM_of_const {x : ι → Fallible ε σ α} {a : ι → α} {s : σ}
    (h : ∀ i, exec (x i) s = (.ok (a i), s)) (l : List ι) :
    exec (l.mapM x) s = (.ok (l.map a), s) := by
  induction l with
  | nil => rfl
  | cons i l ih =>
    rw [List.mapM_cons, exec_bind_ok (h i), exec_bind_ok ih]
    rfl

section Order

variable [LinearOrder ι] {d : ι → Except ε (σ → σ)} {l : List ι} {i : ι}

/-- A loop over an ascending list fails as the first action does that fails. -/
theorem outcome_error_iff (hl : l.Pairwise (· < ·)) {e : ε} :
    outcome d l = .error e ↔
      ∃ i, i ∈ l ∧ d i = .error e ∧ ∀ j, j ∈ l → j < i → ∃ f, d j = .ok f := by
  induction l with
  | nil => simp [outcome]
  | cons k l ih =>
    obtain ⟨hk, hl⟩ := List.pairwise_cons.mp hl
    unfold outcome
    cases hd : d k with
    | error e' =>
      show Except.error e' = .error e ↔ _
      constructor
      · intro he
        cases he
        refine ⟨k, List.mem_cons_self, hd, fun j hj hjk => ?_⟩
        cases List.mem_cons.mp hj with
        | inl heq => exact absurd hjk (heq ▸ lt_irrefl k)
        | inr hmem => exact absurd (hk j hmem) hjk.not_gt
      · rintro ⟨i, hi, he, hbefore⟩
        cases List.mem_cons.mp hi with
        | inl heq =>
          rw [heq, hd] at he
          cases he
          rfl
        | inr hmem =>
          obtain ⟨f, hf⟩ := hbefore k List.mem_cons_self (hk i hmem)
          rw [hd] at hf
          cases hf
    | ok f =>
      show outcome d l = .error e ↔ _
      rw [ih hl]
      constructor
      · rintro ⟨i, hi, he, hbefore⟩
        refine ⟨i, List.mem_cons_of_mem _ hi, he, fun j hj hji => ?_⟩
        cases List.mem_cons.mp hj with
        | inl heq => exact ⟨f, heq ▸ hd⟩
        | inr hmem => exact hbefore j hmem hji
      · rintro ⟨i, hi, he, hbefore⟩
        cases List.mem_cons.mp hi with
        | inl heq =>
          rw [heq, hd] at he
          cases he
        | inr hmem =>
          exact ⟨i, hmem, he, fun j hj hji => hbefore j (List.mem_cons_of_mem _ hj) hji⟩

/-- An action of an ascending list is accepted when it and all in front of it succeed. -/
theorem mem_accepted_iff (hl : l.Pairwise (· < ·)) :
    i ∈ accepted d l ↔ i ∈ l ∧ ∀ j, j ∈ l → j ≤ i → ∃ f, d j = .ok f := by
  induction l with
  | nil => simp [accepted]
  | cons k l ih =>
    obtain ⟨hk, hl⟩ := List.pairwise_cons.mp hl
    cases hd : d k with
    | error e =>
      have hnil : accepted d (k :: l) = [] := by simp [accepted, hd, Except.toBool]
      rw [hnil]
      constructor
      · intro hi
        cases hi
      · rintro ⟨hi, hok⟩
        have hki : k ≤ i := by
          cases List.mem_cons.mp hi with
          | inl heq => exact heq.ge
          | inr hmem => exact (hk i hmem).le
        obtain ⟨f, hf⟩ := hok k List.mem_cons_self hki
        rw [hd] at hf
        cases hf
    | ok f =>
      have hcons : accepted d (k :: l) = k :: accepted d l := by
        simp [accepted, hd, Except.toBool]
      rw [hcons, List.mem_cons, ih hl, List.mem_cons]
      constructor
      · rintro (rfl | ⟨hi, hok⟩)
        · refine ⟨.inl rfl, fun j hj hji => ?_⟩
          cases List.mem_cons.mp hj with
          | inl heq => exact ⟨f, heq ▸ hd⟩
          | inr hmem => exact absurd (hk j hmem) hji.not_gt
        · refine ⟨.inr hi, fun j hj hji => ?_⟩
          cases List.mem_cons.mp hj with
          | inl heq => exact ⟨f, heq ▸ hd⟩
          | inr hmem => exact hok j hmem hji
      · rintro ⟨rfl | hi, hok⟩
        · exact .inl rfl
        · exact .inr ⟨hi, fun j hj hji => hok j (List.mem_cons_of_mem _ hj) hji⟩

end Order

end Fallible
