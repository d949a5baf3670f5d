import MicroRiscv.Lib.Slots

/-!
# When an occupant leaves an in-order pipeline

In a pipeline whose kills are decided in the oldest stage, the bubbles are always ahead of the
occupants (`Run.packed`), so the clock can be read off the stages: a cycle with an occupant in
the oldest stage has seen `d` cycles of filling, one for each occupant that has left, and `d`
for each kill (`Run.clock`). In step with a path the kills are the elements that are taken
(`InStepTo.kills_eq`), which gives the cycle of every element: `InStepTo.occupied_iff_cycleOf`.
`InStepTo.before_cycleOf` says what was in the oldest stage just before.
-/

namespace Slots

section Timing

variable {ι : Type} {d : Nat} {q : Nat → List (Option ι)} {kill : Nat → Bool} {new : Nat → ι}

/-- The kills before cycle `n`. -/
def kills (kill : Nat → Bool) (n : Nat) : Nat := Nat.count (fun m => kill m = true) n

theorem kills_succ (kill : Nat → Bool) (n : Nat) :
    kills kill (n + 1) = kills kill n + if kill n = true then 1 else 0 :=
  Nat.count_succ _ _

/-- `b` bubbles, and behind them occupants only. -/
def Packed (b : Nat) (q : List (Option ι)) : Prop :=
  ∃ l : List ι, q = List.replicate b none ++ l.map some

theorem packed_bubbles (d : Nat) : Packed d (List.replicate d (none : Option ι)) :=
  ⟨[], by rw [List.map_nil, List.append_nil]⟩

theorem Packed.eq_zero {b : Nat} {q : List (Option ι)} (h : Packed b q)
    (hocc : occupied q = true) : b = 0 := by
  obtain ⟨l, rfl⟩ := h
  cases b with
  | zero => rfl
  | succ b => cases hocc

/-- A bubble at the head moves out, and what enters is an occupant. -/
theorem Packed.advance_bubble {b : Nat} {q : List (Option ι)} (h : Packed (b + 1) q) (new : ι) :
    Packed b (advance false q new) := by
  obtain ⟨l, rfl⟩ := h
  exact ⟨l ++ [new], by simp [advance, List.replicate_succ]⟩

theorem Packed.advance_occupant {q : List (Option ι)} (h : Packed 0 q)
    (hocc : occupied q = true) (new : ι) : Packed 0 (advance false q new) := by
  obtain ⟨l, rfl⟩ := h
  cases l with
  | nil => cases hocc
  | cons x l => exact ⟨l ++ [new], by simp [advance]⟩

/-- Without an occupant in the oldest stage there is a bubble in it. -/
theorem Packed.pos {b : Nat} {q : List (Option ι)} (h : Packed b q) (hpos : 0 < q.length)
    (hfree : occupied q = false) : ∃ c, b = c + 1 := by
  obtain ⟨l, rfl⟩ := h
  cases b with
  | succ b => exact ⟨b, rfl⟩
  | zero =>
    cases l with
    | nil => exact absurd hpos (Nat.lt_irrefl 0)
    | cons x l => cases hfree

/-- The bubbles ahead of the occupants are the cycles that are still missing. -/
theorem Run.packed (h : Run d q kill new) (hk : ∀ n, kill n = true → occupied (q n) = true)
    (n : Nat) : ∃ b, Packed b (q n) ∧ n + b = d + retired q n + d * kills kill n := by
  induction n with
  | zero =>
    rw [h.start]
    exact ⟨d, packed_bubbles d, Nat.zero_add d⟩
  | succ n ih =>
    obtain ⟨b, hpacked, hclock⟩ := ih
    rw [h.next n, retired_succ, kills_succ]
    cases hkill : kill n with
    | true =>
      -- everything is squashed: the d bubbles are the d cycles the kill costs
      have hocc := hk n hkill
      obtain rfl := hpacked.eq_zero hocc
      refine ⟨d, ?_, ?_⟩
      · rw [advance, if_pos rfl, List.map_const', h.length n]
        exact packed_bubbles d
      · rw [if_pos hocc, if_pos rfl, Nat.mul_succ]
        omega
    | false =>
      rw [if_neg Bool.false_ne_true, Nat.add_zero (kills kill n)]
      cases hocc : occupied (q n) with
      | true =>
        -- an occupant retires, and no bubbles are left
        obtain rfl := hpacked.eq_zero hocc
        refine ⟨0, hpacked.advance_occupant hocc (new n), ?_⟩
        rw [if_pos rfl]
        omega
      | false =>
        -- a bubble leaves: one cycle less is missing
        obtain ⟨c, rfl⟩ := hpacked.pos (by rw [h.length n]; exact h.pos) hocc
        refine ⟨c, hpacked.advance_bubble (new n), ?_⟩
        rw [if_neg Bool.false_ne_true, Nat.add_zero (retired q n), ← hclock, Nat.add_right_comm]
        rfl

theorem Run.clock (h : Run d q kill new) (hk : ∀ n, kill n = true → occupied (q n) = true)
    {n : Nat} (hocc : occupied (q n) = true) : n = d + retired q n + d * kills kill n := by
  obtain ⟨b, hpacked, hclock⟩ := h.packed hk n
  rwa [hpacked.eq_zero hocc] at hclock

variable {ins : Nat → ι} {taken : Nat → Prop} {agree front : Nat → Nat → Prop} {K : Nat}

/-- The kills are decided by the elements that are taken. -/
theorem InStepTo.kills_eq [DecidablePred taken] (h : InStepTo K q kill new ins taken agree front)
    (hrun : Run d q kill new) (n : Nat) (hn : retired q n ≤ K) :
    kills kill n = Nat.count taken (retired q n) := by
  induction n with
  | zero => rfl
  | succ n ih =>
    have hle := Nat.le_trans (retired_le_succ q n) hn
    obtain ⟨hagree, -⟩ := h.follows hrun n hle
    rw [kills_succ, ih hle]
    rw [retired_succ] at hn ⊢
    cases hocc : occupied (q n) with
    | false =>
      obtain ⟨hkill, -⟩ := h.bubble n _ hle hagree hocc
      rw [if_neg Bool.false_ne_true, hkill, if_neg Bool.false_ne_true]
      rfl
    | true =>
      rw [hocc] at hn
      -- the element at the head is the next one of the sequence
      obtain ⟨x, hx⟩ := occupied_iff_head.mp hocc
      obtain rfl := h.head hrun hle hx
      obtain ⟨-, htaken⟩ := h.retire n _ hn hagree hx
      rw [if_pos rfl, Nat.count_succ]
      exact congrArg _ (if_congr htaken rfl rfl)

/-- The cycle in which the element `k` is in the oldest stage. -/
def cycleOf (d : Nat) (taken : Nat → Prop) [DecidablePred taken] (k : Nat) : Nat :=
  d + k + d * Nat.count taken k

theorem InStepTo.occupied_iff_cycleOf [DecidablePred taken]
    (h : InStepTo K q kill new ins taken agree front) (hrun : Run d q kill new)
    (hk : ∀ n, kill n = true → occupied (q n) = true) {k : Nat} (hkK : k ≤ K) (n : Nat) :
    occupied (q n) = true ∧ retired q n = k ↔ n = cycleOf d taken k := by
  have hcycle : ∀ m, occupied (q m) = true ∧ retired q m = k → m = cycleOf d taken k := by
    rintro m ⟨hocc, rfl⟩
    rw [cycleOf, ← h.kills_eq hrun m hkK]
    exact hrun.clock hk hocc
  refine ⟨hcycle n, ?_⟩
  rintro rfl
  obtain ⟨m, hm, -⟩ := hrun.existsUnique_retired hk k
  rwa [← hcycle m hm]

/-- A taken element costs `d` cycles more. -/
theorem cycleOf_succ (d : Nat) (taken : Nat → Prop) [DecidablePred taken] (k : Nat) :
    cycleOf d taken (k + 1) = cycleOf d taken k + 1 + if taken k then d else 0 := by
  unfold cycleOf
  rw [Nat.count_succ]
  split
  · rw [Nat.mul_succ]
    omega
  · rw [Nat.add_zero (Nat.count taken k)]
    omega

theorem retired_mono (q : Nat → List (Option ι)) : Monotone (retired q) :=
  monotone_nat_of_le_succ (retired_le_succ q)

section Cycle

variable [DecidablePred taken]

/-- In its cycle the oldest stage holds the element, and the state is the one in front of it. -/
theorem InStepTo.at_cycleOf (h : InStepTo K q kill new ins taken agree front)
    (hrun : Run d q kill new) (hk : ∀ n, kill n = true → occupied (q n) = true) {k : Nat}
    (hkK : k ≤ K) :
    (q (cycleOf d taken k))[0]? = some (some (ins k)) ∧ agree (cycleOf d taken k) k := by
  obtain ⟨hocc, hret⟩ := (h.occupied_iff_cycleOf hrun hk hkK _).mpr rfl
  have hle : retired q (cycleOf d taken k) ≤ K := hret.trans_le hkK
  obtain ⟨hagree, -⟩ := h.follows hrun _ hle
  obtain ⟨x, hx⟩ := occupied_iff_head.mp hocc
  have hins := h.head hrun hle hx
  rw [hret] at hagree hins
  exact ⟨hins ▸ hx, hagree⟩

/-- What has been there before is an earlier element. -/
theorem InStepTo.retired_lt (h : InStepTo K q kill new ins taken agree front)
    (hrun : Run d q kill new) (hk : ∀ n, kill n = true → occupied (q n) = true) {n : Nat}
    (hn : n < cycleOf d taken K) (hocc : occupied (q n) = true) : retired q n < K := by
  obtain ⟨-, hret⟩ := (h.occupied_iff_cycleOf hrun hk le_rfl _).mpr rfl
  refine lt_of_le_of_ne (hret ▸ retired_mono q hn.le) fun heq => ?_
  exact hn.ne ((h.occupied_iff_cycleOf hrun hk le_rfl n).mp ⟨hocc, heq⟩)

/-- In the cycle before, the oldest stage holds the element before, if that one is not taken,
and else a bubble. -/
theorem InStepTo.before_cycleOf (h : InStepTo K q kill new ins taken agree front)
    (hrun : Run d q kill new) (hk : ∀ n, kill n = true → occupied (q n) = true) {n : Nat}
    (hn : cycleOf d taken K = n + 1) :
    occupied (q n) = true ↔ ∃ k, K = k + 1 ∧ ¬ taken k := by
  constructor
  · intro hocc
    have hlt := h.retired_lt hrun hk (hn ▸ Nat.lt_succ_self n) hocc
    have hcycle := (h.occupied_iff_cycleOf hrun hk hlt.le n).mp ⟨hocc, rfl⟩
    obtain ⟨-, hret⟩ := (h.occupied_iff_cycleOf hrun hk le_rfl _).mpr rfl
    rw [hn, retired_succ, if_pos hocc] at hret
    refine ⟨retired q n, hret.symm, fun htaken => ?_⟩
    rw [← hret, cycleOf_succ, ← hcycle, if_pos htaken] at hn
    exact hrun.pos.ne' (Nat.add_left_cancel hn)
  · rintro ⟨k, rfl, hnot⟩
    rw [cycleOf_succ, if_neg hnot] at hn
    exact ((h.occupied_iff_cycleOf hrun hk (Nat.le_succ k) n).mpr (Nat.succ.inj hn).symm).1

/-- A property `P` that is read off the oldest stage one cycle before the element `K` is there,
and that bubbles have. -/
theorem InStepTo.ahead_iff (h : InStepTo K q kill new ins taken agree front)
    (hrun : Run d q kill new) (hk : ∀ n, kill n = true → occupied (q n) = true) {n : Nat}
    (hn : cycleOf d taken K = n + 1) {P : ι → Prop} {A : Prop}
    (hsome : ∀ x, (q n)[0]? = some (some x) → (A ↔ P x)) (hnone : occupied (q n) = false → A) :
    A ↔ ∀ k, K = k + 1 → taken k ∨ P (ins k) := by
  have hbefore := h.before_cycleOf hrun hk hn
  cases hocc : occupied (q n) with
  | true =>
    obtain ⟨x, hx⟩ := occupied_iff_head.mp hocc
    obtain ⟨k, rfl, hnot⟩ := hbefore.mp hocc
    rw [cycleOf_succ, if_neg hnot] at hn
    obtain ⟨-, hret⟩ := (h.occupied_iff_cycleOf hrun hk (Nat.le_succ k) n).mpr (Nat.succ.inj hn).symm
    have hins := h.head hrun (n := n) (hret ▸ Nat.le_succ k) hx
    rw [hret] at hins
    subst hins
    rw [hsome _ hx]
    constructor
    · intro hP j hj
      obtain rfl := Nat.succ.inj hj
      exact .inr hP
    · intro hall
      exact (hall k rfl).resolve_left hnot
  | false =>
    refine iff_of_true (hnone hocc) fun k hk => .inl ?_
    by_contra hnot
    rw [hocc] at hbefore
    exact Bool.false_ne_true (hbefore.mpr ⟨k, hk, hnot⟩)

end Cycle

end Timing

end Slots
