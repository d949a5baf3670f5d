import Mathlib.Data.Nat.Nth

/-!
# Occupants of an in-order pipeline that squashes

A pipeline is seen through the occupants of its stages, a list with the oldest stage
first. In each cycle the occupants move up by one stage and a new one enters at the
end; or a `kill`, decided in the oldest stage, turns every stage into a bubble
(`none`). The oldest occupant leaves the list in either case.

1. `getElem?_run` says which stage holds what at any time, `head_none_iff` when the
   oldest stage holds a bubble, `exists_occupied` that it is never starved.
2. `Chain` relates the occupants to a sequential path of instructions: from the oldest
   on they are consecutive elements of the path, up to the first one that transfers
   control. `Chain.append` and `chain_squashed` are the two ways it is kept.
3. `InStep` lists what a single cycle has to do so that the pipeline follows the path,
   `InStep.follows` is the conclusion about every run. `InStepTo` and `InStepTo.follows` are
   the same for a path that is known up to an element `K` only.
4. `retired` counts the occupants that have left, `Run.existsUnique_retired` says that
   each one leaves in one cycle, `history_eq_map` what they have done in order.
-/

namespace Slots

variable {ι : Type}

/-- One cycle: squash every stage, or move up and let `new` in. -/
def advance (kill : Bool) (q : List (Option ι)) (new : ι) : List (Option ι) :=
  if kill then q.map fun _ => none else q.tail ++ [some new]

/-! ## 1. Occupancy over a run -/

section Run

variable {d : Nat} {q : Nat → List (Option ι)} {kill : Nat → Bool} {new : Nat → ι}

/-- The stage lists of a run, from `d` bubbles on. -/
structure Run (d : Nat) (q : Nat → List (Option ι)) (kill : Nat → Bool) (new : Nat → ι) :
    Prop where
  pos : 0 < d
  start : q 0 = List.replicate d none
  next : ∀ n, q (n + 1) = advance (kill n) (q n) (new n)

theorem Run.length (h : Run d q kill new) (n : Nat) : (q n).length = d := by
  induction n with
  | zero => rw [h.start, List.length_replicate]
  | succ n ih =>
    have hpos := h.pos
    rw [h.next n, advance]
    split
    · rw [List.length_map, ih]
    · rw [List.length_append, List.length_tail, ih, List.length_singleton]
      omega

/-- No kill in the `c` cycles before cycle `n`. -/
def Quiet (kill : Nat → Bool) (n c : Nat) : Prop :=
  ∀ j, 1 ≤ j → j ≤ c → kill (n - j) = false

theorem quiet_succ {n c : Nat} :
    Quiet kill (n + 1) (c + 1) ↔ kill n = false ∧ Quiet kill n c := by
  constructor
  · intro h
    refine ⟨h 1 (Nat.le_refl 1) (by omega), fun j h1 hc => ?_⟩
    have hj := h (j + 1) (by omega) (by omega)
    rwa [Nat.add_sub_add_right] at hj
  · rintro ⟨h0, hq⟩ j h1 hc
    cases j with
    | zero => omega
    | succ j =>
      rw [Nat.add_sub_add_right]
      cases j with
      | zero => exact h0
      | succ j => exact hq (j + 1) (by omega) (by omega)

/-- Stage `i` at cycle `n` holds what entered `d - i` cycles before, unless the run is too
young or a kill happened since. -/
theorem Run.occupied_iff (h : Run d q kill new) :
    ∀ (n i : Nat), i < d → ∀ x, (q n)[i]? = some (some x) ↔
      d - i ≤ n ∧ Quiet kill n (d - i) ∧ x = new (n - (d - i)) := by
  intro n
  induction n with
  | zero =>
    intro i hi x
    rw [h.start, List.getElem?_replicate, if_pos hi]
    constructor
    · intro he
      cases he
    · rintro ⟨hle, _⟩
      omega
  | succ n ih =>
    intro i hi x
    have hlen := h.length n
    have hsplit : d - i = (d - i - 1) + 1 := by omega
    rw [h.next n, advance, hsplit, quiet_succ]
    cases hk : kill n with
    | true =>
      simp only [if_true, List.getElem?_map]
      constructor
      · intro he
        cases hq : (q n)[i]? <;> rw [hq] at he <;> cases he
      · rintro ⟨_, ⟨hf, _⟩, _⟩
        cases hf
    | false =>
      simp only [Bool.false_eq_true, if_false, true_and, Nat.add_sub_add_right,
        Nat.add_le_add_iff_right]
      rcases Nat.lt_or_ge (i + 1) d with hlt | hge
      · rw [List.getElem?_append_left (by rw [List.length_tail]; omega), List.getElem?_tail,
          ih (i + 1) hlt x, Nat.sub_add_eq]
      · have hlast : d - i - 1 = 0 := by omega
        have hidx : i = (q n).tail.length := by rw [List.length_tail]; omega
        rw [hidx, List.getElem?_concat_length, ← hidx, hlast]
        constructor
        · intro he
          cases he
          exact ⟨Nat.zero_le n, fun j h1 hj => by omega, rfl⟩
        · rintro ⟨_, _, rfl⟩
          rfl

theorem Run.head_some (h : Run d q kill new) (n : Nat) : ∃ o, (q n)[0]? = some o := by
  have hlt : 0 < (q n).length := by rw [h.length n]; exact h.pos
  exact ⟨_, List.getElem?_eq_getElem hlt⟩

/-- The oldest stage holds a bubble exactly in the first `d` cycles and in the `d` cycles
after each kill. -/
theorem Run.head_none_iff (h : Run d q kill new) (n : Nat) :
    (q n)[0]? = some none ↔ n < d ∨ ∃ j, 1 ≤ j ∧ j ≤ d ∧ j ≤ n ∧ kill (n - j) = true := by
  have hocc := h.occupied_iff n 0 h.pos
  rw [Nat.sub_zero] at hocc
  constructor
  · intro hnone
    by_contra hcon
    rw [not_or, Nat.not_lt, not_exists] at hcon
    obtain ⟨hle, hno⟩ := hcon
    have hquiet : Quiet kill n d := by
      intro j h1 hj
      have hkj := hno j
      rw [not_and, not_and, not_and, Bool.not_eq_true] at hkj
      exact hkj h1 hj (Nat.le_trans hj hle)
    have hsome := (hocc _).mpr ⟨hle, hquiet, rfl⟩
    rw [hnone] at hsome
    cases hsome
  · intro hcase
    obtain ⟨o, ho⟩ := h.head_some n
    cases o with
    | none => exact ho
    | some x =>
      obtain ⟨hle, hquiet, _⟩ := (hocc x).mp ho
      rcases hcase with hlt | ⟨j, h1, hj, _, hkill⟩
      · omega
      · rw [hquiet j h1 hj] at hkill
        cases hkill

/-- When only an occupant of the oldest stage can kill, the oldest stage is occupied
again and again. -/
theorem Run.exists_occupied (h : Run d q kill new)
    (hk : ∀ n, kill n = true → ∃ x, (q n)[0]? = some (some x)) (n : Nat) :
    ∃ m, n ≤ m ∧ ∃ x, (q m)[0]? = some (some x) := by
  by_contra hcon
  have hidle : ∀ m, n ≤ m → kill m = false := by
    intro m hm
    rw [← Bool.not_eq_true]
    exact fun hkill => hcon ⟨m, hm, hk m hkill⟩
  have hquiet : Quiet kill (n + d) d := fun j _ hj => hidle (n + d - j) (by omega)
  refine hcon ⟨n + d, by omega, new (n + d - d), ?_⟩
  have hocc := h.occupied_iff (n + d) 0 h.pos (new (n + d - d))
  rw [Nat.sub_zero] at hocc
  exact hocc.mpr ⟨by omega, hquiet, rfl⟩

end Run

/-! ## 2. The occupants follow a path -/

section Chain

variable {ins : Nat → ι} {taken : Nat → Prop} {front front' : Nat → Prop}

/-- From path index `k` on, the occupants of `q` are consecutive elements of the path
`ins`, and `front` holds of the index behind the last one. An element that is `taken`
transfers control elsewhere: nothing is said about the stages behind it. -/
def Chain (ins : Nat → ι) (taken : Nat → Prop) (front : Nat → Prop) :
    Nat → List (Option ι) → Prop
  | k, [] => front k
  | k, none :: q => Chain ins taken front k q
  | k, some i :: q => i = ins k ∧ (¬ taken k → Chain ins taken front (k + 1) q)

/-- Letting the element at the front in. -/
theorem Chain.append {new : ι} {q : List (Option ι)} {k : Nat}
    (h : Chain ins taken front k q)
    (hnew : ∀ j, k ≤ j → front j → new = ins j ∧ (¬ taken j → front' (j + 1))) :
    Chain ins taken front' k (q ++ [some new]) := by
  induction q generalizing k with
  | nil => exact hnew k (Nat.le_refl k) h
  | cons o q ih =>
    cases o with
    | none => exact ih h hnew
    | some i =>
      refine ⟨h.1, fun ht => ih (h.2 ht) fun j hj => hnew j (by omega)⟩

/-- A pipeline of bubbles is in step with any index at its front. -/
theorem chain_squashed {k : Nat} (hf : front k) (q : List (Option ι)) :
    Chain ins taken front k (q.map fun _ => none) := by
  induction q with
  | nil => exact hf
  | cons o q ih => exact ih

theorem chain_replicate {k : Nat} (hf : front k) (d : Nat) :
    Chain ins taken front k (List.replicate d none) := by
  induction d with
  | zero => exact hf
  | succ d ih => exact ih

end Chain

/-! ## 3. The oldest stage -/

/-- The oldest stage holds an occupant. -/
def occupied : List (Option ι) → Bool
  | some _ :: _ => true
  | _ => false

theorem occupied_iff_head {q : List (Option ι)} :
    occupied q = true ↔ ∃ x, q[0]? = some (some x) := by
  match q with
  | [] => simp [occupied]
  | none :: q => simp [occupied]
  | some x :: q => simp [occupied]

/-- The occupants that have been in the oldest stage before cycle `n`. -/
def retired (q : Nat → List (Option ι)) (n : Nat) : Nat :=
  Nat.count (fun m => occupied (q m) = true) n

theorem retired_succ (q : Nat → List (Option ι)) (n : Nat) :
    retired q (n + 1) = retired q n + if occupied (q n) = true then 1 else 0 :=
  Nat.count_succ _ _

section Follow

variable {d : Nat} {q : Nat → List (Option ι)} {kill : Nat → Bool} {new : Nat → ι}

/-- When only an occupant of the oldest stage can kill, for every `k` there is exactly one
cycle in which the oldest stage holds the `k`-th occupant. -/
theorem Run.existsUnique_retired (h : Run d q kill new)
    (hk : ∀ n, kill n = true → occupied (q n) = true) (k : Nat) :
    ∃! n, occupied (q n) = true ∧ retired q n = k := by
  have hinf : (Set.ofPred fun m => occupied (q m) = true).Infinite := by
    rw [Set.infinite_iff_exists_gt]
    intro n
    obtain ⟨m, hm, hocc⟩ := h.exists_occupied (fun j hj => occupied_iff_head.mp (hk j hj)) (n + 1)
    exact ⟨m, occupied_iff_head.mpr hocc, hm⟩
  refine ⟨Nat.nth (fun m => occupied (q m) = true) k,
    ⟨Nat.nth_mem_of_infinite hinf k, Nat.count_nth_of_infinite hinf k⟩, ?_⟩
  rintro n ⟨hocc, hcount⟩
  rw [← hcount]
  exact (Nat.nth_count hocc).symm

/-- What the occupants of the oldest stage have done before cycle `n`, when `act m` is
what is done in cycle `m`. -/
def history {ε : Type} (q : Nat → List (Option ι)) (act : Nat → ε) (n : Nat) : List ε :=
  (List.range n).filterMap fun m => if occupied (q m) = true then some (act m) else none

/-- When the `k`-th occupant does `eff k`, the history is the beginning of the sequence
`eff`. -/
theorem history_eq_map {ε : Type} {act eff : Nat → ε}
    (h : ∀ m, occupied (q m) = true → act m = eff (retired q m)) (n : Nat) :
    history q act n = (List.range (retired q n)).map eff := by
  induction n with
  | zero => rfl
  | succ n ih =>
    rw [history, List.range_succ, List.filterMap_append, ← history, ih, retired_succ]
    cases hocc : occupied (q n) with
    | false => simp [hocc]
    | true => simp [hocc, List.range_succ, h n hocc]

/-- What one cycle has to do, as long as at most `K` elements have left. `agree n k` says that
at cycle `n` the state is the one behind the first `k` elements of the path, `front n j` that
cycle `n` lets the element `j` in. -/
structure InStepTo (K : Nat) (q : Nat → List (Option ι)) (kill : Nat → Bool) (new : Nat → ι)
    (ins : Nat → ι) (taken : Nat → Prop) (agree front : Nat → Nat → Prop) : Prop where
  agreeStart : agree 0 0
  frontStart : front 0 0
  /-- What enters is the element at the front. -/
  fetch : ∀ n k j, k ≤ K → j ≤ K → agree n k → front n j → new n = ins j
  /-- A bubble in the oldest stage changes nothing. -/
  bubble : ∀ n k, k ≤ K → agree n k → occupied (q n) = false →
    kill n = false ∧ agree (n + 1) k
  /-- An occupant of the oldest stage acts as its element does. -/
  retire : ∀ n k, k < K → agree n k → (q n)[0]? = some (some (ins k)) →
    agree (n + 1) (k + 1) ∧ (kill n = true ↔ taken k)
  /-- A kill continues behind the element that decided it. -/
  redirect : ∀ n k, k < K → agree n k → (q n)[0]? = some (some (ins k)) → kill n = true →
    front (n + 1) (k + 1)
  /-- Otherwise the front moves on by one element. -/
  next : ∀ n k j, k ≤ K → j < K → agree n k →
    (∀ x, (q n)[0]? = some (some x) → x = ins k ∧ k < K) → kill n = false → front n j →
    ¬ taken j → front (n + 1) (j + 1)

/-- The same without a bound. -/
structure InStep (q : Nat → List (Option ι)) (kill : Nat → Bool) (new : Nat → ι)
    (ins : Nat → ι) (taken : Nat → Prop) (agree front : Nat → Nat → Prop) : Prop where
  agreeStart : agree 0 0
  frontStart : front 0 0
  /-- What enters is the element at the front. -/
  fetch : ∀ n k j, agree n k → front n j → new n = ins j
  /-- A bubble in the oldest stage changes nothing. -/
  bubble : ∀ n k, agree n k → occupied (q n) = false → kill n = false ∧ agree (n + 1) k
  /-- An occupant of the oldest stage acts as its element does. -/
  retire : ∀ n k, agree n k → (q n)[0]? = some (some (ins k)) →
    agree (n + 1) (k + 1) ∧ (kill n = true ↔ taken k)
  /-- A kill continues behind the element that decided it. -/
  redirect : ∀ n k, agree n k → (q n)[0]? = some (some (ins k)) → kill n = true →
    front (n + 1) (k + 1)
  /-- Otherwise the front moves on by one element. -/
  next : ∀ n k j, agree n k → (∀ x, (q n)[0]? = some (some x) → x = ins k) →
    kill n = false → front n j → ¬ taken j → front (n + 1) (j + 1)

variable {ins : Nat → ι} {taken : Nat → Prop} {agree front : Nat → Nat → Prop} {K : Nat}

theorem InStep.upTo (h : InStep q kill new ins taken agree front) (K : Nat) :
    InStepTo K q kill new ins taken agree front where
  agreeStart := h.agreeStart
  frontStart := h.frontStart
  fetch := fun n k j _ _ => h.fetch n k j
  bubble := fun n k _ => h.bubble n k
  retire := fun n k _ => h.retire n k
  redirect := fun n k _ => h.redirect n k
  next := fun n k j _ _ ha hhead => h.next n k j ha fun x hx => (hhead x hx).1

theorem InStep.of_upTo (h : ∀ K, InStepTo K q kill new ins taken agree front) :
    InStep q kill new ins taken agree front where
  agreeStart := (h 0).agreeStart
  frontStart := (h 0).frontStart
  fetch := fun n k j => (h (max k j)).fetch n k j (le_max_left k j) (le_max_right k j)
  bubble := fun n k => (h k).bubble n k le_rfl
  retire := fun n k => (h (k + 1)).retire n k (Nat.lt_succ_self k)
  redirect := fun n k => (h (k + 1)).redirect n k (Nat.lt_succ_self k)
  next := by
    intro n k j ha hhead
    have hk : k < max k j + 1 := Nat.lt_succ_of_le (le_max_left k j)
    have hj : j < max k j + 1 := Nat.lt_succ_of_le (le_max_right k j)
    exact (h (max k j + 1)).next n k j hk.le hj ha fun x hx => ⟨hhead x hx, hk⟩

theorem retired_le_succ (q : Nat → List (Option ι)) (n : Nat) :
    retired q n ≤ retired q (n + 1) := by
  rw [retired_succ]
  exact Nat.le_add_right _ _

/-- Until `K` elements have left the pipeline follows the path. Nothing is said about what has
entered behind the element `K`. -/
theorem InStepTo.follows (h : InStepTo K q kill new ins taken agree front)
    (hrun : Run d q kill new) (n : Nat) (hn : retired q n ≤ K) :
    agree n (retired q n) ∧
      Chain ins (fun j => taken j ∨ K ≤ j) (fun j => j ≤ K ∧ front n j) (retired q n) (q n) := by
  induction n with
  | zero =>
    rw [hrun.start]
    exact ⟨h.agreeStart, chain_replicate ⟨Nat.zero_le K, h.frontStart⟩ d⟩
  | succ n ih =>
    obtain ⟨hagree, hchain⟩ := ih (Nat.le_trans (retired_le_succ q n) hn)
    rw [retired_succ] at hn
    rw [hrun.next n, retired_succ]
    generalize retired q n = k at hagree hchain hn ⊢
    have hk : k ≤ K := Nat.le_trans (Nat.le_add_right k _) hn
    -- the elements that enter when nothing is killed
    have happend : ∀ r i, (∀ x, (q n)[0]? = some (some x) → x = ins k ∧ k < K) →
        kill n = false →
        Chain ins (fun j => taken j ∨ K ≤ j) (fun j => j ≤ K ∧ front n j) i r →
        Chain ins (fun j => taken j ∨ K ≤ j) (fun j => j ≤ K ∧ front (n + 1) j) i
          (r ++ [some (new n)]) := by
      intro r i hhead hkill hr
      refine hr.append fun j _ hj => ⟨h.fetch n k j hk hj.1 hagree hj.2, fun hnot => ?_⟩
      obtain ⟨hnot, hlt⟩ := not_or.mp hnot
      rw [Nat.not_le] at hlt
      exact ⟨hlt, h.next n k j hk hlt hagree hhead hkill hj.2 hnot⟩
    match hq : q n with
    | [] =>
      have hlen := hrun.length n
      rw [hq] at hlen
      exact absurd hrun.pos (by rw [← hlen]; exact Nat.lt_irrefl 0)
    | none :: r =>
      have hfree : occupied (q n) = false := by rw [hq]; rfl
      obtain ⟨hkill, hnext⟩ := h.bubble n k hk hagree hfree
      rw [hq] at hchain
      refine ⟨hnext, ?_⟩
      rw [advance, hkill]
      refine happend r k (fun x hx => ?_) hkill hchain
      rw [hq] at hx
      cases hx
    | some x :: r =>
      rw [hq] at hchain hn
      obtain ⟨rfl, hbehind⟩ := hchain
      have hlt : k < K := hn
      have hhead : (q n)[0]? = some (some (ins k)) := by rw [hq]; rfl
      obtain ⟨hnext, htaken⟩ := h.retire n k hlt hagree hhead
      refine ⟨hnext, ?_⟩
      rw [advance]
      cases hkill : kill n with
      | true => exact chain_squashed ⟨hlt, h.redirect n k hlt hagree hhead hkill⟩ _
      | false =>
        have hnot : ¬ (taken k ∨ K ≤ k) := by
          rw [← htaken, hkill, not_or, Nat.not_le]
          exact ⟨Bool.false_ne_true, hlt⟩
        refine happend r (k + 1) (fun y hy => ?_) hkill (hbehind hnot)
        rw [hhead] at hy
        cases hy
        exact ⟨rfl, hlt⟩

/-- The next occupant of the oldest stage is the next element. -/
theorem InStepTo.head (h : InStepTo K q kill new ins taken agree front)
    (hrun : Run d q kill new) {n : Nat} (hn : retired q n ≤ K) {x : ι}
    (hx : (q n)[0]? = some (some x)) : x = ins (retired q n) := by
  obtain ⟨-, hchain⟩ := h.follows hrun n hn
  match hq : q n with
  | [] =>
    rw [hq] at hx
    cases hx
  | o :: r =>
    rw [hq] at hx hchain
    cases hx
    exact hchain.1

/-- Far enough in front of the bound it does not matter. -/
theorem Chain.unbounded {front : Nat → Prop} {q : List (Option ι)} {k : Nat}
    (h : Chain ins (fun j => taken j ∨ K ≤ j) (fun j => j ≤ K ∧ front j) k q)
    (hK : k + q.length ≤ K) : Chain ins taken front k q := by
  induction q generalizing k with
  | nil => exact h.2
  | cons o q ih =>
    rw [List.length_cons, Nat.add_succ] at hK
    cases o with
    | none => exact ih h (Nat.le_of_succ_le hK)
    | some x =>
      refine ⟨h.1, fun hnot => ih (h.2 ?_) (Nat.succ_add k _ ▸ hK)⟩
      rintro (ht | hle)
      · exact hnot ht
      · exact absurd hle (Nat.not_le.mpr (Nat.lt_of_le_of_lt (Nat.le_add_right k _) hK))

/-- Over a whole run the pipeline follows the path. -/
theorem InStep.follows (h : InStep q kill new ins taken agree front) (hrun : Run d q kill new)
    (n : Nat) : agree n (retired q n) ∧ Chain ins taken (front n) (retired q n) (q n) := by
  obtain ⟨hagree, hchain⟩ := (h.upTo (retired q n + (q n).length)).follows hrun n
    (Nat.le_add_right _ _)
  exact ⟨hagree, hchain.unbounded le_rfl⟩

end Follow

end Slots
