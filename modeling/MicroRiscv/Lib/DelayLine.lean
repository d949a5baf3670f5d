import Mathlib.Data.List.Nodup
import Mathlib.Data.List.ReduceOption

/-!
# A delay line of counted items

Items on their way carry the number of steps they have made. In each round the items that
have made `d` steps leave, all others make one more, and at most one new item enters with
its first step. Nothing keeps two items from leaving together but the way they came in:
one in each round, so they are never at the same step.

`inputs` are the arrivals of the past rounds, the newest first, `none` for a round without
one. `line d 1 inputs` is what is then on its way (the oldest first).

1. `advance_line`: one round. The item that leaves is the one that entered `d` rounds ago.
2. `nodup_steps_line`: no two items are at the same step.
3. `map_fst_line`: the items on their way are those of the last `d` rounds.

`delayed d inputs` are the items that have left, one for each round (`inputs` and these the
oldest first).

4. `delayed_concat`: the history of one more round.
5. `reduceOption_delayed_append_line`: what has left and what is on its way is together what
   has arrived, in the same order.
-/

namespace DelayLine

variable {α : Type}

/-- One round: the last of the items that leave, and the others one step further. -/
def advance (d : Nat) : List (α × Nat) → Option α × List (α × Nat)
  | [] => (none, [])
  | (x, k) :: items =>
    let (out, rest) := advance d items
    if k = d then (out.or (some x), rest) else (out, (x, k + 1) :: rest)

/-- What is on its way when the newest arrival has made `k` steps. -/
def line (d : Nat) : Nat → List (Option α) → List (α × Nat)
  | _, [] => []
  | k, x :: inputs => if k ≤ d then line d (k + 1) inputs ++ (x.map (·, k)).toList else []

theorem line_of_lt {d k : Nat} (h : d < k) (inputs : List (Option α)) : line d k inputs = [] := by
  cases inputs with
  | nil => rfl
  | cons x inputs => exact if_neg (Nat.not_le_of_lt h)

theorem advance_append (d : Nat) (a b : List (α × Nat)) : advance d (a ++ b) =
    ((advance d b).1.or (advance d a).1, (advance d a).2 ++ (advance d b).2) := by
  induction a with
  | nil => simp [advance]
  | cons item a ih =>
    obtain ⟨x, k⟩ := item
    rw [List.cons_append]
    simp only [advance, ih]
    split
    · rw [Option.or_assoc]
    · rfl

/-- One round of the line. -/
theorem advance_line {d k : Nat} (h : k ≤ d) (inputs : List (Option α)) :
    advance d (line d k inputs) = (inputs[d - k]?.join, line d (k + 1) inputs) := by
  induction inputs generalizing k with
  | nil => rfl
  | cons x inputs ih =>
    rw [line, if_pos h, advance_append]
    rcases Nat.lt_or_eq_of_le h with hlt | rfl
    · -- the newest item moves on, the one that leaves is older
      have hsub : d - k = (d - (k + 1)) + 1 := by omega
      rw [ih hlt, hsub, List.getElem?_cons_succ, line, if_pos (Nat.succ_le_of_lt hlt)]
      cases x with
      | none => simp [advance]
      | some x => simp [advance, Nat.ne_of_lt hlt]
    · rw [line_of_lt (Nat.lt_succ_self k), line_of_lt (Nat.lt_succ_self k), Nat.sub_self,
        List.getElem?_cons_zero]
      cases x with
      | none => rfl
      | some x => simp [advance]

/-- A new arrival. -/
theorem line_cons {d : Nat} (h : 1 ≤ d) (x : Option α) (inputs : List (Option α)) :
    line d 1 (x :: inputs) = line d 2 inputs ++ (x.map (·, 1)).toList :=
  if_pos h

theorem le_step_of_mem_line {d k : Nat} {inputs : List (Option α)} {item : α × Nat}
    (h : item ∈ line d k inputs) : k ≤ item.2 := by
  induction inputs generalizing k with
  | nil => cases h
  | cons x inputs ih =>
    unfold line at h
    split at h
    · cases List.mem_append.mp h with
      | inl hold => exact Nat.le_of_succ_le (ih hold)
      | inr hnew =>
        cases x with
        | none => cases hnew
        | some x =>
          cases List.mem_singleton.mp hnew
          exact Nat.le_refl k
    · cases h

/-- No two items are at the same step. -/
theorem nodup_steps_line (d k : Nat) (inputs : List (Option α)) :
    ((line d k inputs).map Prod.snd).Nodup := by
  induction inputs generalizing k with
  | nil => exact List.nodup_nil
  | cons x inputs ih =>
    rw [line]
    split
    · cases x with
      | none => simpa using ih (k + 1)
      | some x =>
        rw [List.map_append, List.nodup_append]
        refine ⟨ih (k + 1), List.nodup_singleton _, fun s hs t ht => ?_⟩
        obtain ⟨item, hitem, rfl⟩ := List.mem_map.mp hs
        have hlow := le_step_of_mem_line hitem
        cases List.mem_singleton.mp ht
        exact Nat.ne_of_gt hlow
    · exact List.nodup_nil

/-- The items on their way are the arrivals of the last rounds. -/
theorem map_fst_line {d k : Nat} (inputs : List (Option α)) (h : k ≤ d + 1) :
    (line d k inputs).map Prod.fst = (inputs.take (d + 1 - k)).reduceOption.reverse := by
  induction inputs generalizing k with
  | nil => rw [List.take_nil]; rfl
  | cons x inputs ih =>
    rw [line]
    split
    · next hle =>
      have hsub : d + 1 - k = (d + 1 - (k + 1)) + 1 := by omega
      rw [List.map_append, ih (Nat.succ_le_succ hle), hsub, List.take_succ_cons]
      cases x with
      | none => simp
      | some x => simp
    · next hlt =>
      have hsub : d + 1 - k = 0 := by omega
      rw [hsub, List.take_zero]
      rfl

/-! ## What has left -/

/-- What has left in each of the past rounds. -/
def delayed (d : Nat) (inputs : List (Option α)) : List (Option α) :=
  (List.replicate d none ++ inputs).take inputs.length

theorem length_delayed (d : Nat) (inputs : List (Option α)) :
    (delayed d inputs).length = inputs.length := by
  simp [delayed]

/-- What leaves in round `m` arrived `d` rounds before. -/
theorem delayed_eq_some {d m : Nat} {inputs : List (Option α)} {x : α} :
    (delayed d inputs)[m]? = some (some x) ↔
      m < inputs.length ∧ d ≤ m ∧ inputs[m - d]? = some (some x) := by
  rw [delayed, List.getElem?_take]
  split
  · next hm =>
    rcases Nat.lt_or_ge m d with hlt | hge
    · rw [List.getElem?_append_left (by simpa using hlt)]
      simp [hlt, Nat.not_le_of_lt hlt]
    · rw [List.getElem?_append_right (by simpa using hge), List.length_replicate]
      simp [hm, hge]
  · next hm => simp [hm]

theorem delayed_concat {d : Nat} (h : 1 ≤ d) (inputs : List (Option α)) (x : Option α) :
    delayed d (inputs ++ [x]) = delayed d inputs ++ [inputs.reverse[d - 1]?.join] := by
  have hlen : inputs.length < (List.replicate d none ++ (inputs ++ [x])).length := by
    simp
    omega
  have hout : (List.replicate d none ++ (inputs ++ [x]))[inputs.length] =
      inputs.reverse[d - 1]?.join := by
    rcases Nat.lt_or_ge inputs.length d with hlt | hge
    · rw [List.getElem_append_left (by simpa using hlt), List.getElem_replicate,
        List.getElem?_eq_none (by simp; omega)]
      rfl
    · have hsub : inputs.length - 1 - (d - 1) = inputs.length - d := by omega
      rw [List.getElem_append_right (by simpa using hge), List.getElem?_reverse (by omega), hsub,
        List.getElem?_eq_getElem (by omega), List.getElem_append_left (by simp; omega)]
      simp
  rw [delayed, List.length_append, List.length_singleton, List.take_succ_eq_append_getElem hlen,
    hout, ← List.append_assoc, List.take_append_of_le_length (by simp)]
  rfl

/-- Nothing is lost, duplicated or overtaken on the way. -/
theorem reduceOption_delayed_append_line (d : Nat) (inputs : List (Option α)) :
    (delayed d inputs).reduceOption ++ (line d 1 inputs.reverse).map Prod.fst =
      inputs.reduceOption := by
  have hleft : (delayed d inputs).reduceOption =
      (inputs.take (inputs.length - d)).reduceOption := by
    rw [delayed, List.take_append, List.reduceOption_append, List.take_replicate,
      List.reduceOption_replicate_none, List.nil_append, List.length_replicate]
  have hline : (line d 1 inputs.reverse).map Prod.fst =
      (inputs.drop (inputs.length - d)).reduceOption := by
    rw [map_fst_line _ (Nat.le_add_left 1 d), Nat.add_sub_cancel, List.take_reverse,
      List.reduceOption, List.filterMap_reverse, List.reverse_reverse]
  rw [hleft, hline, ← List.reduceOption_append, List.take_append_drop]

end DelayLine
