import Mathlib.Logic.Equiv.Basic
import Mathlib.Algebra.Group.End
import Mathlib.Data.List.Nodup
import Mathlib.Order.Monotone.Basic
import Mathlib.Order.Interval.Set.Defs

/-!
# Rearranging a part of an indexed family

In-place sorting moves the elements at the indices `S` and leaves all others alone.
`Rearranged S a b` says this of the families `a` before and `b` after: `b` is `a` along a
permutation of the indices that fixes every index outside `S`. It carries both the
permutation and the frame, composes over a sequence of operations, and follows for a
whole from a rearrangement of a part. Sortedness is `MonotoneOn`.
-/

namespace Segment

variable {ι : Type*} {α : Type*} {β : Type*} {S T : Set ι} {a b c : ι → α}

def Rearranged (S : Set ι) (a b : ι → α) : Prop :=
  ∃ σ : Equiv.Perm ι, (∀ i, i ∉ S → σ i = i) ∧ b = a ∘ σ

theorem Rearranged.refl (S : Set ι) (a : ι → α) : Rearranged S a a :=
  ⟨1, fun _ _ => rfl, rfl⟩

theorem Rearranged.trans (h : Rearranged S a b) (h' : Rearranged S b c) : Rearranged S a c := by
  obtain ⟨σ, hσ, rfl⟩ := h
  obtain ⟨τ, hτ, rfl⟩ := h'
  refine ⟨σ * τ, fun i hi => ?_, rfl⟩
  rw [Equiv.Perm.mul_apply, hτ i hi, hσ i hi]

theorem Rearranged.mono (h : Rearranged S a b) (hST : S ⊆ T) : Rearranged T a b := by
  obtain ⟨σ, hσ, rfl⟩ := h
  exact ⟨σ, fun i hi => hσ i fun hS => hi (hST hS), rfl⟩

/-- Outside the part nothing changes. -/
theorem Rearranged.eq_of_notMem (h : Rearranged S a b) {i : ι} (hi : i ∉ S) : b i = a i := by
  obtain ⟨σ, hσ, rfl⟩ := h
  rw [Function.comp_apply, hσ i hi]

/-- A permutation that fixes the other indices maps the part to itself. -/
theorem apply_mem {σ : Equiv.Perm ι} (hσ : ∀ i, i ∉ S → σ i = i) {i : ι} (hi : i ∈ S) :
    σ i ∈ S := by
  by_contra hout
  have hfix : σ i = i := σ.injective (hσ (σ i) hout)
  exact hout (hfix.symm ▸ hi)

/-- Every element of the part was there before. -/
theorem Rearranged.exists_mem (h : Rearranged S a b) {i : ι} (hi : i ∈ S) :
    ∃ j, j ∈ S ∧ b i = a j := by
  obtain ⟨σ, hσ, rfl⟩ := h
  exact ⟨σ i, apply_mem hσ hi, rfl⟩

/-- So what holds of all elements of the part still does. -/
theorem Rearranged.forall_mem (h : Rearranged S a b) {p : α → Prop} (hp : ∀ i, i ∈ S → p (a i))
    {i : ι} (hi : i ∈ S) : p (b i) := by
  obtain ⟨j, hj, he⟩ := h.exists_mem hi
  rw [he]
  exact hp j hj

/-- Exchanging two elements of the part. -/
theorem rearranged_swap [DecidableEq ι] (a : ι → α) {i j : ι} (hi : i ∈ S) (hj : j ∈ S) :
    Rearranged S a (Function.update (Function.update a i (a j)) j (a i)) := by
  refine ⟨Equiv.swap j i, fun k hk => ?_, (Equiv.comp_swap_eq_update j i a).symm⟩
  apply Equiv.swap_apply_of_ne_of_ne
  · rintro rfl
    exact hk hj
  · rintro rfl
    exact hk hi

/-- The elements of the part, listed in any order of the indices, before and after. -/
theorem Rearranged.perm_map (h : Rearranged S a b) {xs : List ι} (hnd : xs.Nodup)
    (hS : ∀ i, i ∈ xs ↔ i ∈ S) : (xs.map b).Perm (xs.map a) := by
  obtain ⟨σ, hσ, rfl⟩ := h
  have hperm : (xs.map σ).Perm xs := by
    rw [List.perm_ext_iff_of_nodup (hnd.map σ.injective) hnd]
    intro i
    rw [List.mem_map]
    constructor
    · rintro ⟨j, hj, rfl⟩
      exact (hS _).mpr (apply_mem hσ ((hS j).mp hj))
    · intro hi
      refine ⟨σ.symm i, ?_, σ.apply_symm_apply i⟩
      rw [hS]
      by_contra hout
      have hfix : i = σ.symm i := (σ.apply_symm_apply i).symm.trans (hσ _ hout)
      exact hout (hfix ▸ (hS i).mp hi)
  rw [← List.map_map]
  exact hperm.map a

/-- Two sorted parts around a bound between them. -/
theorem monotoneOn_join [LinearOrder ι] [Preorder β] {f : ι → β} {k : ι}
    (hleft : MonotoneOn f (S ∩ Set.Iio k)) (hright : MonotoneOn f (S ∩ Set.Ioi k))
    (hle : ∀ i, i ∈ S → i < k → f i ≤ f k) (hge : ∀ i, i ∈ S → k < i → f k ≤ f i) :
    MonotoneOn f S := by
  intro i hi j hj hij
  rcases lt_trichotomy i k with hik | rfl | hki
  · rcases lt_trichotomy j k with hjk | rfl | hkj
    · exact hleft ⟨hi, hik⟩ ⟨hj, hjk⟩ hij
    · exact hle i hi hik
    · exact (hle i hi hik).trans (hge j hj hkj)
  · rcases hij.lt_or_eq with hlt | rfl
    · exact hge j hj hlt
    · exact le_rfl
  · exact hright ⟨hi, hki⟩ ⟨hj, hki.trans_le hij⟩ hij

end Segment
