import Mathlib.Data.BitVec
import Mathlib.Logic.Function.Iterate

/-!
# Reflected cyclic redundancy checks

A CRC register of `w` bits takes in one bit at a time, the least significant bit of each
symbol first: the bit is added to the lowest bit of the register, and the register then
shifts down and, if a one falls out, adds the polynomial.

1. The shift is linear over xor (`shift_xor`), and as long as zeros fall out it is only a
   shift (`shift_iterate_of_low_zero`).
2. `feedBits_bitsOf`: taking in the `n` bits of a symbol is adding the symbol and then `n`
   shifts.
3. `feedBits_table`: so a table over the low `n` bits of the register replaces `n` shifts.
4. `feedBits_ne_of_burst`: if the top bit of the polynomial is set, inputs that differ only
   inside a window not longer than the register are told apart.
-/

namespace Crc

variable {w n : Nat} (poly : BitVec w)

/-! ## 1. The register -/

def shift (s : BitVec w) : BitVec w := if s.getLsbD 0 then (s >>> 1) ^^^ poly else s >>> 1

/-- Taking in one bit. -/
def feedBit (s : BitVec w) (b : Bool) : BitVec w :=
  shift poly (s ^^^ (BitVec.ofBool b).setWidth w)

def feedBits (s : BitVec w) (bs : List Bool) : BitVec w := bs.foldl (feedBit poly) s

/-- The bits of a symbol, lowest first. -/
def bitsOf (v : BitVec n) : List Bool := (List.range n).map v.getLsbD

theorem feedBits_append (s : BitVec w) (xs ys : List Bool) :
    feedBits poly s (xs ++ ys) = feedBits poly (feedBits poly s xs) ys :=
  List.foldl_append

theorem shift_of_bit0 {s : BitVec w} (h : s.getLsbD 0 = false) : shift poly s = s >>> 1 := by
  unfold shift
  rw [h]
  rfl

theorem shift_xor (s t : BitVec w) : shift poly (s ^^^ t) = shift poly s ^^^ shift poly t := by
  apply BitVec.eq_of_getLsbD_eq
  intro i _
  unfold shift
  rw [BitVec.getLsbD_xor]
  cases s.getLsbD 0 with
  | false => cases t.getLsbD 0 <;> simp
  | true =>
    cases t.getLsbD 0 with
    | false =>
      simp only [Bool.xor_false, if_true, Bool.false_eq_true, if_false, BitVec.getLsbD_xor,
        BitVec.getLsbD_ushiftRight]
      rw [Bool.xor_right_comm]
    | true =>
      -- the polynomial is added twice on the right
      simp only [Bool.xor_self, if_true, Bool.false_eq_true, if_false, BitVec.getLsbD_xor,
        BitVec.getLsbD_ushiftRight]
      cases poly.getLsbD i <;> simp

theorem shift_iterate_xor (k : Nat) (s t : BitVec w) :
    (shift poly)^[k] (s ^^^ t) = (shift poly)^[k] s ^^^ (shift poly)^[k] t := by
  induction k with
  | zero => rfl
  | succ k ih => rw [Function.iterate_succ_apply', Function.iterate_succ_apply',
      Function.iterate_succ_apply', ih, shift_xor]

/-- While the bits that fall out are zero the polynomial is not added. -/
theorem shift_iterate_of_low_zero {k : Nat} {s : BitVec w}
    (h : ∀ i, i < k → s.getLsbD i = false) : (shift poly)^[k] s = s >>> k := by
  induction k with
  | zero => exact (BitVec.ushiftRight_zero s).symm
  | succ k ih =>
    have hbit : (s >>> k).getLsbD 0 = false := by
      rw [BitVec.getLsbD_ushiftRight]
      exact h k (Nat.lt_succ_self k)
    rw [Function.iterate_succ_apply', ih fun i hi => h i (Nat.lt_succ_of_lt hi),
      shift_of_bit0 poly hbit, BitVec.shiftRight_add]

/-! ## 2. Symbols -/

/-- One more bit of a symbol, at its place in the register. -/
theorem setWidth_succ (v : BitVec n) (k : Nat) :
    (v.setWidth (k + 1)).setWidth w =
      (v.setWidth k).setWidth w ^^^ (BitVec.ofBool (v.getLsbD k)).setWidth w <<< k := by
  apply BitVec.eq_of_getLsbD_eq
  intro i hi
  simp only [BitVec.getLsbD_xor, BitVec.getLsbD_shiftLeft, BitVec.getLsbD_setWidth,
    BitVec.getLsbD_ofBool, hi, decide_true, Bool.true_and]
  rcases Nat.lt_trichotomy i k with hlt | rfl | hgt
  · simp [hlt, Nat.lt_succ_of_lt hlt]
  · simp [Nat.zero_lt_of_lt hi]
  · have h1 : ¬ i < k + 1 := by omega
    have h2 : ¬ i < k := by omega
    have h3 : i - k ≠ 0 := by omega
    simp [h1, h2, h3]

/-- A bit at place `k` reaches the lowest place after `k` shifts. -/
theorem shift_iterate_bit {k : Nat} (hk : k < w) (b : Bool) :
    (shift poly)^[k] ((BitVec.ofBool b).setWidth w <<< k) = (BitVec.ofBool b).setWidth w := by
  rw [shift_iterate_of_low_zero]
  · apply BitVec.eq_of_getLsbD_eq
    intro i hi
    simp only [BitVec.getLsbD_ushiftRight, BitVec.getLsbD_shiftLeft, BitVec.getLsbD_setWidth,
      BitVec.getLsbD_ofBool]
    rcases Nat.eq_zero_or_pos i with rfl | hpos
    · simp [hk]
    · have h0 : i ≠ 0 := by omega
      simp [h0]
  · intro i hi
    rw [BitVec.getLsbD_shiftLeft, decide_eq_true hi, Bool.not_true, Bool.and_false, Bool.false_and]

/-- Taking in a symbol bit by bit is adding it and then shifting. -/
theorem feedBits_bitsOf (hn : n ≤ w) (s : BitVec w) (v : BitVec n) :
    feedBits poly s (bitsOf v) = (shift poly)^[n] (s ^^^ v.setWidth w) := by
  have hprefix : ∀ k, k ≤ n → feedBits poly s ((List.range k).map v.getLsbD) =
      (shift poly)^[k] (s ^^^ (v.setWidth k).setWidth w) := by
    intro k
    induction k with
    | zero =>
      intro _
      have hnil : (v.setWidth 0).setWidth w = 0#w := by
        rw [BitVec.eq_nil (v.setWidth 0)]
        simp
      rw [hnil, BitVec.xor_zero]
      rfl
    | succ k ih =>
      intro hk
      have hfeed : feedBits poly s ((List.range (k + 1)).map v.getLsbD) =
          feedBit poly (feedBits poly s ((List.range k).map v.getLsbD)) (v.getLsbD k) := by
        simp [feedBits, List.range_succ]
      rw [hfeed, ih (Nat.le_of_succ_le hk), feedBit, setWidth_succ, ← BitVec.xor_assoc,
        Function.iterate_succ_apply', shift_iterate_xor poly k (s ^^^ _),
        shift_iterate_bit poly (Nat.lt_of_lt_of_le hk hn)]
  have hall := hprefix n (Nat.le_refl n)
  rwa [BitVec.setWidth_eq] at hall

/-! ## 3. Tables -/

/-- A register is its low `n` bits and the others. -/
theorem eq_low_xor_high (s : BitVec w) (n : Nat) :
    s = (s.setWidth n).setWidth w ^^^ s >>> n <<< n := by
  apply BitVec.eq_of_getLsbD_eq
  intro i hi
  simp only [BitVec.getLsbD_xor, BitVec.getLsbD_shiftLeft, BitVec.getLsbD_setWidth,
    BitVec.getLsbD_ushiftRight, hi, decide_true, Bool.true_and]
  rcases Nat.lt_or_ge i n with hlt | hge
  · simp [hlt]
  · have h1 : ¬ i < n := by omega
    simp [h1, Nat.add_sub_cancel' hge]

/-- `n` shifts: the low `n` bits alone decide what is added to the shifted register. -/
theorem shift_iterate_table (n : Nat) (s : BitVec w) :
    (shift poly)^[n] s = s >>> n ^^^ (shift poly)^[n] ((s.setWidth n).setWidth w) := by
  have hhigh : (shift poly)^[n] (s >>> n <<< n) = s >>> n := by
    rw [shift_iterate_of_low_zero]
    · apply BitVec.eq_of_getLsbD_eq
      intro i hi
      simp only [BitVec.getLsbD_ushiftRight, BitVec.getLsbD_shiftLeft]
      rcases Nat.lt_or_ge (n + i) w with hlt | hge
      · simp [hlt]
      · rw [BitVec.getLsbD_of_ge s _ hge]
        simp [hge]
    · intro i hi
      rw [BitVec.getLsbD_shiftLeft, decide_eq_true hi, Bool.not_true, Bool.and_false,
        Bool.false_and]
  calc (shift poly)^[n] s
      = (shift poly)^[n] ((s.setWidth n).setWidth w ^^^ s >>> n <<< n) := by
        rw [← eq_low_xor_high]
    _ = s >>> n ^^^ (shift poly)^[n] ((s.setWidth n).setWidth w) := by
        rw [shift_iterate_xor, hhigh, BitVec.xor_comm]

/-- The table method for a symbol of `n` bits: one lookup at the low bits of the register
and the symbol. -/
theorem feedBits_table (hn : n ≤ w) (s : BitVec w) (v : BitVec n) :
    feedBits poly s (bitsOf v) =
      s >>> n ^^^ (shift poly)^[n] (((s ^^^ v.setWidth w).setWidth n).setWidth w) := by
  have hgone : v.setWidth w >>> n = 0#w := by
    apply BitVec.eq_of_getLsbD_eq
    intro i _
    rw [BitVec.getLsbD_ushiftRight, BitVec.getLsbD_setWidth, BitVec.getLsbD_of_ge v _ (by omega)]
    simp
  rw [feedBits_bitsOf poly hn, shift_iterate_table, BitVec.ushiftRight_xor_distrib, hgone,
    BitVec.xor_zero]

/-! ## 4. Distinct inputs -/

section Injective

variable {poly}

/-- With the top bit of the polynomial set, the register after a shift tells whether a one
fell out, so nothing is lost. -/
theorem eq_zero_of_shift (hp : poly.getLsbD (w - 1) = true) {s : BitVec w}
    (h : shift poly s = 0#w) : s = 0#w := by
  have htop : (s >>> 1).getLsbD (w - 1) = false := by
    rw [BitVec.getLsbD_ushiftRight, BitVec.getLsbD_of_ge s _ (by omega)]
  unfold shift at h
  cases hbit : s.getLsbD 0 with
  | true =>
    rw [hbit, if_pos rfl] at h
    have := congrArg (BitVec.getLsbD · (w - 1)) h
    simp [htop, hp] at this
  | false =>
    rw [hbit, if_neg Bool.false_ne_true] at h
    apply BitVec.eq_of_getLsbD_eq
    intro i _
    rw [BitVec.getLsbD_zero]
    cases i with
    | zero => exact hbit
    | succ i =>
      have := congrArg (BitVec.getLsbD · i) h
      simpa [Nat.add_comm] using this

theorem shift_injective (hp : poly.getLsbD (w - 1) = true) : Function.Injective (shift poly) := by
  intro s t h
  have hxor : shift poly (s ^^^ t) = 0#w := by rw [shift_xor, h, BitVec.xor_self]
  exact BitVec.xor_eq_zero_iff.mp (eq_zero_of_shift hp hxor)

/-- Equal bits never cancel a difference of the registers. -/
theorem feedBits_injective (hp : poly.getLsbD (w - 1) = true) (bs : List Bool) :
    Function.Injective (feedBits poly · bs) := by
  induction bs with
  | nil => exact fun _ _ h => h
  | cons b bs ih =>
    intro s t h
    have hfeed : feedBit poly s b = feedBit poly t b := ih h
    exact (BitVec.xor_left_inj _).mp (shift_injective hp hfeed)

/-- A bit string is the bits of a symbol. -/
theorem exists_bitsOf {bs : List Bool} (h : bs.length = n) : ∃ v : BitVec n, bitsOf v = bs := by
  subst h
  refine ⟨BitVec.ofBoolListLE bs, List.ext_getElem (by simp [bitsOf]) fun i h1 h2 => ?_⟩
  simp only [bitsOf, List.getElem_map, List.getElem_range, BitVec.getLsbD_ofBoolListLE]
  rw [List.getD_eq_getElem?_getD, List.getElem?_eq_getElem h2]
  rfl

theorem bitsOf_injective : Function.Injective (bitsOf (n := n)) := by
  intro u v h
  apply BitVec.eq_of_getLsbD_eq
  intro i hi
  have := congrArg (·[i]?) h
  simpa [bitsOf, hi] using this

/-- Different bit strings, not longer than the register, leave different registers. -/
theorem eq_of_feedBits_eq (hp : poly.getLsbD (w - 1) = true) (hn : n ≤ w) {xs ys : List Bool}
    {s : BitVec w} (hx : xs.length = n) (hy : ys.length = n)
    (h : feedBits poly s xs = feedBits poly s ys) : xs = ys := by
  obtain ⟨u, rfl⟩ := exists_bitsOf hx
  obtain ⟨v, rfl⟩ := exists_bitsOf hy
  rw [feedBits_bitsOf poly hn, feedBits_bitsOf poly hn] at h
  have hwide : u.setWidth w = v.setWidth w :=
    (BitVec.xor_right_inj s).mp ((shift_injective hp).iterate n h)
  have huv : u = v := by
    apply BitVec.eq_of_getLsbD_eq
    intro i hi
    have := congrArg (BitVec.getLsbD · i) hwide
    simpa [Nat.lt_of_lt_of_le hi hn] using this
  rw [huv]

/-- Bit strings of one length that differ, but only inside a window not longer than the
register, leave different registers. -/
theorem feedBits_ne_of_burst (hp : poly.getLsbD (w - 1) = true) (s : BitVec w)
    {xs ys : List Bool} (hlen : xs.length = ys.length) (hne : xs ≠ ys) {p : Nat}
    (hwin : ∀ i, ¬ (p ≤ i ∧ i < p + w) → xs[i]? = ys[i]?) :
    feedBits poly s xs ≠ feedBits poly s ys := by
  intro h
  have hpre : xs.take p = ys.take p := by
    apply List.ext_getElem?
    intro i
    rw [List.getElem?_take, List.getElem?_take]
    split
    · next hi => exact hwin i (by omega)
    · rfl
  have hpost : (xs.drop p).drop w = (ys.drop p).drop w := by
    apply List.ext_getElem?
    intro i
    rw [List.drop_drop, List.drop_drop, List.getElem?_drop, List.getElem?_drop]
    exact hwin _ (by omega)
  have hsplit (zs : List Bool) : zs = zs.take p ++ ((zs.drop p).take w ++ (zs.drop p).drop w) := by
    rw [List.take_append_drop, List.take_append_drop]
  rw [hsplit xs, hsplit ys, hpre, hpost, feedBits_append, feedBits_append, feedBits_append,
    feedBits_append] at h
  -- the bits after the window are equal, so the registers after the window are
  have hmid := eq_of_feedBits_eq hp (List.length_take_le w (xs.drop p)) rfl (by simp [hlen])
    (feedBits_injective hp _ h)
  exact hne (by rw [hsplit xs, hsplit ys, hpre, hmid, hpost])

end Injective

end Crc
