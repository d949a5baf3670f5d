import Mathlib.Data.BitVec

/-!
# Words in a byte memory

A memory of bytes under `w`-bit addresses, with little-endian 32-bit words in it at any
address. `load_store` reads back a word, `load_store_of_apart` says that words without a
common byte do not interfere, and `Holds` is an array of words, which grows by storing
behind it (`Holds.push`).
-/

namespace ByteMemory

variable {w : Nat}

/-- The word at `a`, lowest byte first. -/
def load (m : BitVec w → BitVec 8) (a : BitVec w) : BitVec 32 :=
  m (a + BitVec.ofNat w 3) ++ m (a + BitVec.ofNat w 2) ++ m (a + BitVec.ofNat w 1) ++ m a

/-- Byte `k` of `v` goes to the address `a + k`. -/
def store (m : BitVec w → BitVec 8) (a : BitVec w) (v : BitVec 32) : BitVec w → BitVec 8 :=
  fun x => if (x - a).toNat < 4 then v.extractLsb' (8 * (x - a).toNat) 8 else m x

theorem toNat_offset (a : BitVec w) {k : Nat} (hk : k < 2 ^ w) :
    (a + BitVec.ofNat w k - a).toNat = k := by
  rw [BitVec.add_comm, BitVec.add_sub_cancel, BitVec.toNat_ofNat, Nat.mod_eq_of_lt hk]

/-- The four bytes of a word. -/
theorem load_eq {m : BitVec w → BitVec 8} {a : BitVec w} {v : BitVec 32}
    (h : ∀ k, k < 4 → m (a + BitVec.ofNat w k) = v.extractLsb' (8 * k) 8) : load m a = v := by
  have h0 := h 0 (by decide)
  rw [BitVec.add_zero] at h0
  unfold load
  rw [h 3 (by decide), h 2 (by decide), h 1 (by decide), h0]
  apply BitVec.eq_of_getLsbD_eq
  intro i hi
  simp only [BitVec.getLsbD_append, BitVec.getLsbD_extractLsb']
  grind

/-- The word just stored. -/
theorem load_store (hw : 2 ≤ w) (m : BitVec w → BitVec 8) (a : BitVec w) (v : BitVec 32) :
    load (store m a v) a = v := by
  have hsize : 4 ≤ 2 ^ w := Nat.pow_le_pow_right Nat.two_pos hw
  apply load_eq
  intro k hk
  unfold store
  rw [toNat_offset a (Nat.lt_of_lt_of_le hk hsize), if_pos hk]

/-- No byte of the word at `b` belongs to the word at `a`. -/
def Apart (a b : BitVec w) : Prop := ∀ k, k < 4 → 4 ≤ (b + BitVec.ofNat w k - a).toNat

theorem load_store_of_apart (m : BitVec w → BitVec 8) {a b : BitVec w} (v : BitVec 32)
    (h : Apart a b) : load (store m a v) b = load m b := by
  have hbyte : ∀ k, k < 4 → store m a v (b + BitVec.ofNat w k) = m (b + BitVec.ofNat w k) := by
    intro k hk
    unfold store
    rw [if_neg (Nat.not_lt.mpr (h k hk))]
  have hbyte0 : store m a v b = m b := by
    have h0 := hbyte 0 (by decide)
    rwa [BitVec.add_zero] at h0
  unfold load
  rw [hbyte 3 (by decide), hbyte 2 (by decide), hbyte 1 (by decide), hbyte0]

/-! ## Arrays -/

/-- The address of the `i`-th word behind `base`. -/
def wordAddr (base : BitVec w) (i : Nat) : BitVec w := base + BitVec.ofNat w (4 * i)

theorem wordAddr_succ (base : BitVec w) (i : Nat) :
    wordAddr base (i + 1) = wordAddr base i + BitVec.ofNat w 4 := by
  unfold wordAddr
  rw [Nat.mul_succ, BitVec.ofNat_add, BitVec.add_assoc]

/-- Two words of an array that fits into the memory are apart. -/
theorem apart_wordAddr (base : BitVec w) {i j : Nat} (hij : i ≠ j) (hi : 4 * i + 4 ≤ 2 ^ w)
    (hj : 4 * j + 4 ≤ 2 ^ w) : Apart (wordAddr base i) (wordAddr base j) := by
  intro k hk
  have hdiff : (wordAddr base j + BitVec.ofNat w k - wordAddr base i).toNat =
      (2 ^ w - 4 * i + (4 * j + k)) % 2 ^ w := by
    have hcancel : wordAddr base j + BitVec.ofNat w k - wordAddr base i =
        BitVec.ofNat w (4 * j + k) - BitVec.ofNat w (4 * i) := by
      unfold wordAddr
      rw [BitVec.add_assoc, ← BitVec.ofNat_add, add_sub_add_left_eq_sub]
    rw [hcancel, BitVec.toNat_sub, BitVec.toNat_ofNat, BitVec.toNat_ofNat,
      Nat.mod_eq_of_lt (by omega : 4 * i < 2 ^ w), Nat.mod_eq_of_lt (by omega : 4 * j + k < 2 ^ w)]
  rw [hdiff]
  rcases Nat.lt_or_gt_of_ne hij with hlt | hgt
  · have hsum : 2 ^ w - 4 * i + (4 * j + k) = 4 * j + k - 4 * i + 2 ^ w := by omega
    rw [hsum, Nat.add_mod_right, Nat.mod_eq_of_lt (by omega)]
    omega
  · rw [Nat.mod_eq_of_lt (by omega)]
    omega

/-- The words from `base` on are those of `values`. -/
def Holds (m : BitVec w → BitVec 8) (base : BitVec w) (values : List (BitVec 32)) : Prop :=
  ∀ i v, values[i]? = some v → load m (wordAddr base i) = v

theorem holds_nil (m : BitVec w → BitVec 8) (base : BitVec w) : Holds m base [] :=
  fun _ _ h => nomatch h

/-- Storing behind the array makes it longer. -/
theorem Holds.push {m : BitVec w → BitVec 8} {base : BitVec w} {values : List (BitVec 32)}
    (h : Holds m base values) (hw : 2 ≤ w) (hlen : 4 * values.length + 4 ≤ 2 ^ w)
    (v : BitVec 32) :
    Holds (store m (wordAddr base values.length) v) base (values ++ [v]) := by
  intro i u hu
  rcases Nat.lt_trichotomy i values.length with hlt | rfl | hgt
  · rw [List.getElem?_append_left hlt] at hu
    have hapart : Apart (wordAddr base values.length) (wordAddr base i) :=
      apart_wordAddr base (Nat.ne_of_gt hlt) hlen (by omega)
    rw [load_store_of_apart m v hapart]
    exact h i u hu
  · rw [List.getElem?_concat_length] at hu
    cases hu
    exact load_store hw m _ v
  · rw [List.getElem?_eq_none (by rw [List.length_append, List.length_singleton]; omega)] at hu
    cases hu

end ByteMemory
