import Mathlib.Data.List.Forall2
import Mathlib.Data.Nat.Basic

/-!
# The byte sequences of UTF-8

A first byte says how many bytes come behind it and in which ranges they are (`First`). The ranges
leave out the encodings that are longer than necessary, the surrogates and what is above
U+10FFFF, so that a sequence in its ranges is the encoding of one character, the one with the code
point that is `assembled` from its bits.

Results:
1. `encode_eq_iff`: the encoding of a character by ranges and code point.
2. `exists_encode_iff`: the sequences that are encodings.
3. `Longest`, `Pieces`: sequences that need not be encodings have one division into characters and
   other parts.
4. `Reads`: functions that read from bytes what others read from characters, with rules for their
   composition.
-/

namespace Utf8

/-- The range of a byte that is not the first one, where it is not restricted further. -/
abbrev tail : Nat × Nat := (0x80, 0xBF)

/-- A first byte and the ranges of the bytes behind it. -/
inductive First : Nat → List (Nat × Nat) → Prop
  | one {b : Nat} (h : b ≤ 0x7F) : First b []
  | two {b : Nat} (h : 0xC2 ≤ b) (h' : b ≤ 0xDF) : First b [tail]
  | e0 : First 0xE0 [(0xA0, 0xBF), tail]
  | three {b : Nat} (h : 0xE1 ≤ b) (h' : b ≤ 0xEF) (hne : b ≠ 0xED) : First b [tail, tail]
  | ed : First 0xED [(0x80, 0x9F), tail]
  | f0 : First 0xF0 [(0x90, 0xBF), tail, tail]
  | four {b : Nat} (h : 0xF1 ≤ b) (h' : b ≤ 0xF3) : First b [tail, tail, tail]
  | f4 : First 0xF4 [(0x80, 0x8F), tail, tail]

def InRange (r : Nat × Nat) (b : UInt8) : Prop := r.1 ≤ b.toNat ∧ b.toNat ≤ r.2

theorem inRange_tail {b : UInt8} : InRange tail b ↔ 0x80 ≤ b.toNat ∧ b.toNat ≤ 0xBF := Iff.rfl

instance (r : Nat × Nat) (b : UInt8) : Decidable (InRange r b) :=
  inferInstanceAs (Decidable (_ ∧ _))

/-- The bits of the code point in a first byte. -/
def leadBits (b : Nat) : Nat :=
  if b ≤ 0x7F then b else if b ≤ 0xDF then b - 0xC0 else if b ≤ 0xEF then b - 0xE0 else b - 0xF0

/-- The code point, `v` being the bits so far. -/
def assembled (v : Nat) (bs : List UInt8) : Nat := bs.foldl (fun v b => v * 64 + (b.toNat - 0x80)) v

theorem assembled_concat (v : Nat) (bs : List UInt8) (b : UInt8) :
    assembled v (bs ++ [b]) = assembled v bs * 64 + (b.toNat - 0x80) := List.foldl_concat ..

/-- The bytes of a code point, as numbers. -/
def codes (n : Nat) : List Nat :=
  if n ≤ 0x7F then [n]
  else if n ≤ 0x7FF then [n / 64 + 0xC0, n % 64 + 0x80]
  else if n ≤ 0xFFFF then [n / 4096 + 0xE0, n / 64 % 64 + 0x80, n % 64 + 0x80]
  else [n / 262144 + 0xF0, n / 4096 % 64 + 0x80, n / 64 % 64 + 0x80, n % 64 + 0x80]

/-- The bytes of a text. -/
def encode (cs : List Char) : List UInt8 := cs.flatMap String.utf8EncodeChar

variable {c : Char} {b : UInt8} {bs : List UInt8} {rs : List (Nat × Nat)}

theorem toNat_lt (c : Char) : c.toNat < 0xD800 ∨ 0xDFFF < c.toNat ∧ c.toNat < 0x110000 := c.valid

theorem toNat_ofNat {n : Nat} (h : n.isValidChar) : (Char.ofNat n).toNat = n := by
  unfold Char.ofNat
  rw [dif_pos h]
  rfl

theorem byte_toNat {m n : Nat} (h : m = n) (hn : n < 256) : (UInt8.ofNat m).toNat = n := by
  rw [h, UInt8.toNat_ofNat', Nat.mod_eq_of_lt hn]

theorem utf8EncodeChar_codes (c : Char) :
    (String.utf8EncodeChar c).map UInt8.toNat = codes c.toNat := by
  have hc := toNat_lt c
  have hval : c.val.toNat = c.toNat := rfl
  unfold String.utf8EncodeChar codes
  simp only [hval]
  split
  · rw [List.map_cons, byte_toNat rfl (by omega), List.map_nil]
  split
  · simp only [List.map_cons, List.map_nil]
    rw [byte_toNat (by omega : _ = c.toNat / 64 + 0xC0) (by omega), byte_toNat rfl (by omega)]
  split
  · simp only [List.map_cons, List.map_nil]
    rw [byte_toNat (by omega : _ = c.toNat / 4096 + 0xE0) (by omega), byte_toNat rfl (by omega),
      byte_toNat rfl (by omega)]
  · simp only [List.map_cons, List.map_nil]
    rw [byte_toNat (by omega : _ = c.toNat / 262144 + 0xF0) (by omega), byte_toNat rfl (by omega),
      byte_toNat rfl (by omega), byte_toNat rfl (by omega)]

/-- The encoding of a character is told by its numbers. -/
theorem encode_eq_iff_codes : String.utf8EncodeChar c = b :: bs ↔
    codes c.toNat = b.toNat :: bs.map UInt8.toNat := by
  rw [← utf8EncodeChar_codes, ← List.map_cons]
  exact (List.map_injective_iff.mpr fun _ _ => UInt8.toNat_inj.mp).eq_iff.symm

theorem codes_two {a x : Nat} (ha : 0xC2 ≤ a) (hx : 0x80 ≤ x) (hx' : x ≤ 0xBF) (ha' : a ≤ 0xDF) :
    codes ((a - 0xC0) * 64 + (x - 0x80)) = [a, x] := by
  unfold codes
  rw [if_neg (by omega), if_pos (by omega)]
  simp only [List.cons.injEq, and_true]
  omega

theorem codes_three {a x y : Nat} (ha : 0xE0 ≤ a) (ha' : a ≤ 0xEF) (hlow : a = 0xE0 → 0xA0 ≤ x)
    (hx : 0x80 ≤ x) (hx' : x ≤ 0xBF) (hy : 0x80 ≤ y) (hy' : y ≤ 0xBF) :
    codes (((a - 0xE0) * 64 + (x - 0x80)) * 64 + (y - 0x80)) = [a, x, y] := by
  unfold codes
  rw [if_neg (by omega), if_neg (by omega), if_pos (by omega)]
  simp only [List.cons.injEq, and_true]
  omega

theorem codes_four {a x y z : Nat} (ha : 0xF0 ≤ a) (ha' : a ≤ 0xF4) (hlow : a = 0xF0 → 0x90 ≤ x)
    (hx : 0x80 ≤ x) (hx' : x ≤ 0xBF) (hy : 0x80 ≤ y) (hy' : y ≤ 0xBF) (hz : 0x80 ≤ z)
    (hz' : z ≤ 0xBF) :
    codes ((((a - 0xF0) * 64 + (x - 0x80)) * 64 + (y - 0x80)) * 64 + (z - 0x80)) =
      [a, x, y, z] := by
  unfold codes
  rw [if_neg (by omega), if_neg (by omega), if_neg (by omega)]
  simp only [List.cons.injEq, and_true]
  omega

theorem leadBits_two {a : Nat} (ha : 0xC2 ≤ a) (ha' : a ≤ 0xDF) : leadBits a = a - 0xC0 := by
  unfold leadBits
  rw [if_neg (by omega), if_pos ha']

theorem leadBits_three {a : Nat} (ha : 0xE0 ≤ a) (ha' : a ≤ 0xEF) : leadBits a = a - 0xE0 := by
  unfold leadBits
  rw [if_neg (by omega), if_neg (by omega), if_pos ha']

theorem leadBits_four {a : Nat} (ha : 0xF0 ≤ a) : leadBits a = a - 0xF0 := by
  unfold leadBits
  rw [if_neg (by omega), if_neg (by omega), if_neg (by omega)]

/-- Three bytes in their ranges. -/
theorem sequence_three {a : Nat} {lo hi : Nat} (ha : 0xE0 ≤ a) (ha' : a ≤ 0xEF)
    (hlo : 0x80 ≤ lo) (hhi : hi ≤ 0xBF) (hlow : a = 0xE0 → 0xA0 ≤ lo)
    (hsurrogate : a = 0xED → hi ≤ 0x9F) (hbs : List.Forall₂ InRange [(lo, hi), tail] bs) :
    codes (assembled (leadBits a) bs) = a :: bs.map UInt8.toNat ∧
      (assembled (leadBits a) bs).isValidChar := by
  obtain _ | ⟨⟨hx, hx'⟩, _ | ⟨⟨hy, hy'⟩, _ | _⟩⟩ := hbs
  rw [leadBits_three ha ha']
  dsimp only at hx hx' hy hy'
  refine ⟨codes_three ha ha' (by omega) (by omega) (by omega) hy hy', ?_⟩
  unfold Nat.isValidChar assembled
  simp only [List.foldl_cons, List.foldl_nil]
  omega

theorem sequence_four {a : Nat} {lo hi : Nat} (ha : 0xF0 ≤ a) (ha' : a ≤ 0xF4)
    (hlo : 0x80 ≤ lo) (hhi : hi ≤ 0xBF) (hlow : a = 0xF0 → 0x90 ≤ lo)
    (hhigh : a = 0xF4 → hi ≤ 0x8F) (hbs : List.Forall₂ InRange [(lo, hi), tail, tail] bs) :
    codes (assembled (leadBits a) bs) = a :: bs.map UInt8.toNat ∧
      (assembled (leadBits a) bs).isValidChar := by
  obtain _ | ⟨⟨hx, hx'⟩, _ | ⟨⟨hy, hy'⟩, _ | ⟨⟨hz, hz'⟩, _ | _⟩⟩⟩ := hbs
  rw [leadBits_four ha]
  dsimp only at hx hx' hy hy' hz hz'
  refine ⟨codes_four ha ha' (by omega) (by omega) (by omega) hy hy' hz hz', ?_⟩
  unfold Nat.isValidChar assembled
  simp only [List.foldl_cons, List.foldl_nil]
  omega

/-- A sequence in its ranges is the encoding of its code point. -/
theorem codes_of_ranges {a : Nat} (h : First a rs) (hbs : List.Forall₂ InRange rs bs) :
    codes (assembled (leadBits a) bs) = a :: bs.map UInt8.toNat ∧
      (assembled (leadBits a) bs).isValidChar := by
  cases h with
  | one h =>
    cases hbs
    have hlead : leadBits a = a := if_pos h
    show codes (leadBits a) = [a] ∧ (leadBits a).isValidChar
    rw [hlead]
    exact ⟨if_pos h, .inl (by omega)⟩
  | two h h' =>
    obtain _ | ⟨⟨hx, hx'⟩, _ | _⟩ := hbs
    rw [leadBits_two h h']
    dsimp only at hx hx'
    refine ⟨codes_two h hx hx' h', ?_⟩
    unfold Nat.isValidChar assembled
    simp only [List.foldl_cons, List.foldl_nil]
    omega
  | e0 =>
    exact sequence_three (by decide) (by decide) (by decide) (by decide) (by decide) (by decide) hbs
  | three h h' hne =>
    exact sequence_three (by omega) h' (by decide) (by decide) (by omega) (by omega) hbs
  | ed =>
    exact sequence_three (by decide) (by decide) (by decide) (by decide) (by decide) (by decide) hbs
  | f0 =>
    exact sequence_four (by decide) (by decide) (by decide) (by decide) (by decide) (by decide) hbs
  | four h h' =>
    exact sequence_four (by omega) (by omega) (by decide) (by decide) (by omega) (by omega) hbs
  | f4 =>
    exact sequence_four (by decide) (by decide) (by decide) (by decide) (by decide) (by decide) hbs

/-- The ranges of an encoding, and its code point. -/
theorem exists_ranges {n : Nat} (hn : n < 0xD800 ∨ 0xDFFF < n ∧ n < 0x110000)
    (hcodes : codes n = b.toNat :: bs.map UInt8.toNat) :
    ∃ rs, First b.toNat rs ∧ List.Forall₂ InRange rs bs ∧
      assembled (leadBits b.toNat) bs = n := by
  unfold codes at hcodes
  split at hcodes
  · obtain ⟨hb, hbs⟩ := List.cons.inj hcodes
    obtain rfl := List.map_eq_nil_iff.mp hbs.symm
    exact ⟨[], .one (by omega), .nil, (if_pos (by omega)).trans hb.symm⟩
  split at hcodes
  · obtain ⟨hb, hbs⟩ := List.cons.inj hcodes
    obtain ⟨x, _, rfl, hx, hrest⟩ := List.map_eq_cons_iff.mp hbs.symm
    obtain rfl := List.map_eq_nil_iff.mp hrest
    have hvalue : assembled (leadBits b.toNat) [x] = n := by
      rw [leadBits_two (by omega) (by omega)]
      unfold assembled
      simp only [List.foldl_cons, List.foldl_nil]
      omega
    exact ⟨[tail], .two (by omega) (by omega), .cons (inRange_tail.mpr (by omega)) .nil, hvalue⟩
  split at hcodes
  · obtain ⟨hb, hbs⟩ := List.cons.inj hcodes
    obtain ⟨x, _, rfl, hx, hbs⟩ := List.map_eq_cons_iff.mp hbs.symm
    obtain ⟨y, _, rfl, hy, hrest⟩ := List.map_eq_cons_iff.mp hbs
    obtain rfl := List.map_eq_nil_iff.mp hrest
    have hvalue : assembled (leadBits b.toNat) [x, y] = n := by
      rw [leadBits_three (by omega) (by omega)]
      unfold assembled
      simp only [List.foldl_cons, List.foldl_nil]
      omega
    have htail : InRange tail y := inRange_tail.mpr (by omega)
    by_cases he0 : b.toNat = 0xE0
    · rw [he0] at hvalue ⊢
      exact ⟨_, .e0, .cons ⟨by omega, by omega⟩ (.cons htail .nil), hvalue⟩
    by_cases hed : b.toNat = 0xED
    · rw [hed] at hvalue ⊢
      exact ⟨_, .ed, .cons ⟨by omega, by omega⟩ (.cons htail .nil), hvalue⟩
    exact ⟨_, .three (by omega) (by omega) hed,
      .cons (inRange_tail.mpr (by omega)) (.cons htail .nil), hvalue⟩
  · obtain ⟨hb, hbs⟩ := List.cons.inj hcodes
    obtain ⟨x, _, rfl, hx, hbs⟩ := List.map_eq_cons_iff.mp hbs.symm
    obtain ⟨y, _, rfl, hy, hbs⟩ := List.map_eq_cons_iff.mp hbs
    obtain ⟨z, _, rfl, hz, hrest⟩ := List.map_eq_cons_iff.mp hbs
    obtain rfl := List.map_eq_nil_iff.mp hrest
    have hvalue : assembled (leadBits b.toNat) [x, y, z] = n := by
      rw [leadBits_four (by omega)]
      unfold assembled
      simp only [List.foldl_cons, List.foldl_nil]
      omega
    have htails : List.Forall₂ InRange [tail, tail] [y, z] :=
      .cons (inRange_tail.mpr (by omega)) (.cons (inRange_tail.mpr (by omega)) .nil)
    by_cases hf0 : b.toNat = 0xF0
    · rw [hf0] at hvalue ⊢
      exact ⟨_, .f0, .cons ⟨by omega, by omega⟩ htails, hvalue⟩
    by_cases hf4 : b.toNat = 0xF4
    · rw [hf4] at hvalue ⊢
      exact ⟨_, .f4, .cons ⟨by omega, by omega⟩ htails, hvalue⟩
    exact ⟨_, .four (by omega) (by omega), .cons (inRange_tail.mpr (by omega)) htails, hvalue⟩

/-- The encoding of a character: bytes in their ranges that assemble to its code point. -/
theorem encode_eq_iff : String.utf8EncodeChar c = b :: bs ↔
    (∃ rs, First b.toNat rs ∧ List.Forall₂ InRange rs bs) ∧
      assembled (leadBits b.toNat) bs = c.toNat := by
  rw [encode_eq_iff_codes]
  constructor
  · intro h
    obtain ⟨rs, hfirst, hranges, hvalue⟩ := exists_ranges (toNat_lt c) h
    exact ⟨⟨rs, hfirst, hranges⟩, hvalue⟩
  · rintro ⟨⟨rs, hfirst, hranges⟩, hvalue⟩
    rw [← hvalue]
    exact (codes_of_ranges hfirst hranges).1

/-- The sequences that are encodings. -/
theorem exists_encode_iff : (∃ c, String.utf8EncodeChar c = b :: bs) ↔
    ∃ rs, First b.toNat rs ∧ List.Forall₂ InRange rs bs := by
  constructor
  · rintro ⟨c, hc⟩
    exact (encode_eq_iff.mp hc).1
  · rintro ⟨rs, hfirst, hranges⟩
    have hvalid := (codes_of_ranges hfirst hranges).2
    exact ⟨_, encode_eq_iff.mpr ⟨⟨rs, hfirst, hranges⟩, (toNat_ofNat hvalid).symm⟩⟩

theorem encode_cons (c : Char) (cs : List Char) :
    encode (c :: cs) = String.utf8EncodeChar c ++ encode cs := List.flatMap_cons

theorem encode_append (cs cs' : List Char) : encode (cs ++ cs') = encode cs ++ encode cs' :=
  List.flatMap_append

theorem encode_singleton (c : Char) : encode [c] = String.utf8EncodeChar c :=
  List.append_nil _

theorem encode_concat (cs : List Char) (c : Char) :
    encode (cs ++ [c]) = encode cs ++ String.utf8EncodeChar c := by
  rw [encode_append, encode_singleton]

theorem utf8EncodeChar_ne_nil (c : Char) : String.utf8EncodeChar c ≠ [] := by
  rw [← List.length_pos_iff_ne_nil, String.length_utf8EncodeChar]
  exact Char.utf8Size_pos c

theorem utf8EncodeChar_ascii (h : c.toNat ≤ 0x7F) :
    String.utf8EncodeChar c = [UInt8.ofNat c.toNat] := if_pos h

/-- A first byte in ASCII is the character; the others belong to characters that are not in
ASCII. -/
theorem ascii_or (h : String.utf8EncodeChar c = b :: bs) :
    c.toNat ≤ 0x7F ∧ b.toNat = c.toNat ∧ bs = [] ∨ 0x80 ≤ c.toNat ∧ 0x80 ≤ b.toNat := by
  rcases Nat.lt_or_ge 0x7F c.toNat with hlt | hle
  · obtain ⟨⟨rs, hfirst, hranges⟩, hvalue⟩ := encode_eq_iff.mp h
    refine .inr ⟨hlt, ?_⟩
    by_contra hascii
    generalize b.toNat = a at hfirst hvalue hascii
    cases hfirst with
    | one hb =>
      cases hranges
      rw [assembled, List.foldl_nil, leadBits, if_pos hb] at hvalue
      omega
    | _ => omega
  · rw [utf8EncodeChar_ascii hle] at h
    obtain ⟨rfl, rfl⟩ := List.cons.inj h
    exact .inl ⟨hle, byte_toNat rfl (by omega), rfl⟩

theorem utf8EncodeChar_ofNat {n : Nat} (h : n ≤ 0x7F) :
    String.utf8EncodeChar (Char.ofNat n) = [UInt8.ofNat n] := by
  have hn : (Char.ofNat n).toNat = n := toNat_ofNat (.inl (by omega))
  rw [utf8EncodeChar_ascii (by omega), hn]

/-! ## Prefixes -/

theorem First.unique {n : Nat} {rs rs' : List (Nat × Nat)} (h : First n rs) (h' : First n rs') :
    rs = rs' := by
  cases h <;> cases h' <;> first | rfl | omega

theorem First.range {n : Nat} (h : First n rs) {r : Nat × Nat} (hr : r ∈ rs) :
    r.1 ≤ r.2 ∧ r.2 < 256 := by
  have hall : ∀ r ∈ rs, r.1 ≤ r.2 ∧ r.2 < 256 := by
    cases h <;> decide
  exact hall r hr

theorem First.length_le {n : Nat} (h : First n rs) : rs.length ≤ 3 := by
  cases h <;> decide

/-- No encoding is the beginning of another one. -/
theorem utf8EncodeChar_append_inj {c' : Char} {xs ys : List UInt8}
    (h : String.utf8EncodeChar c ++ xs = String.utf8EncodeChar c' ++ ys) : c = c' ∧ xs = ys := by
  obtain ⟨b, bs, hc⟩ := List.exists_cons_of_ne_nil (utf8EncodeChar_ne_nil c)
  obtain ⟨b', bs', hc'⟩ := List.exists_cons_of_ne_nil (utf8EncodeChar_ne_nil c')
  obtain ⟨⟨rs, hfirst, hbs⟩, hvalue⟩ := encode_eq_iff.mp hc
  obtain ⟨⟨rs', hfirst', hbs'⟩, hvalue'⟩ := encode_eq_iff.mp hc'
  rw [hc, hc', List.cons_append, List.cons_append] at h
  obtain ⟨rfl, htail⟩ := List.cons.inj h
  obtain rfl := hfirst.unique hfirst'
  obtain ⟨rfl, rfl⟩ := List.append_inj htail (hbs.length_eq.symm.trans hbs'.length_eq)
  exact ⟨Char.toNat_inj.mp (hvalue.symm.trans hvalue'), rfl⟩

/-- A text that starts with a text. -/
theorem encode_append_eq {cs text : List Char} {bs : List UInt8}
    (h : encode cs ++ bs = encode text) : ∃ text', text = cs ++ text' ∧ bs = encode text' := by
  induction cs generalizing text with
  | nil => exact ⟨text, rfl, h⟩
  | cons c cs ih =>
    rw [encode_cons, List.append_assoc] at h
    cases text with
    | nil =>
      exact absurd h (List.append_ne_nil_of_left_ne_nil (utf8EncodeChar_ne_nil c) _)
    | cons c' text =>
      rw [encode_cons] at h
      obtain ⟨rfl, hrest⟩ := utf8EncodeChar_append_inj h
      obtain ⟨text', rfl, hbs⟩ := ih hrest
      exact ⟨text', rfl, hbs⟩

theorem encode_inj {cs text : List Char} (h : encode cs = encode text) : cs = text := by
  rw [← List.append_nil (encode cs)] at h
  obtain ⟨text', rfl, hnil⟩ := encode_append_eq h
  cases text' with
  | nil => exact (List.append_nil cs).symm
  | cons c text' =>
    rw [encode_cons] at hnil
    exact absurd hnil.symm (List.append_ne_nil_of_left_ne_nil (utf8EncodeChar_ne_nil c) _)

/-- Bytes that a character starts with, but that are none. -/
def Begun (pending : List UInt8) : Prop :=
  ∃ c bs, String.utf8EncodeChar c = pending ++ bs ∧ bs ≠ []

/-- Bytes in the first ranges begin a character. -/
theorem begun_of_ranges {rs' : List (Nat × Nat)} (h : First b.toNat (rs ++ rs'))
    (hbs : List.Forall₂ InRange rs bs) (hne : rs' ≠ []) : Begun (b :: bs) := by
  let low (r : Nat × Nat) : UInt8 := UInt8.ofNat r.1
  have hlow : List.Forall₂ InRange rs' (rs'.map low) := by
    rw [List.forall₂_map_right_iff, List.forall₂_same]
    intro r hr
    obtain ⟨hle, hlt⟩ := h.range (List.mem_append_right rs hr)
    have hnat : (low r).toNat = r.1 := byte_toNat rfl (by omega)
    exact ⟨by omega, by omega⟩
  obtain ⟨c, hc⟩ := exists_encode_iff.mpr ⟨rs ++ rs', h, List.rel_append hbs hlow⟩
  exact ⟨c, rs'.map low, hc, mt List.map_eq_nil_iff.mp hne⟩

theorem begun_nil : Begun [] :=
  ⟨default, String.utf8EncodeChar default, rfl, utf8EncodeChar_ne_nil default⟩

/-- `pending` is the longest part in front of `rest` that a character could start with. -/
structure Longest (pending rest : List UInt8) : Prop where
  begun : Begun pending
  stops : ∀ b bs, rest = b :: bs → ∀ c bs', String.utf8EncodeChar c ≠ pending ++ b :: bs'

section Longest

variable {pending rest pending' rest' : List UInt8}

theorem Begun.longest_nil (h : Begun pending) : Longest pending [] := ⟨h, nofun⟩

theorem Begun.longest_cons (h : Begun pending)
    (hbyte : ∀ c bs, String.utf8EncodeChar c ≠ pending ++ b :: bs) (rest : List UInt8) :
    Longest pending (b :: rest) := by
  refine ⟨h, fun b' bs heq => ?_⟩
  obtain ⟨rfl, -⟩ := List.cons.inj heq
  exact hbyte

/-- There is no character in front of it. -/
theorem Longest.ne_char (h : Longest pending rest) (c : Char) (bs : List UInt8) :
    String.utf8EncodeChar c ++ bs ≠ pending ++ rest := by
  intro heq
  obtain ⟨c', bs', hc', hne⟩ := h.begun
  rcases List.append_eq_append_iff.mp heq with ⟨x, rfl, -⟩ | ⟨x, hx, hrest⟩
  · rw [List.append_assoc, ← List.append_nil (String.utf8EncodeChar c')] at hc'
    exact hne (List.append_eq_nil_iff.mp (utf8EncodeChar_append_inj hc').2.symm).2
  · cases x with
    | nil =>
      -- a character that is begun is not complete
      rw [List.append_nil] at hx
      rw [← hx, ← List.append_nil (String.utf8EncodeChar c')] at hc'
      exact hne (utf8EncodeChar_append_inj hc').2.symm
    | cons b x => exact h.stops b (x ++ bs) hrest c x hx

/-- No text goes on with it. -/
theorem Longest.ne_encode (h : Longest pending rest) (hne : pending ++ rest ≠ [])
    (cs text : List Char) : encode cs ++ (pending ++ rest) ≠ encode text := by
  intro heq
  obtain ⟨text', rfl, htext⟩ := encode_append_eq heq
  cases text' with
  | nil => exact hne htext
  | cons c text' => exact h.ne_char c (encode text') htext.symm

theorem Longest.eq_nil {x : List UInt8} (h : Longest pending rest) (hx : Begun (pending ++ x))
    (hrest : rest = x ++ rest') : x = [] := by
  cases x with
  | nil => rfl
  | cons b x =>
    obtain ⟨c, bs, hc, -⟩ := hx
    rw [List.append_assoc] at hc
    exact absurd hc (h.stops b (x ++ rest') hrest c (x ++ bs))

theorem Longest.unique (h : Longest pending rest) (h' : Longest pending' rest')
    (heq : pending ++ rest = pending' ++ rest') : pending = pending' ∧ rest = rest' := by
  rcases List.append_eq_append_iff.mp heq with ⟨x, rfl, hrest⟩ | ⟨x, rfl, hrest⟩
  · obtain rfl := h.eq_nil h'.begun hrest
    exact ⟨(List.append_nil _).symm, hrest⟩
  · obtain rfl := h'.eq_nil h.begun hrest
    exact ⟨List.append_nil _, hrest.symm⟩

end Longest

/-! ## Bytes that need not be UTF-8 -/

/-- The characters of a sequence, and `none` for each part in between that is in no encoding: the
longest one that a character could start with, or one byte. -/
inductive Pieces : List UInt8 → List (Option Char) → Prop
  | nil : Pieces [] []
  | char {c : Char} {bs : List UInt8} {pieces : List (Option Char)} (h : Pieces bs pieces) :
      Pieces (String.utf8EncodeChar c ++ bs) (some c :: pieces)
  | part {pending rest : List UInt8} {pieces : List (Option Char)} (hpart : Longest pending rest)
      (hne : pending ≠ []) (h : Pieces rest pieces) : Pieces (pending ++ rest) (none :: pieces)
  | byte {b : UInt8} {bs : List UInt8} {pieces : List (Option Char)}
      (hpart : Longest [] (b :: bs)) (h : Pieces bs pieces) : Pieces (b :: bs) (none :: pieces)

section Pieces

variable {pending rest : List UInt8} {pieces pieces' : List (Option Char)}

theorem Pieces.eq_nil (h : Pieces [] pieces) : pieces = [] := by
  generalize hs : [] = s at h
  cases h with
  | nil => rfl
  | @char c =>
    exact absurd hs.symm (List.append_ne_nil_of_left_ne_nil (utf8EncodeChar_ne_nil c) _)
  | part _ hne => exact absurd hs.symm (List.append_ne_nil_of_left_ne_nil hne _)
  | byte => cases hs

theorem Pieces.of_char (h : Pieces (String.utf8EncodeChar c ++ bs) pieces) :
    ∃ pieces', pieces = some c :: pieces' ∧ Pieces bs pieces' := by
  generalize hs : String.utf8EncodeChar c ++ bs = s at h
  cases h with
  | nil => exact absurd hs (List.append_ne_nil_of_left_ne_nil (utf8EncodeChar_ne_nil c) _)
  | char h =>
    obtain ⟨rfl, rfl⟩ := utf8EncodeChar_append_inj hs
    exact ⟨_, rfl, h⟩
  | part hpart => exact absurd hs (hpart.ne_char c bs)
  | byte hpart => exact absurd hs (hpart.ne_char c bs)

theorem Pieces.of_part (hpart : Longest pending rest) (hne : pending ≠ [])
    (h : Pieces (pending ++ rest) pieces) :
    ∃ pieces', pieces = none :: pieces' ∧ Pieces rest pieces' := by
  generalize hs : pending ++ rest = s at h
  cases h with
  | nil => exact absurd hs (List.append_ne_nil_of_left_ne_nil hne _)
  | char => exact absurd hs.symm (hpart.ne_char _ _)
  | part hpart' _ h =>
    obtain ⟨rfl, rfl⟩ := hpart.unique hpart' hs
    exact ⟨_, rfl, h⟩
  | byte hpart' => exact absurd (hpart.unique hpart' hs).1 hne

theorem Pieces.of_byte (hpart : Longest [] (b :: bs)) (h : Pieces (b :: bs) pieces) :
    ∃ pieces', pieces = none :: pieces' ∧ Pieces bs pieces' := by
  generalize hs : b :: bs = s at h
  cases h with
  | nil => cases hs
  | char => exact absurd hs.symm (hpart.ne_char _ _)
  | part hpart' hne => exact absurd (hpart.unique hpart' hs).1.symm hne
  | byte _ h =>
    obtain ⟨-, rfl⟩ := List.cons.inj hs
    exact ⟨_, rfl, h⟩

/-- A sequence has one division. -/
theorem Pieces.unique (h : Pieces bs pieces) (h' : Pieces bs pieces') : pieces = pieces' := by
  induction h generalizing pieces' with
  | nil => exact h'.eq_nil.symm
  | char _ ih =>
    obtain ⟨pieces', rfl, htail⟩ := h'.of_char
    rw [ih htail]
  | part hpart hne _ ih =>
    obtain ⟨pieces', rfl, htail⟩ := h'.of_part hpart hne
    rw [ih htail]
  | byte hpart _ ih =>
    obtain ⟨pieces', rfl, htail⟩ := h'.of_byte hpart
    rw [ih htail]

/-- UTF-8 has characters only. -/
theorem pieces_encode (text : List Char) : Pieces (encode text) (text.map some) := by
  induction text with
  | nil => exact .nil
  | cons c text ih => exact .char ih

end Pieces

/-! ## Readers -/

section Reads

/-- `bytes` reads from the bytes of a text what `chars` reads from the text, in the representation
`e`, and what it takes is UTF-8. -/
structure Reads {α β : Type*} (e : β → α) (bytes : List UInt8 → Option (α × List UInt8))
    (chars : List Char → Option (β × List Char)) : Prop where
  text : ∀ {input rest x}, bytes input = some (x, rest) →
    ∃ pre y, input = encode pre ++ rest ∧ x = e y ∧ ∀ tail, chars (pre ++ tail) = some (y, tail)
  bytes : ∀ {text rest y}, chars text = some (y, rest) →
    ∀ tail, bytes (encode text ++ tail) = some (e y, encode rest ++ tail)

/-- The first item of a list, if `f` accepts it. -/
def item {σ α : Type*} (f : σ → Option α) : List σ → Option (α × List σ)
  | [] => none
  | s :: input => (f s).map (·, input)

variable {α β γ δ : Type*} {e : β → α} {e' : δ → γ}

theorem Reads.fail : Reads e (fun _ => none) fun _ => none where
  text := fun h => nomatch h
  bytes := fun h => nomatch h

theorem Reads.done (y : β) :
    Reads e (fun input => some (e y, input)) fun input => some (y, input) where
  text := by
    rintro input rest x ⟨⟩
    exact ⟨[], y, rfl, rfl, fun _ => rfl⟩
  bytes := by
    rintro text rest y ⟨⟩ tail
    rfl

/-- One reader behind the other; `P` is known of what the first one reads. -/
theorem Reads.bind {bytes : List UInt8 → Option (α × List UInt8)}
    {chars : List Char → Option (β × List Char)} {P : β → Prop}
    (bytes' : α → List UInt8 → Option (γ × List UInt8))
    (chars' : β → List Char → Option (δ × List Char)) (h : Reads e bytes chars)
    (hP : ∀ {text y rest}, chars text = some (y, rest) → P y)
    (h' : ∀ y, P y → Reads e' (bytes' (e y)) (chars' y)) :
    Reads e' (fun input => (bytes input).bind fun p => bytes' p.1 p.2)
      fun input => (chars input).bind fun p => chars' p.1 p.2 where
  text := by
    intro input rest z hz
    obtain ⟨⟨x, input'⟩, hx, hz⟩ := Option.bind_eq_some_iff.mp hz
    obtain ⟨pre, y, rfl, rfl, hpre⟩ := h.text hx
    obtain ⟨pre', w, rfl, rfl, hpre'⟩ := (h' y (hP (hpre []))).text hz
    refine ⟨pre ++ pre', w, ?_, rfl, fun tail => ?_⟩
    · rw [encode_append, List.append_assoc]
    · rw [List.append_assoc, hpre]
      exact hpre' tail
  bytes := by
    intro text rest w hw tail
    obtain ⟨⟨y, text'⟩, hy, hw⟩ := Option.bind_eq_some_iff.mp hw
    rw [h.bytes hy]
    exact (h' y (hP hy)).bytes hw tail

theorem Reads.seq {bytes : List UInt8 → Option (α × List UInt8)}
    {chars : List Char → Option (β × List Char)}
    (bytes' : α → List UInt8 → Option (γ × List UInt8))
    (chars' : β → List Char → Option (δ × List Char)) (h : Reads e bytes chars)
    (h' : ∀ y, Reads e' (bytes' (e y)) (chars' y)) :
    Reads e' (fun input => (bytes input).bind fun p => bytes' p.1 p.2)
      fun input => (chars input).bind fun p => chars' p.1 p.2 :=
  h.bind bytes' chars' (fun _ => trivial) fun y _ => h' y

/-- The item `s`, and then `next`. -/
def expect {σ α : Type*} [DecidableEq σ] (s : σ) (next : List σ → Option α) : List σ → Option α
  | [] => none
  | x :: input => if x = s then next input else none

theorem Reads.expect {bytes : List UInt8 → Option (α × List UInt8)}
    {chars : List Char → Option (β × List Char)} {n : Nat} (hn : n ≤ 0x7F)
    (h : Reads e bytes chars) :
    Reads e (expect (UInt8.ofNat n) bytes) (expect (Char.ofNat n) chars) where
  text := by
    intro input rest x hx
    cases input with
    | nil => cases hx
    | cons b input =>
      replace hx : (if b = UInt8.ofNat n then bytes input else none) = some (x, rest) := hx
      split at hx
      · next hb =>
        subst hb
        obtain ⟨pre, y, rfl, rfl, hpre⟩ := h.text hx
        refine ⟨Char.ofNat n :: pre, y, ?_, rfl, fun tail => (if_pos rfl).trans (hpre tail)⟩
        rw [encode_cons, utf8EncodeChar_ofNat hn]
        rfl
      · cases hx
  bytes := by
    intro text rest y hy tail
    cases text with
    | nil => cases hy
    | cons c text =>
      replace hy : (if c = Char.ofNat n then chars text else none) = some (y, rest) := hy
      split at hy
      · next hc =>
        subst hc
        rw [encode_cons, utf8EncodeChar_ofNat hn]
        exact (if_pos rfl).trans (h.bytes hy tail)
      · cases hy

/-- One item of ASCII. -/
theorem Reads.item {f : UInt8 → Option α} {g : Char → Option β}
    (hf : ∀ b x, f b = some x → b.toNat ≤ 0x7F) (hg : ∀ c y, g c = some y → c.toNat ≤ 0x7F)
    (hfg : ∀ n, n ≤ 0x7F → f (UInt8.ofNat n) = (g (Char.ofNat n)).map e) :
    Reads e (item f) (item g) where
  text := by
    intro input rest x hx
    cases input with
    | nil => cases hx
    | cons b input =>
      obtain ⟨x', hb, heq⟩ := Option.map_eq_some_iff.mp hx
      obtain ⟨rfl, rfl⟩ := Prod.mk.inj heq
      have hascii := hf b x' hb
      have hagree := hfg b.toNat hascii
      rw [UInt8.ofNat_toNat, hb] at hagree
      obtain ⟨y, hy, rfl⟩ := Option.map_eq_some_iff.mp hagree.symm
      refine ⟨[Char.ofNat b.toNat], y, ?_, rfl, fun tail => ?_⟩
      · rw [encode_singleton, utf8EncodeChar_ofNat hascii, UInt8.ofNat_toNat]
        rfl
      · show (g _).map _ = _
        rw [hy]
        rfl
  bytes := by
    intro text rest y hy tail
    cases text with
    | nil => cases hy
    | cons c text =>
      obtain ⟨y', hc, heq⟩ := Option.map_eq_some_iff.mp hy
      obtain ⟨rfl, rfl⟩ := Prod.mk.inj heq
      have hascii := hg c y' hc
      have hagree := hfg c.toNat hascii
      rw [Char.ofNat_toNat, hc] at hagree
      rw [encode_cons, utf8EncodeChar_ascii hascii]
      show (f _).map _ = _
      rw [hagree]
      rfl

/-- Two readers, of which one accepts at most what the other rejects. -/
theorem Reads.orElse {bytes bytes' : List UInt8 → Option (α × List UInt8)}
    {chars chars' : List Char → Option (β × List Char)} (h : Reads e bytes chars)
    (h' : Reads e bytes' chars') (hbytes : ∀ input p, bytes' input = some p → bytes input = none)
    (hchars : ∀ text p, chars' text = some p → chars text = none) :
    Reads e (fun input => (bytes input).or (bytes' input))
      fun text => (chars text).or (chars' text) where
  text := by
    intro input rest x hx
    rcases Option.or_eq_some_iff.mp hx with hx | ⟨-, hx⟩
    · obtain ⟨pre, y, hinput, hxy, hpre⟩ := h.text hx
      exact ⟨pre, y, hinput, hxy, fun tail => Option.or_eq_some_iff.mpr (.inl (hpre tail))⟩
    · obtain ⟨pre, y, hinput, hxy, hpre⟩ := h'.text hx
      exact ⟨pre, y, hinput, hxy, fun tail =>
        Option.or_eq_some_iff.mpr (.inr ⟨hchars _ _ (hpre tail), hpre tail⟩)⟩
  bytes := by
    intro text rest y hy tail
    rcases Option.or_eq_some_iff.mp hy with hy | ⟨-, hy⟩
    · exact Option.or_eq_some_iff.mpr (.inl (h.bytes hy tail))
    · exact Option.or_eq_some_iff.mpr (.inr ⟨hbytes _ _ (h'.bytes hy tail), h'.bytes hy tail⟩)

/-- `expect` and `item` accept different first items. -/
theorem expect_of_item {σ α β : Type*} [DecidableEq σ] {s : σ} {next : List σ → Option α}
    {f : σ → Option β} (hf : f s = none) (input : List σ) (p : β × List σ)
    (h : item f input = some p) : expect s next input = none := by
  cases input with
  | nil => rfl
  | cons x input =>
    refine if_neg ?_
    rintro rfl
    obtain ⟨y, hy, -⟩ := Option.map_eq_some_iff.mp h
    cases hf.symm.trans hy

end Reads

end Utf8
