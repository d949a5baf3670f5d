import MicroRiscv.JsonSerializer
import MicroRiscv.Lib.Utf8

/-!
# The bytes of a JSON string

`scan_string` on bytes that need not be UTF-8. It has a `switch` over the first byte of a sequence
and a list of ranges for the others.

Results:
1. `reads_escape`: the escapes of a string, of which those with `\\u` are written as UTF-8.
2. `rangesBehind_iff`: the ranges are those of UTF-8.
3. `scanStringBytes_iff`: the lexer reads what it reads from characters, and only UTF-8.
-/

namespace MicroRiscv

namespace JsonText

open Utf8 (First InRange encode encode_concat)

/-! ## 1. Escapes -/

/-- The value of a digit in `get_codepoint`. -/
def hexValue (current : UInt8) : Option Nat :=
  let current := current.toNat
  if 0x30 ≤ current ∧ current ≤ 0x39 then some (current - 0x30)
  else if 0x41 ≤ current ∧ current ≤ 0x46 then some (current - 0x37)
  else if 0x61 ≤ current ∧ current ≤ 0x66 then some (current - 0x57)
  else none

def addDigitsBytes (codepoint : Nat) : (factors : List Nat) → List UInt8 → Option (Nat × List UInt8)
  | [], input => some (codepoint, input)
  | _ :: _, [] => none
  | factor :: factors, b :: input =>
    match hexValue b with
    | some d => addDigitsBytes (codepoint + d <<< factor) factors input
    | none => none

def getCodepointBytes (input : List UInt8) : Option (Nat × List UInt8) :=
  addDigitsBytes 0 [12, 8, 4, 0] input

/-- The bytes that are added for a code point. -/
def codepointBytes (codepoint : Nat) : List UInt8 :=
  if codepoint < 0x80 then [UInt8.ofNat codepoint]
  else if codepoint ≤ 0x7FF then
    [UInt8.ofNat (0xC0 ||| codepoint >>> 6), UInt8.ofNat (0x80 ||| codepoint &&& 0x3F)]
  else if codepoint ≤ 0xFFFF then
    [UInt8.ofNat (0xE0 ||| codepoint >>> 12), UInt8.ofNat (0x80 ||| codepoint >>> 6 &&& 0x3F),
      UInt8.ofNat (0x80 ||| codepoint &&& 0x3F)]
  else
    [UInt8.ofNat (0xF0 ||| codepoint >>> 18), UInt8.ofNat (0x80 ||| codepoint >>> 12 &&& 0x3F),
      UInt8.ofNat (0x80 ||| codepoint >>> 6 &&& 0x3F), UInt8.ofNat (0x80 ||| codepoint &&& 0x3F)]

/-- The escapes of one character. -/
def shortEscapeByte (current : UInt8) : Option UInt8 :=
  match current.toNat with
  | 0x22 => some 0x22
  | 0x5C => some 0x5C
  | 0x2F => some 0x2F
  | 0x62 => some 0x08
  | 0x66 => some 0x0C
  | 0x6E => some 0x0A
  | 0x72 => some 0x0D
  | 0x74 => some 0x09
  | _ => none

def scanSurrogateBytes (codepoint1 : Nat) : List UInt8 → Option (List UInt8 × List UInt8)
  | b1 :: b2 :: input =>
    -- the low surrogate has an escape of its own
    if b1 = 0x5C ∧ b2 = 0x75 then do
      let (codepoint2, input) ← getCodepointBytes input
      if 0xDC00 ≤ codepoint2 ∧ codepoint2 ≤ 0xDFFF then
        return (codepointBytes (codepoint1 <<< 10 + codepoint2 - 0x35FDC00), input)
      else none
    else none
  | _ => none

/-- An escape, behind its backslash: the bytes that are added, and the input behind it. -/
def scanEscapeBytes : List UInt8 → Option (List UInt8 × List UInt8)
  | [] => none
  | b :: input =>
    if b = 0x75 then do
      let (codepoint1, input) ← getCodepointBytes input
      if 0xD800 ≤ codepoint1 ∧ codepoint1 ≤ 0xDBFF then scanSurrogateBytes codepoint1 input
      else if 0xDC00 ≤ codepoint1 ∧ codepoint1 ≤ 0xDFFF then none
      else return (codepointBytes codepoint1, input)
    else (shortEscapeByte b).map ([·], input)

theorem hexValue_ascii (b : UInt8) (d : Nat) (h : hexValue b = some d) : b.toNat ≤ 0x7F := by
  by_contra hlt
  have hnone : hexValue b = none := by
    unfold hexValue
    rw [if_neg (by omega), if_neg (by omega), if_neg (by omega)]
  rw [hnone] at h
  cases h

theorem hexDigit_bounds (c : Char) (d : Nat) (h : hexDigit c = some d) :
    c.toNat ≤ 0x7F ∧ d ≤ 0xF := by
  unfold hexDigit at h
  split at h
  · next hc =>
    have hlow : 0x30 ≤ c.toNat := hc.1
    have hhigh : c.toNat ≤ 0x39 := hc.2
    cases h
    omega
  split at h
  · next hc =>
    have hlow : 0x41 ≤ c.toNat := hc.1
    have hhigh : c.toNat ≤ 0x46 := hc.2
    cases h
    omega
  split at h
  · next hc =>
    have hlow : 0x61 ≤ c.toNat := hc.1
    have hhigh : c.toNat ≤ 0x66 := hc.2
    cases h
    omega
  · cases h

theorem hexValue_eq : ∀ n, n ≤ 0x7F → hexValue (UInt8.ofNat n) = hexDigit (Char.ofNat n) := by
  decide +kernel

theorem reads_addDigits (factors : List Nat) (codepoint : Nat) :
    Utf8.Reads id (addDigitsBytes codepoint factors) (addDigits codepoint factors) := by
  induction factors generalizing codepoint with
  | nil => exact .done codepoint
  | cons factor factors ih =>
    have hbytes : addDigitsBytes codepoint (factor :: factors) = fun input =>
        (Utf8.item hexValue input).bind
          fun p => addDigitsBytes (codepoint + p.1 <<< factor) factors p.2 := by
      funext input
      cases input with
      | nil => rfl
      | cons b input =>
        show (match hexValue b with
          | some d => addDigitsBytes (codepoint + d <<< factor) factors input
          | none => none) = ((hexValue b).map (·, input)).bind _
        cases hexValue b <;> rfl
    have hchars : addDigits codepoint (factor :: factors) = fun input =>
        (Utf8.item hexDigit input).bind
          fun p => addDigits (codepoint + p.1 <<< factor) factors p.2 := by
      funext input
      cases input with
      | nil => rfl
      | cons c input =>
        show (match hexDigit c with
          | some d => addDigits (codepoint + d <<< factor) factors input
          | none => none) = ((hexDigit c).map (·, input)).bind _
        cases hexDigit c <;> rfl
    have hitem : Utf8.Reads id (Utf8.item hexValue) (Utf8.item hexDigit) :=
      .item hexValue_ascii (fun c d h => (hexDigit_bounds c d h).1) fun n hn => by
        rw [hexValue_eq n hn, Option.map_id, id]
    rw [hbytes, hchars]
    exact hitem.seq (fun d => addDigitsBytes (codepoint + d <<< factor) factors)
      (fun d => addDigits (codepoint + d <<< factor) factors) fun d => ih _

theorem addDigits_le {factors : List Nat} {codepoint n : Nat} {input rest : List Char}
    (h : addDigits codepoint factors input = some (n, rest)) :
    n ≤ codepoint + (factors.map fun factor => 0xF <<< factor).sum := by
  induction factors generalizing codepoint input with
  | nil =>
    cases h
    exact le_rfl
  | cons factor factors ih =>
    cases input with
    | nil => cases h
    | cons c input =>
      unfold addDigits at h
      split at h
      · next d hd =>
        have hle := ih h
        have hdigit : d <<< factor ≤ 0xF <<< factor := by
          rw [Nat.shiftLeft_eq, Nat.shiftLeft_eq]
          exact Nat.mul_le_mul_right _ (hexDigit_bounds c d hd).2
        rw [List.map_cons, List.sum_cons]
        omega
      · cases h

theorem getCodepoint_lt {input rest : List Char} {n : Nat}
    (h : getCodepoint input = some (n, rest)) : n < 0x10000 := Nat.lt_succ_of_le (addDigits_le h)

theorem reads_getCodepoint : Utf8.Reads id getCodepointBytes getCodepoint :=
  reads_addDigits [12, 8, 4, 0] 0

/-- Bits that do not overlap. -/
theorem or_eq_add {k a m : Nat} (hm : m < 2 ^ k) : 2 ^ k * a ||| m = m + 2 ^ k * a :=
  (Nat.two_pow_add_eq_or_of_lt hm a).symm.trans (Nat.add_comm _ _)

theorem codepointBytes_codes {n : Nat} (h : n < 0x110000) :
    (codepointBytes n).map UInt8.toNat = Utf8.codes n := by
  have hmask : ∀ m, m &&& 0x3F = m % 64 := fun m => Nat.and_two_pow_sub_one_eq_mod m 6
  have htail : ∀ m, 0x80 ||| m % 64 = m % 64 + 0x80 := fun m =>
    or_eq_add (k := 6) (a := 2) (Nat.mod_lt m (by decide))
  unfold codepointBytes Utf8.codes
  simp only [hmask, htail, Nat.shiftRight_eq_div_pow, Nat.reducePow]
  rcases Nat.lt_or_ge n 0x80 with h1 | h1
  · rw [if_pos h1, if_pos (Nat.le_of_lt_succ h1), List.map_cons, Utf8.byte_toNat rfl (by omega),
      List.map_nil]
  rw [if_neg (Nat.not_lt.mpr h1), if_neg (Nat.not_le.mpr h1)]
  split
  · have hlead : 0xC0 ||| n / 64 = n / 64 + 0xC0 := or_eq_add (k := 6) (a := 3) (by omega)
    simp only [hlead, List.map_cons, List.map_nil]
    rw [Utf8.byte_toNat rfl (by omega), Utf8.byte_toNat rfl (by omega)]
  split
  · have hlead : 0xE0 ||| n / 4096 = n / 4096 + 0xE0 := or_eq_add (k := 5) (a := 7) (by omega)
    simp only [hlead, List.map_cons, List.map_nil]
    rw [Utf8.byte_toNat rfl (by omega), Utf8.byte_toNat rfl (by omega), Utf8.byte_toNat rfl (by omega)]
  · have hlead : 0xF0 ||| n / 262144 = n / 262144 + 0xF0 :=
      or_eq_add (k := 4) (a := 15) (by omega)
    simp only [hlead, List.map_cons, List.map_nil]
    rw [Utf8.byte_toNat rfl (by omega), Utf8.byte_toNat rfl (by omega), Utf8.byte_toNat rfl (by omega), Utf8.byte_toNat rfl (by omega)]

theorem codepointBytes_eq {n : Nat} (h : n.isValidChar) :
    codepointBytes n = String.utf8EncodeChar (Char.ofNat n) := by
  have hlt : n < 0x110000 := h.elim (fun h => Nat.lt_trans h (by decide)) And.right
  have hcodes := Utf8.utf8EncodeChar_codes (Char.ofNat n)
  rw [Utf8.toNat_ofNat h, ← codepointBytes_codes hlt] at hcodes
  exact (List.map_injective_iff.mpr (fun _ _ => UInt8.toNat_inj.mp) hcodes).symm

theorem reads_surrogate {n : Nat} (hlow : 0xD800 ≤ n) (hhigh : n ≤ 0xDBFF) :
    Utf8.Reads String.utf8EncodeChar (scanSurrogateBytes n) (scanSurrogate n) := by
  let bytesEnd (codepoint2 : Nat) (input : List UInt8) : Option (List UInt8 × List UInt8) :=
    if 0xDC00 ≤ codepoint2 ∧ codepoint2 ≤ 0xDFFF then
      some (codepointBytes (n <<< 10 + codepoint2 - 0x35FDC00), input)
    else none
  let charsEnd (codepoint2 : Nat) (input : List Char) : Option (Char × List Char) :=
    if 0xDC00 ≤ codepoint2 ∧ codepoint2 ≤ 0xDFFF then
      some (Char.ofNat (n * 0x400 + codepoint2 - 0x35FDC00), input)
    else none
  have hend : ∀ codepoint2, Utf8.Reads String.utf8EncodeChar (bytesEnd codepoint2)
      (charsEnd codepoint2) := by
    intro codepoint2
    by_cases hrange : 0xDC00 ≤ codepoint2 ∧ codepoint2 ≤ 0xDFFF
    · have hvalid : (n * 0x400 + codepoint2 - 0x35FDC00).isValidChar := .inr (by omega)
      simp only [bytesEnd, charsEnd, if_pos hrange, Nat.shiftLeft_eq, Nat.reducePow]
      rw [codepointBytes_eq hvalid]
      exact .done _
    · simp only [bytesEnd, charsEnd, if_neg hrange]
      exact .fail
  have hbytes : scanSurrogateBytes n = Utf8.expect 0x5C (Utf8.expect 0x75 fun input =>
      (getCodepointBytes input).bind fun p => bytesEnd p.1 p.2) := by
    funext input
    match input with
    | [] => rfl
    | [b] => exact (ite_self none).symm
    | b1 :: b2 :: input => exact ite_and _ _ _ _
  have hchars : scanSurrogate n = Utf8.expect '\\' (Utf8.expect 'u' fun input =>
      (getCodepoint input).bind fun p => charsEnd p.1 p.2) := by
    funext input
    match input with
    | [] => rfl
    | [c] => exact (ite_self none).symm
    | c1 :: c2 :: input => exact ite_and _ _ _ _
  rw [hbytes, hchars]
  exact .expect (n := 0x5C) (by decide) (.expect (n := 0x75) (by decide)
    (reads_getCodepoint.seq bytesEnd charsEnd hend))

theorem shortEscapeByte_ascii (b e : UInt8) (h : shortEscapeByte b = some e) :
    b.toNat ≤ 0x7F := by
  unfold shortEscapeByte at h
  split at h
  case h_9 => cases h
  all_goals omega

theorem shortEscape_ascii (c e : Char) (h : shortEscape c = some e) : c.toNat ≤ 0x7F := by
  unfold shortEscape at h
  split at h
  case h_9 => cases h
  all_goals decide

theorem shortEscapeByte_eq : ∀ n, n ≤ 0x7F → (shortEscapeByte (UInt8.ofNat n)).map ([·]) =
    (shortEscape (Char.ofNat n)).map String.utf8EncodeChar := by
  decide +kernel

theorem reads_escape : Utf8.Reads String.utf8EncodeChar scanEscapeBytes scanEscape := by
  let bytesEnd (codepoint1 : Nat) (input : List UInt8) : Option (List UInt8 × List UInt8) :=
    if 0xD800 ≤ codepoint1 ∧ codepoint1 ≤ 0xDBFF then scanSurrogateBytes codepoint1 input
    else if 0xDC00 ≤ codepoint1 ∧ codepoint1 ≤ 0xDFFF then none
    else some (codepointBytes codepoint1, input)
  let charsEnd (codepoint1 : Nat) (input : List Char) : Option (Char × List Char) :=
    if 0xD800 ≤ codepoint1 ∧ codepoint1 ≤ 0xDBFF then scanSurrogate codepoint1 input
    else if 0xDC00 ≤ codepoint1 ∧ codepoint1 ≤ 0xDFFF then none
    else some (Char.ofNat codepoint1, input)
  have hend : ∀ codepoint1, codepoint1 < 0x10000 →
      Utf8.Reads String.utf8EncodeChar (bytesEnd codepoint1) (charsEnd codepoint1) := by
    intro codepoint1 hlt
    by_cases hhigh : 0xD800 ≤ codepoint1 ∧ codepoint1 ≤ 0xDBFF
    · simp only [bytesEnd, charsEnd, if_pos hhigh]
      exact reads_surrogate hhigh.1 hhigh.2
    by_cases hlow : 0xDC00 ≤ codepoint1 ∧ codepoint1 ≤ 0xDFFF
    · simp only [bytesEnd, charsEnd, if_neg hhigh, if_pos hlow]
      exact .fail
    · have hvalid : codepoint1.isValidChar := by
        unfold Nat.isValidChar
        omega
      simp only [bytesEnd, charsEnd, if_neg hhigh, if_neg hlow]
      rw [codepointBytes_eq hvalid]
      exact .done _
  have hbytes : scanEscapeBytes = fun input =>
      (Utf8.expect 0x75 (fun input => (getCodepointBytes input).bind fun p => bytesEnd p.1 p.2)
        input).or (Utf8.item (fun b => (shortEscapeByte b).map ([·])) input) := by
    funext input
    cases input with
    | nil => rfl
    | cons b input =>
      show (if b = 0x75 then (getCodepointBytes input).bind _
        else (shortEscapeByte b).map ([·], input)) =
          (if b = 0x75 then _ else none).or (((shortEscapeByte b).map ([·])).map (·, input))
      split
      · next hb =>
        subst hb
        exact (Option.or_none).symm
      · rw [Option.none_or, Option.map_map]
        rfl
  have hchars : scanEscape = fun input =>
      (Utf8.expect 'u' (fun input => (getCodepoint input).bind fun p => charsEnd p.1 p.2)
        input).or (Utf8.item shortEscape input) := by
    funext input
    cases input with
    | nil => rfl
    | cons c input =>
      show (if c = 'u' then (getCodepoint input).bind _
        else (shortEscape c).map (·, input)) =
          (if c = 'u' then _ else none).or ((shortEscape c).map (·, input))
      split
      · next hc =>
        subst hc
        exact (Option.or_none).symm
      · rw [Option.none_or]
  rw [hbytes, hchars]
  have hitem : Utf8.Reads String.utf8EncodeChar
      (Utf8.item fun b => (shortEscapeByte b).map ([·])) (Utf8.item shortEscape) := by
    refine .item (fun b x hb => ?_) shortEscape_ascii shortEscapeByte_eq
    obtain ⟨e, he, -⟩ := Option.map_eq_some_iff.mp hb
    exact shortEscapeByte_ascii b e he
  exact .orElse (.expect (n := 0x75) (by decide)
    (reads_getCodepoint.bind bytesEnd charsEnd getCodepoint_lt hend)) hitem
    (Utf8.expect_of_item rfl) (Utf8.expect_of_item rfl)

theorem scanEscapeBytes_length {input bs rest : List UInt8}
    (h : scanEscapeBytes input = some (bs, rest)) : rest.length ≤ input.length := by
  obtain ⟨pre, c, rfl, -, -⟩ := reads_escape.text h
  rw [List.length_append]
  exact Nat.le_add_left _ _

/-! ## 2. Sequences -/

/-- The ranges of the bytes behind a byte that is no control character. -/
def rangesBehind (current : UInt8) : Option (List (Nat × Nat)) :=
  let current := current.toNat
  if current ≤ 0x7F then some []
  else if 0xC2 ≤ current ∧ current ≤ 0xDF then some [(0x80, 0xBF)]
  else if current = 0xE0 then some [(0xA0, 0xBF), (0x80, 0xBF)]
  else if 0xE1 ≤ current ∧ current ≤ 0xEC ∨ current = 0xEE ∨ current = 0xEF then
    some [(0x80, 0xBF), (0x80, 0xBF)]
  else if current = 0xED then some [(0x80, 0x9F), (0x80, 0xBF)]
  else if current = 0xF0 then some [(0x90, 0xBF), (0x80, 0xBF), (0x80, 0xBF)]
  else if 0xF1 ≤ current ∧ current ≤ 0xF3 then some [(0x80, 0xBF), (0x80, 0xBF), (0x80, 0xBF)]
  else if current = 0xF4 then some [(0x80, 0x8F), (0x80, 0xBF), (0x80, 0xBF)]
  else none

/-- `next_byte_in_range`: the bytes that are added behind the first one. -/
def nextByteInRange : List (Nat × Nat) → List UInt8 → Option (List UInt8 × List UInt8)
  | [], input => some ([], input)
  | _ :: _, [] => none
  | range :: ranges, b :: input =>
    if range.1 ≤ b.toNat ∧ b.toNat ≤ range.2 then
      (nextByteInRange ranges input).map fun (bs, rest) => (b :: bs, rest)
    else none

theorem nextByteInRange_iff {ranges : List (Nat × Nat)} {input bs rest : List UInt8} :
    nextByteInRange ranges input = some (bs, rest) ↔
      input = bs ++ rest ∧ List.Forall₂ InRange ranges bs := by
  induction ranges generalizing input bs with
  | nil =>
    constructor
    · rintro ⟨⟩
      exact ⟨rfl, .nil⟩
    · rintro ⟨rfl, ⟨⟩⟩
      rfl
  | cons range ranges ih =>
    cases input with
    | nil =>
      refine ⟨nofun, ?_⟩
      rintro ⟨hnil, h⟩
      cases h
      cases hnil
    | cons b input =>
      unfold nextByteInRange
      constructor
      · intro h
        split at h
        · next hb =>
          obtain ⟨⟨bs', rest'⟩, hnext, heq⟩ := Option.map_eq_some_iff.mp h
          obtain ⟨rfl, rfl⟩ := Prod.mk.inj heq
          obtain ⟨rfl, hbs⟩ := ih.mp hnext
          exact ⟨rfl, .cons hb hbs⟩
        · cases h
      · rintro ⟨heq, h⟩
        cases h with
        | cons hb hbs =>
          rw [List.cons_append] at heq
          obtain ⟨rfl, rfl⟩ := List.cons.inj heq
          refine (if_pos hb).trans ?_
          rw [ih.mpr ⟨rfl, hbs⟩]
          rfl

theorem nextByteInRange_length {ranges : List (Nat × Nat)} {input bs rest : List UInt8}
    (h : nextByteInRange ranges input = some (bs, rest)) : rest.length ≤ input.length := by
  rw [(nextByteInRange_iff.mp h).1, List.length_append]
  exact Nat.le_add_left _ _

/-- The `switch` has the ranges of UTF-8. -/
theorem rangesBehind_iff {b : UInt8} {ranges : List (Nat × Nat)} :
    rangesBehind b = some ranges ↔ First b.toNat ranges := by
  unfold rangesBehind
  generalize b.toNat = n
  constructor
  · intro h
    dsimp only at h
    split at h
    · next hn =>
      cases h
      exact .one hn
    split at h
    · next hn =>
      cases h
      exact .two hn.1 hn.2
    split at h
    · next hn =>
      cases h
      exact hn ▸ .e0
    split at h
    · next hn =>
      cases h
      exact .three (by omega) (by omega) (by omega)
    split at h
    · next hn =>
      cases h
      exact hn ▸ .ed
    split at h
    · next hn =>
      cases h
      exact hn ▸ .f0
    split at h
    · next hn =>
      cases h
      exact .four hn.1 hn.2
    split at h
    · next hn =>
      cases h
      exact hn ▸ .f4
    · cases h
  · intro h
    cases h with
    | one h => exact if_pos h
    | two h h' => rw [if_neg (by omega), if_pos ⟨h, h'⟩]
    | three h h' hne =>
      rw [if_neg (by omega), if_neg (by omega), if_neg (by omega), if_pos (by omega)]
    | four h h' =>
      rw [if_neg (by omega), if_neg (by omega), if_neg (by omega), if_neg (by omega),
        if_neg (by omega), if_neg (by omega), if_pos ⟨h, h'⟩]
    | _ => rfl

/-! ## 3. Strings -/

/-- `scan_string`, behind the opening quote. -/
def scanStringBytes (buffer : List UInt8) : List UInt8 → Option (List UInt8 × List UInt8)
  | [] => none
  | b :: input =>
    if b = 0x22 then some (buffer, input)
    else if b = 0x5C then
      match h : scanEscapeBytes input with
      | none => none
      | some (bs, rest) =>
        have := scanEscapeBytes_length h
        scanStringBytes (buffer ++ bs) rest
    else if b.toNat < 0x20 then none
    else
      -- the cases of the `switch` for the first bytes of sequences
      match rangesBehind b with
      | none => none
      | some ranges =>
        match h : nextByteInRange ranges input with
        | none => none
        | some (bs, rest) =>
          have := nextByteInRange_length h
          scanStringBytes (buffer ++ b :: bs) rest
termination_by input => input.length
decreasing_by
  · exact Nat.lt_succ_of_le this
  · exact Nat.lt_succ_of_le this

section String

variable {buffer input bs rest : List UInt8} {b : UInt8} {c : Char}

theorem scanStringBytes_escape (h : scanEscapeBytes input = some (bs, rest)) :
    scanStringBytes buffer (0x5C :: input) = scanStringBytes (buffer ++ bs) rest := by
  rw [scanStringBytes, if_neg (by decide), if_pos rfl]
  split
  · next hnone => cases h.symm.trans hnone
  · next hsome =>
    cases h.symm.trans hsome
    rfl

/-- The bytes of a character that is not escaped. -/
theorem scanStringBytes_char (hc : String.utf8EncodeChar c = b :: bs) (hquote : b ≠ 0x22)
    (hbackslash : b ≠ 0x5C) (hcontrol : 0x20 ≤ b.toNat) :
    scanStringBytes buffer (b :: (bs ++ rest)) = scanStringBytes (buffer ++ b :: bs) rest := by
  obtain ⟨ranges, hfirst, hbs⟩ := Utf8.exists_encode_iff.mp ⟨c, hc⟩
  rw [scanStringBytes, if_neg hquote, if_neg hbackslash, if_neg (Nat.not_lt.mpr hcontrol)]
  have hranges := rangesBehind_iff.mpr hfirst
  have hnext : nextByteInRange ranges (bs ++ rest) = some (bs, rest) :=
    nextByteInRange_iff.mpr ⟨rfl, hbs⟩
  split
  · next hnone => cases hranges.symm.trans hnone
  · next hsome =>
    cases hranges.symm.trans hsome
    split
    · next hnone => cases hnext.symm.trans hnone
    · next hsome =>
      cases hnext.symm.trans hsome
      rfl

theorem scanString_char {buffer input : List Char} (hquote : c ≠ '\"') (hbackslash : c ≠ '\\')
    (hcontrol : 0x20 ≤ c.toNat) :
    scanString buffer (c :: input) = scanString (buffer ++ [c]) input := by
  conv_lhs => rw [scanString]
  rw [if_neg hquote, if_neg hbackslash, if_neg (Nat.not_lt.mpr hcontrol)]

/-- The quotation mark, the backslash and the control characters are the same in both. -/
theorem special_iff (hc : String.utf8EncodeChar c = b :: bs) :
    (b = 0x22 ↔ c = '\"') ∧ (b = 0x5C ↔ c = '\\') ∧ (b.toNat < 0x20 ↔ c.toNat < 0x20) := by
  have hbyte : ∀ x : UInt8, b = x ↔ b.toNat = x.toNat := fun x => UInt8.toNat_inj.symm
  have hchar : ∀ x : Char, c = x ↔ c.toNat = x.toNat := fun x => Char.toNat_inj.symm
  have hquote : (0x22 : UInt8).toNat = 0x22 ∧ '\"'.toNat = 0x22 := ⟨rfl, rfl⟩
  have hbackslash : (0x5C : UInt8).toNat = 0x5C ∧ '\\'.toNat = 0x5C := ⟨rfl, rfl⟩
  rw [hbyte, hbyte, hchar, hchar]
  rcases Utf8.ascii_or hc with ⟨-, heq, -⟩ | ⟨hlow, hlow'⟩
  · omega
  · omega

theorem scanStringBytes_text {buffer : List Char} {s : List UInt8}
    (h : scanStringBytes (encode buffer) input = some (s, rest)) :
    ∃ pre content, input = encode pre ++ rest ∧ s = encode content ∧
      ∀ tail, scanString buffer (pre ++ tail) = some (content, tail) := by
  -- by the length of the input: a character takes all bytes of its sequence
  induction hlen : input.length using Nat.strong_induction_on generalizing input buffer with
  | h n ih =>
    cases input with
    | nil =>
      rw [scanStringBytes] at h
      cases h
    | cons b input =>
      subst hlen
      rw [scanStringBytes] at h
      split at h
      · next hquote =>
        subst hquote
        cases h
        refine ⟨['\"'], buffer, rfl, rfl, fun tail => ?_⟩
        rw [List.singleton_append, scanString, if_pos rfl]
      split at h
      · next hbackslash =>
        subst hbackslash
        split at h
        · cases h
        · next o bs rest' hescape =>
          have hlt := Nat.lt_succ_of_le (scanEscapeBytes_length hescape)
          obtain ⟨pre, e, rfl, rfl, hpre⟩ := reads_escape.text hescape
          rw [← encode_concat] at h
          obtain ⟨pre', content, rfl, rfl, hpre'⟩ := ih _ hlt h rfl
          refine ⟨'\\' :: (pre ++ pre'), content, ?_, rfl, fun tail => ?_⟩
          · rw [Utf8.encode_cons, Utf8.encode_append, List.append_assoc, List.append_assoc]
            rfl
          · rw [List.cons_append, List.append_assoc, scanString_escape (hpre _)]
            exact hpre' tail
      split at h
      · cases h
      · next hquote hbackslash hcontrol =>
        split at h
        · cases h
        · next ranges hranges =>
          split at h
          · cases h
          · next o bs rest' hnext =>
            have hlt := Nat.lt_succ_of_le (nextByteInRange_length hnext)
            obtain ⟨rfl, hbs⟩ := nextByteInRange_iff.mp hnext
            obtain ⟨c, hc⟩ := Utf8.exists_encode_iff.mpr ⟨ranges, rangesBehind_iff.mp hranges, hbs⟩
            obtain ⟨hquote', hbackslash', hcontrol'⟩ := special_iff hc
            rw [← hc, ← encode_concat] at h
            obtain ⟨pre, content, rfl, rfl, hpre⟩ := ih _ hlt h rfl
            refine ⟨c :: pre, content, ?_, rfl, fun tail => ?_⟩
            · rw [Utf8.encode_cons, hc, List.append_assoc, List.cons_append]
            · rw [List.cons_append, scanString_char (mt hquote'.mpr hquote)
                (mt hbackslash'.mpr hbackslash) (Nat.not_lt.mp (mt hcontrol'.mpr hcontrol))]
              exact hpre tail

theorem scanStringBytes_bytes {buffer text content rest : List Char}
    (h : scanString buffer text = some (content, rest)) (tail : List UInt8) :
    scanStringBytes (encode buffer) (encode text ++ tail) =
      some (encode content, encode rest ++ tail) := by
  fun_induction scanString buffer text with
  | case1 => cases h
  | case2 buffer input =>
    cases h
    rw [Utf8.encode_cons]
    show scanStringBytes _ (0x22 :: (encode rest ++ tail)) = _
    rw [scanStringBytes, if_pos rfl]
  | case3 => cases h
  | case4 buffer input e rest' hescape hlt _ ih =>
    have hbytes := reads_escape.bytes hescape tail
    rw [Utf8.encode_cons, List.append_assoc]
    refine (scanStringBytes_escape hbytes).trans ?_
    rw [← encode_concat]
    exact ih h
  | case5 => cases h
  | case6 buffer c input hquote hbackslash hcontrol ih =>
    obtain ⟨b, bs, hc⟩ := List.exists_cons_of_ne_nil (Utf8.utf8EncodeChar_ne_nil c)
    obtain ⟨hquote', hbackslash', hcontrol'⟩ := special_iff hc
    rw [Utf8.encode_cons, List.append_assoc, hc, List.cons_append, scanStringBytes_char hc
      (mt hquote'.mp hquote) (mt hbackslash'.mp hbackslash)
      (Nat.not_lt.mp (mt hcontrol'.mp hcontrol)), ← hc, ← encode_concat]
    exact ih h

/-- What the lexer takes for a string is UTF-8, whatever comes behind it, and it is read as its
characters are. -/
theorem scanStringBytes_iff (input s rest : List UInt8) :
    scanStringBytes [] input = some (s, rest) ↔
      ∃ text content, input = encode text ++ rest ∧ scanString [] text = some (content, []) ∧
        s = encode content := by
  constructor
  · intro h
    have hempty : scanStringBytes (encode []) input = some (s, rest) := h
    obtain ⟨text, content, hinput, hs, htext⟩ := scanStringBytes_text hempty
    have hall := htext []
    rw [List.append_nil] at hall
    exact ⟨text, content, hinput, hall, hs⟩
  · rintro ⟨text, content, rfl, htext, rfl⟩
    exact scanStringBytes_bytes htext rest

end String

end JsonText

end MicroRiscv
