import MicroRiscv.JsonLexerBytes
import MicroRiscv.Lib.Fallible

/-!
# The bytes that the serializer writes for a string

`dump_escaped` on bytes that need not be UTF-8. `decode` is an automaton with the table `utf8d`; the
text is collected in `string_buffer`, which has 512 bytes and is written out when less than 13 are
left. Behind a byte that the automaton rejects the error handler throws, or goes on and puts at most
a replacement character in the place of the sequence.

Results:
1. `decode_spec`: the automaton finds the encodings of characters, and the first byte that is in
   none.
2. `loop_step`: the buffer has room for what is put into it, and holds the escapes of what has been
   decoded.
3. `dumpEscapedBytes_encode`: UTF-8 is written as its characters are, by every handler;
   `dumpEscapedBytes_strict`, `dumpEscapedBytes_replaced`: what happens to other strings;
   `scanStringBytes_dumpEscapedBytes`: what is written is read back.
-/

namespace MicroRiscv

namespace JsonText

open Utf8 (First InRange encode)

/-! ## 1. The automaton -/

/-- The types of the bytes, and behind them a row of 16 states for each state. -/
def utf8d : List Nat :=
  [ 0, 0, 0, 0, 0, 0, 0, 0, 0, 0, 0, 0, 0, 0, 0, 0, 0, 0, 0, 0, 0, 0, 0, 0, 0, 0, 0, 0, 0, 0, 0, 0,
    0, 0, 0, 0, 0, 0, 0, 0, 0, 0, 0, 0, 0, 0, 0, 0, 0, 0, 0, 0, 0, 0, 0, 0, 0, 0, 0, 0, 0, 0, 0, 0,
    0, 0, 0, 0, 0, 0, 0, 0, 0, 0, 0, 0, 0, 0, 0, 0, 0, 0, 0, 0, 0, 0, 0, 0, 0, 0, 0, 0, 0, 0, 0, 0,
    0, 0, 0, 0, 0, 0, 0, 0, 0, 0, 0, 0, 0, 0, 0, 0, 0, 0, 0, 0, 0, 0, 0, 0, 0, 0, 0, 0, 0, 0, 0, 0,
    1, 1, 1, 1, 1, 1, 1, 1, 1, 1, 1, 1, 1, 1, 1, 1, 9, 9, 9, 9, 9, 9, 9, 9, 9, 9, 9, 9, 9, 9, 9, 9,
    7, 7, 7, 7, 7, 7, 7, 7, 7, 7, 7, 7, 7, 7, 7, 7, 7, 7, 7, 7, 7, 7, 7, 7, 7, 7, 7, 7, 7, 7, 7, 7,
    8, 8, 2, 2, 2, 2, 2, 2, 2, 2, 2, 2, 2, 2, 2, 2, 2, 2, 2, 2, 2, 2, 2, 2, 2, 2, 2, 2, 2, 2, 2, 2,
    0xA, 0x3, 0x3, 0x3, 0x3, 0x3, 0x3, 0x3, 0x3, 0x3, 0x3, 0x3, 0x3, 0x4, 0x3, 0x3,
    0xB, 0x6, 0x6, 0x6, 0x5, 0x8, 0x8, 0x8, 0x8, 0x8, 0x8, 0x8, 0x8, 0x8, 0x8, 0x8,
    0x0, 0x1, 0x2, 0x3, 0x5, 0x8, 0x7, 0x1, 0x1, 0x1, 0x4, 0x6, 0x1, 0x1, 0x1, 0x1,
    1, 1, 1, 1, 1, 1, 1, 1, 1, 1, 1, 1, 1, 1, 1, 1, 1, 0, 1, 1, 1, 1, 1, 0, 1, 0, 1, 1, 1, 1, 1, 1,
    1, 2, 1, 1, 1, 1, 1, 2, 1, 2, 1, 1, 1, 1, 1, 1, 1, 1, 1, 1, 1, 1, 1, 2, 1, 1, 1, 1, 1, 1, 1, 1,
    1, 2, 1, 1, 1, 1, 1, 1, 1, 2, 1, 1, 1, 1, 1, 1, 1, 1, 1, 1, 1, 1, 1, 3, 1, 3, 1, 1, 1, 1, 1, 1,
    1, 3, 1, 1, 1, 1, 1, 3, 1, 3, 1, 1, 1, 1, 1, 1, 1, 3, 1, 1, 1, 1, 1, 1, 1, 1, 1, 1, 1, 1, 1, 1]

/-- The states that have names. -/
abbrev utf8Accept : Nat := 0
abbrev utf8Reject : Nat := 1

/-- The next state, and the code point so far. -/
def decode (state codep : Nat) (byte : UInt8) : Nat × Nat :=
  let type := utf8d.getD byte.toNat 0
  let codep :=
    if state ≠ utf8Accept then byte.toNat &&& 0x3F ||| codep <<< 6
    else 0xFF >>> type &&& byte.toNat
  (utf8d.getD (256 + state * 16 + type) 0, codep)

/-- The ranges of the bytes that a state waits for. -/
def expected : Nat → List (Nat × Nat)
  | 2 => [(0x80, 0xBF)]
  | 3 => [(0x80, 0xBF), (0x80, 0xBF)]
  | 4 => [(0xA0, 0xBF), (0x80, 0xBF)]
  | 5 => [(0x80, 0x9F), (0x80, 0xBF)]
  | 6 => [(0x90, 0xBF), (0x80, 0xBF), (0x80, 0xBF)]
  | 7 => [(0x80, 0xBF), (0x80, 0xBF), (0x80, 0xBF)]
  | 8 => [(0x80, 0x8F), (0x80, 0xBF), (0x80, 0xBF)]
  | _ => []

/-- The bytes of a type. -/
def hasType (n : Nat) : (type : Nat) → Bool
  | 0x0 => n ≤ 0x7F
  | 0x1 => 0x80 ≤ n ∧ n ≤ 0x8F
  | 0x2 => 0xC2 ≤ n ∧ n ≤ 0xDF
  | 0x3 => 0xE1 ≤ n ∧ n ≤ 0xEF ∧ n ≠ 0xED
  | 0x4 => n = 0xED
  | 0x5 => n = 0xF4
  | 0x6 => 0xF1 ≤ n ∧ n ≤ 0xF3
  | 0x7 => 0xA0 ≤ n ∧ n ≤ 0xBF
  | 0x8 => n = 0xC0 ∨ n = 0xC1 ∨ 0xF5 ≤ n
  | 0x9 => 0x90 ≤ n ∧ n ≤ 0x9F
  | 0xA => n = 0xE0
  | 0xB => n = 0xF0
  | _ => false

theorem type_spec {n : Nat} (h : n < 256) : hasType n (utf8d.getD n 0) = true := by
  have hall : ∀ p ∈ utf8d.zipIdx, p.2 < 256 → hasType p.2 p.1 = true := by decide +kernel
  have hlength : n < utf8d.length := Nat.lt_trans h (by decide +kernel)
  have hmem := List.getElem?_eq_getElem hlength
  rw [List.getD_eq_getElem?_getD, hmem]
  exact hall (utf8d[n], n) (List.mk_mem_zipIdx_iff_getElem?.mpr hmem) h

/-- The state behind a byte of a type. -/
def nextState (state type : Nat) : Nat := utf8d.getD (256 + state * 16 + type) 0

/-- The types of the bytes of a range. -/
def typesOf : Nat × Nat → List Nat
  | (0x80, 0x8F) => [1]
  | (0x80, 0x9F) => [1, 9]
  | (0x80, 0xBF) => [1, 9, 7]
  | (0x90, 0xBF) => [9, 7]
  | (0xA0, 0xBF) => [7]
  | _ => []

/-- A state waits for its ranges one after the other. -/
theorem nextState_spec {state type : Nat} (hstate : state ≤ 8) (htype : type ≤ 11) :
    nextState state type ≤ 8 ∧ ∀ r ∈ (expected state).head?,
      if type ∈ typesOf r then
        nextState state type ≠ utf8Reject ∧
          expected (nextState state type) = (expected state).tail
      else nextState state type = utf8Reject := by
  have hall : ∀ p ∈ (utf8d.drop 256).zipIdx, p.1 ≤ 8 ∧
      ∀ r ∈ (expected (p.2 / 16)).head?,
        if p.2 % 16 ∈ typesOf r then
          p.1 ≠ utf8Reject ∧ expected p.1 = (expected (p.2 / 16)).tail
        else p.1 = utf8Reject := by decide +kernel
  have hlength : 256 + state * 16 + type < utf8d.length :=
    Nat.lt_of_lt_of_le (by omega : _ < 400) (by decide +kernel)
  have hmem : (nextState state type, state * 16 + type) ∈ (utf8d.drop 256).zipIdx := by
    have hget := List.getElem?_eq_getElem hlength
    refine List.mk_mem_zipIdx_iff_getElem?.mpr ?_
    rw [List.getElem?_drop, ← Nat.add_assoc, hget, nextState, List.getD_eq_getElem?_getD, hget,
      Option.getD_some]
  have hp := hall _ hmem
  have hdiv : (state * 16 + type) / 16 = state := by omega
  have hmod : (state * 16 + type) % 16 = type := by omega
  dsimp only at hp
  rw [hdiv, hmod] at hp
  exact hp

/-- The first bytes. -/
theorem nextState_accept {n type : Nat} (h : hasType n type = true) :
    nextState utf8Accept type = utf8Reject ∧ (∀ rs, ¬ First n rs) ∨
    nextState utf8Accept type ≠ utf8Reject ∧ First n (expected (nextState utf8Accept type)) ∧
      0xFF >>> type &&& n = Utf8.leadBits n := by
  have hnone : (n ≤ 0xC1 ∧ 0x80 ≤ n ∨ 0xF5 ≤ n) → ∀ rs, ¬ First n rs := by
    intro hn rs hfirst
    cases hfirst <;> omega
  have hmask : ∀ k, 2 ^ k - 1 &&& n = n % 2 ^ k := fun k => by
    rw [Nat.and_comm, Nat.and_two_pow_sub_one_eq_mod]
  match type, h with
  | 0x0, h =>
    have hn : n ≤ 0x7F := of_decide_eq_true h
    have hbits : 0xFF &&& n = n % 256 := hmask 8
    refine .inr ⟨by decide, .one hn, ?_⟩
    rw [Utf8.leadBits, if_pos hn]
    exact hbits.trans (Nat.mod_eq_of_lt (by omega))
  | 0x1, h =>
    have hn : 0x80 ≤ n ∧ n ≤ 0x8F := of_decide_eq_true h
    exact .inl ⟨by decide, hnone (by omega)⟩
  | 0x2, h =>
    have hn : 0xC2 ≤ n ∧ n ≤ 0xDF := of_decide_eq_true h
    have hbits : 0x3F &&& n = n % 64 := hmask 6
    refine .inr ⟨by decide, .two hn.1 hn.2, ?_⟩
    rw [Utf8.leadBits_two hn.1 hn.2]
    exact hbits.trans (by omega)
  | 0x3, h =>
    have hn : 0xE1 ≤ n ∧ n ≤ 0xEF ∧ n ≠ 0xED := of_decide_eq_true h
    have hbits : 0x1F &&& n = n % 32 := hmask 5
    refine .inr ⟨by decide, .three hn.1 hn.2.1 hn.2.2, ?_⟩
    rw [Utf8.leadBits_three (by omega) hn.2.1]
    exact hbits.trans (by omega)
  | 0x4, h =>
    obtain rfl : n = 0xED := of_decide_eq_true h
    exact .inr ⟨by decide, .ed, by decide⟩
  | 0x5, h =>
    obtain rfl : n = 0xF4 := of_decide_eq_true h
    exact .inr ⟨by decide, .f4, by decide⟩
  | 0x6, h =>
    have hn : 0xF1 ≤ n ∧ n ≤ 0xF3 := of_decide_eq_true h
    have hbits : 0x03 &&& n = n % 4 := hmask 2
    refine .inr ⟨by decide, .four hn.1 hn.2, ?_⟩
    rw [Utf8.leadBits_four (by omega)]
    exact hbits.trans (by omega)
  | 0x7, h =>
    have hn : 0xA0 ≤ n ∧ n ≤ 0xBF := of_decide_eq_true h
    exact .inl ⟨by decide, hnone (by omega)⟩
  | 0x8, h =>
    have hn : n = 0xC0 ∨ n = 0xC1 ∨ 0xF5 ≤ n := of_decide_eq_true h
    exact .inl ⟨by decide, hnone (by omega)⟩
  | 0x9, h =>
    have hn : 0x90 ≤ n ∧ n ≤ 0x9F := of_decide_eq_true h
    exact .inl ⟨by decide, hnone (by omega)⟩
  | 0xA, h =>
    obtain rfl : n = 0xE0 := of_decide_eq_true h
    exact .inr ⟨by decide, .e0, by decide⟩
  | 0xB, h =>
    obtain rfl : n = 0xF0 := of_decide_eq_true h
    exact .inr ⟨by decide, .f0, by decide⟩

/-- The bytes that are not first ones have the types 1, 9 and 7. -/
theorem type_tail {n type : Nat} (h : hasType n type = true) :
    (type = 1 ↔ 0x80 ≤ n ∧ n ≤ 0x8F) ∧ (type = 9 ↔ 0x90 ≤ n ∧ n ≤ 0x9F) ∧
      (type = 7 ↔ 0xA0 ≤ n ∧ n ≤ 0xBF) := by
  unfold hasType at h
  split at h
  case h_13 => cases h
  all_goals
    have hn := of_decide_eq_true h
    omega

theorem typesOf_iff {n type state : Nat} (h : hasType n type = true) {r : Nat × Nat}
    (hr : r ∈ (expected state).head?) : type ∈ typesOf r ↔ r.1 ≤ n ∧ n ≤ r.2 := by
  obtain ⟨h1, h9, h7⟩ := type_tail h
  unfold expected at hr
  split at hr
  case h_8 => cases hr
  all_goals
    cases hr
    simp only [typesOf, List.mem_cons, List.not_mem_nil, or_false]
    omega

theorem hasType_le {n type : Nat} (h : hasType n type = true) : type ≤ 11 := by
  unfold hasType at h
  split at h
  case h_13 => cases h
  all_goals decide

/-- What the automaton has read of a character: a first byte and bytes in some of its ranges. -/
structure Pending (state codep : Nat) (pending : List UInt8) : Prop where
  le : state ≤ 8
  bytes : ∃ b bs ranges, pending = b :: bs ∧ First b.toNat (ranges ++ expected state) ∧
    List.Forall₂ InRange ranges bs ∧ codep = Utf8.assembled (Utf8.leadBits b.toNat) bs
  more : expected state ≠ []

/-- The automaton between two bytes. -/
def Reads (state codep : Nat) (pending : List UInt8) : Prop :=
  state = utf8Accept ∧ pending = [] ∨ Pending state codep pending

/-- What a byte leads to. -/
inductive Decoded (pending : List UInt8) (byte : UInt8) : Nat × Nat → Prop
  | accept {c : Char} (h : String.utf8EncodeChar c = pending ++ [byte]) :
      Decoded pending byte (utf8Accept, c.toNat)
  | reject {codep : Nat} (h : ∀ c bs, String.utf8EncodeChar c ≠ pending ++ byte :: bs) :
      Decoded pending byte (utf8Reject, codep)
  | more {state codep : Nat} (h : Pending state codep (pending ++ [byte])) :
      Decoded pending byte (state, codep)

theorem expected_eq_nil : ∀ state, state ≤ 8 → expected state = [] →
    state = utf8Accept ∨ state = utf8Reject := by decide

theorem expected_head : ∀ state, state ≤ 8 → ∀ r ∈ (expected state).head?,
    0x80 ≤ r.1 ∧ r.2 ≤ 0xBF := by decide

/-- Bytes in ranges, of which a state has the rest. -/
theorem decoded_of_ranges (ranges : List (Nat × Nat)) (b : UInt8) (bs : List UInt8) {byte : UInt8}
    {pending : List UInt8} {state codep : Nat} (hstate : state ≤ 8) (hreject : state ≠ utf8Reject)
    (hfirst : First b.toNat (ranges ++ expected state)) (hbs : List.Forall₂ InRange ranges bs)
    (hcodep : codep = Utf8.assembled (Utf8.leadBits b.toNat) bs)
    (heq : pending ++ [byte] = b :: bs) : Decoded pending byte (state, codep) := by
  by_cases hmore : expected state = []
  · obtain rfl := (expected_eq_nil state hstate hmore).resolve_right hreject
    rw [hmore, List.append_nil] at hfirst
    obtain ⟨c, hc⟩ := Utf8.exists_encode_iff.mpr ⟨ranges, hfirst, hbs⟩
    rw [hcodep, (Utf8.encode_eq_iff.mp hc).2]
    exact .accept (hc.trans heq.symm)
  · exact .more ⟨hstate, ⟨b, bs, ranges, heq, hfirst, hbs, hcodep⟩, hmore⟩

/-- The automaton finds the encodings of characters, and the first byte that is in none. -/
theorem decode_spec {state codep : Nat} {pending : List UInt8} (h : Reads state codep pending)
    (byte : UInt8) : Decoded pending byte (decode state codep byte) := by
  have htype := type_spec byte.toNat_lt
  rcases h with ⟨rfl, rfl⟩ | h
  · show Decoded [] byte (nextState utf8Accept _, 0xFF >>> _ &&& byte.toNat)
    rcases nextState_accept htype with ⟨hreject, hnone⟩ | ⟨hreject, hfirst, hbits⟩
    · rw [hreject]
      refine .reject fun c bs hc => ?_
      obtain ⟨⟨ranges, hfirst, -⟩, -⟩ := Utf8.encode_eq_iff.mp hc
      exact hnone ranges hfirst
    · have hle := (nextState_spec (Nat.zero_le 8) (hasType_le htype)).1
      exact decoded_of_ranges [] byte [] hle hreject hfirst .nil hbits rfl
  · obtain ⟨hstate, ⟨b, bs, ranges, rfl, hfirst, hbs, rfl⟩, hmore⟩ := h
    obtain ⟨r, rs, hexpected⟩ := List.exists_cons_of_ne_nil hmore
    have hhead : r ∈ (expected state).head? := by
      rw [hexpected]
      rfl
    have hne : state ≠ utf8Accept := by
      rintro rfl
      exact hmore rfl
    have hdecode : decode state (Utf8.assembled (Utf8.leadBits b.toNat) bs) byte =
        (nextState state (utf8d.getD byte.toNat 0), byte.toNat &&& 0x3F |||
          Utf8.assembled (Utf8.leadBits b.toNat) bs <<< 6) := by
      unfold decode
      simp only [if_pos hne]
      rfl
    obtain ⟨hle, hnext⟩ := nextState_spec hstate (hasType_le htype)
    have hrange := hnext r hhead
    rw [hdecode]
    split at hrange
    · next hin =>
      obtain ⟨hreject, htail⟩ := hrange
      have hbyte : InRange r byte := (typesOf_iff htype hhead).mp hin
      rw [hexpected, List.tail_cons] at htail
      rw [hexpected] at hfirst
      refine decoded_of_ranges (ranges ++ [r]) b (bs ++ [byte]) hle hreject ?_ ?_ ?_ rfl
      · rw [htail, List.append_assoc]
        exact hfirst
      · exact List.rel_append hbs (.cons hbyte .nil)
      · obtain ⟨hlow, hhigh⟩ := expected_head state hstate r hhead
        obtain ⟨hlow', hhigh'⟩ := hbyte
        have hbits : byte.toNat &&& 0x3F = byte.toNat - 0x80 :=
          (Nat.and_two_pow_sub_one_eq_mod byte.toNat 6).trans (by omega)
        rw [Utf8.assembled_concat, hbits, Nat.shiftLeft_eq, Nat.or_comm, Nat.mul_comm]
        exact (Nat.two_pow_add_eq_or_of_lt (by omega) _).symm
    · next hout =>
      rw [hrange]
      refine .reject fun c bs' hc => ?_
      obtain ⟨⟨ranges', hfirst', hbs'⟩, -⟩ := Utf8.encode_eq_iff.mp hc
      obtain rfl := hfirst.unique hfirst'
      rw [hexpected] at hbs'
      have hrest := List.forall₂_drop_append _ _ _ hbs'
      rw [← hbs.length_eq, List.drop_left] at hrest
      cases hrest with
      | cons hbyte _ => exact hout ((typesOf_iff htype hhead).mpr hbyte)

/-! ## 2. The buffer -/

inductive ErrorHandler
  | strict
  | replace
  | ignore
deriving DecidableEq

/-- The two `type_error`s with the id 316, and a write behind the end of the buffer. -/
inductive DumpError
  | invalidByte (byte : UInt8) (index : Nat)
  | incomplete (lastByte : UInt8)
  | overflow

structure Dumper where
  codepoint : Nat
  state : Nat
  /-- The first `bytes` bytes of `string_buffer`. -/
  buffer : List UInt8
  bytesAfterLastAccept : Nat
  undumpedChars : Nat
  /-- What `write_characters` has been given. -/
  written : List UInt8

namespace Dumper

def start : Dumper where
  codepoint := 0
  state := utf8Accept
  buffer := []
  bytesAfterLastAccept := 0
  undumpedChars := 0
  written := []

/-- Bytes are put into the buffer; `size` of its bytes are touched, since `snprintf` ends its text
with a NUL. -/
def put (d : Dumper) (bytes : List UInt8) (size : Nat) : Except DumpError Dumper :=
  if d.buffer.length + size ≤ 512 then .ok { d with buffer := d.buffer ++ bytes }
  else .error .overflow

def flush (d : Dumper) : Dumper :=
  if 512 - d.buffer.length < 13 then { d with buffer := [], written := d.written ++ d.buffer }
  else d

end Dumper

/-- The bytes of characters that are in ASCII. -/
def ascii (cs : List Char) : List UInt8 := cs.map fun c => UInt8.ofNat c.toNat

/-- What is put into the buffer for a code point with the last byte `byte`, and how many bytes are
touched. -/
def codepointText (ensureAscii : Bool) (codepoint : Nat) (byte : UInt8) : List UInt8 × Nat :=
  match codepoint with
  | 0x08 => (ascii ['\\', 'b'], 2)
  | 0x09 => (ascii ['\\', 't'], 2)
  | 0x0A => (ascii ['\\', 'n'], 2)
  | 0x0C => (ascii ['\\', 'f'], 2)
  | 0x0D => (ascii ['\\', 'r'], 2)
  | 0x22 => (ascii ['\\', '\"'], 2)
  | 0x5C => (ascii ['\\', '\\'], 2)
  | codepoint =>
    if codepoint ≤ 0x1F ∨ ensureAscii ∧ 0x7F ≤ codepoint then
      if codepoint ≤ 0xFFFF then (ascii (unicodeEscape codepoint), 7)
      else
        (ascii (unicodeEscape (0xD7C0 + codepoint / 0x400) ++
          unicodeEscape (0xDC00 + codepoint % 0x400)), 13)
    else ([byte], 1)

/-- The replacement character U+FFFD. -/
def replacement (ensureAscii : Bool) : List UInt8 :=
  if ensureAscii then ascii ['\\', 'u', 'f', 'f', 'f', 'd'] else [0xEF, 0xBF, 0xBD]

namespace Dumper

variable (handler : ErrorHandler) (ensureAscii : Bool)

/-- `UTF8_ACCEPT`. -/
def accept (d : Dumper) (byte : UInt8) : Except DumpError Dumper := do
  let (text, size) := codepointText ensureAscii d.codepoint byte
  let d ← d.put text size
  let d := d.flush
  return { d with bytesAfterLastAccept := d.buffer.length, undumpedChars := 0 }

/-- `UTF8_REJECT` with a handler that goes on. -/
def skip (d : Dumper) : Except DumpError Dumper := do
  -- the bytes of the sequence that have been copied are dropped
  let d := { d with buffer := d.buffer.take d.bytesAfterLastAccept }
  if handler = .replace then
    let d ← d.put (replacement ensureAscii) (replacement ensureAscii).length
    let d := d.flush
    return { d with
      bytesAfterLastAccept := d.buffer.length
      undumpedChars := 0
      state := utf8Accept }
  else return { d with undumpedChars := 0, state := utf8Accept }

/-- A byte in a sequence that is not complete. -/
def keep (d : Dumper) (byte : UInt8) : Except DumpError Dumper := do
  -- with `ensure_ascii` the whole character is escaped later
  let d ← if ensureAscii then pure d else d.put [byte] 1
  return { d with undumpedChars := d.undumpedChars + 1 }

theorem undumped_of_skip {handler : ErrorHandler} {ensureAscii : Bool} {d d' : Dumper}
    (h : d.skip handler ensureAscii = .ok d') : d'.undumpedChars = 0 := by
  unfold skip at h
  dsimp only at h
  split at h
  · obtain ⟨_, -, h⟩ := Fallible.bind_eq_ok_iff.mp h
    cases h
    rfl
  · cases h
    rfl

/-- The loop of `dump_escaped`, from the index `i` on. A byte that is rejected behind others is read
again. -/
def loop (d : Dumper) (i : Nat) : List UInt8 → Except DumpError Dumper
  | [] => .ok d
  | byte :: s =>
    let d' := { d with
      state := (decode d.state d.codepoint byte).1
      codepoint := (decode d.state d.codepoint byte).2 }
    if d'.state = utf8Accept then do
      let d ← d'.accept ensureAscii byte
      loop d (i + 1) s
    else if d'.state = utf8Reject then
      -- `i` is not advanced where the byte may be the first of another sequence
      if handler = .strict then .error (.invalidByte byte i)
      else
        match h : d'.skip handler ensureAscii with
        | .error e => .error e
        | .ok d'' =>
          if 0 < d.undumpedChars then
            have := undumped_of_skip h
            loop d'' i (byte :: s)
          else loop d'' (i + 1) s
    else do
      let d ← d'.keep ensureAscii byte
      loop d (i + 1) s
termination_by s => (s.length, d.undumpedChars)
decreasing_by
  · exact .left _ _ (Nat.lt_succ_self _)
  · refine .right _ ?_
    rw [this]
    assumption
  · exact .left _ _ (Nat.lt_succ_self _)
  · exact .left _ _ (Nat.lt_succ_self _)

end Dumper

namespace Dumper

/-- The end of `dump_escaped`: what `o` has been given. -/
def finish (handler : ErrorHandler) (ensureAscii : Bool) (lastByte : UInt8) (d : Dumper) :
    Except DumpError (List UInt8) :=
  if d.state = utf8Accept then .ok (d.written ++ d.buffer)
  else
    match handler with
    | .strict => .error (.incomplete lastByte)
    | .ignore => .ok (d.written ++ d.buffer.take d.bytesAfterLastAccept)
    | .replace => .ok (d.written ++ d.buffer.take d.bytesAfterLastAccept ++ replacement ensureAscii)

end Dumper

/-- `dump_escaped`. -/
def dumpEscapedBytes (handler : ErrorHandler) (ensureAscii : Bool) (s : List UInt8) :
    Except DumpError (List UInt8) :=
  Dumper.start.loop handler ensureAscii 0 s >>=
    Dumper.finish handler ensureAscii (s.getLast?.getD 0)

section Text

variable {ensureAscii : Bool} {c : Char} {cs : List Char} {pending : List UInt8} {byte : UInt8}

theorem encode_of_ascii (h : ∀ c ∈ cs, c.toNat ≤ 0x7F) : encode cs = ascii cs := by
  induction cs with
  | nil => rfl
  | cons c cs ih =>
    rw [Utf8.encode_cons, Utf8.utf8EncodeChar_ascii (h c List.mem_cons_self),
      ih fun c hc => h c (List.mem_cons_of_mem _ hc)]
    rfl

theorem unicodeEscape_ascii {n : Nat} (h : n < 0x10000) :
    ∀ c ∈ unicodeEscape n, c.toNat ≤ 0x7F := by
  have hdigit : ∀ m, m < 16 → (Nat.digitChar m).toNat ≤ 0x7F := by decide
  unfold unicodeEscape hex4
  simp only [List.forall_mem_cons]
  exact ⟨by decide, by decide, hdigit _ (by omega), hdigit _ (by omega), hdigit _ (by omega),
    hdigit _ (by omega), nofun⟩

/-- A character is copied, or what is written for it is in ASCII. -/
theorem codepointText_cases (ensureAscii : Bool) (c : Char) (byte : UInt8) :
    escapeChar ensureAscii c = [c] ∧ codepointText ensureAscii c.toNat byte = ([byte], 1) ∧
      (ensureAscii = true → c.toNat ≤ 0x7F) ∨
    (∀ c' ∈ escapeChar ensureAscii c, c'.toNat ≤ 0x7F) ∧
      (∃ size ≤ 13, (escapeChar ensureAscii c).length ≤ size ∧
        codepointText ensureAscii c.toNat byte = (ascii (escapeChar ensureAscii c), size)) ∧
      (ensureAscii = false → c.toNat ≤ 0x7F) := by
  have hc := Utf8.toNat_lt c
  unfold escapeChar
  generalize c.toNat = n at hc
  split
  case h_8 =>
    have htext : codepointText ensureAscii n byte =
        if n ≤ 0x1F ∨ ensureAscii ∧ 0x7F ≤ n then
          if n ≤ 0xFFFF then (ascii (unicodeEscape n), 7)
          else
            (ascii (unicodeEscape (0xD7C0 + n / 0x400) ++ unicodeEscape (0xDC00 + n % 0x400)), 13)
        else ([byte], 1) := by
      unfold codepointText
      split
      case h_8 => rfl
      all_goals contradiction
    rw [htext]
    split
    · next hescape =>
      have hplain : ensureAscii = false → n ≤ 0x7F := by
        rintro rfl
        exact (hescape.resolve_right fun h => Bool.false_ne_true h.1).trans (by decide)
      split
      · next hplane =>
        exact .inr ⟨unicodeEscape_ascii (by omega), ⟨7, by decide, Nat.le_succ 6, rfl⟩, hplain⟩
      · refine .inr ⟨?_, ⟨13, le_rfl, Nat.le_succ 12, rfl⟩, hplain⟩
        intro c' hc'
        rcases List.mem_append.mp hc' with hc' | hc'
        · exact unicodeEscape_ascii (by omega) c' hc'
        · exact unicodeEscape_ascii (by omega) c' hc'
    · next hcopied =>
      refine .inl ⟨rfl, rfl, fun hascii => ?_⟩
      by_contra hlt
      exact hcopied (.inr ⟨hascii, by omega⟩)
  all_goals
    refine .inr ⟨?_, ⟨2, by decide, le_rfl, rfl⟩, fun _ => by decide⟩
    exact List.forall_mem_cons.mpr ⟨by decide, List.forall_mem_singleton.mpr (by decide)⟩

/-- The bytes that are copied and the text that is put behind them are those of the escape. -/
theorem codepointText_spec (ensureAscii : Bool) (hc : String.utf8EncodeChar c = pending ++ [byte]) :
    (if ensureAscii then [] else pending) ++ (codepointText ensureAscii c.toNat byte).1 =
        encode (escapeChar ensureAscii c) ∧
      (codepointText ensureAscii c.toNat byte).1.length ≤
        (codepointText ensureAscii c.toNat byte).2 ∧
      (codepointText ensureAscii c.toNat byte).2 ≤ 13 ∧
      (pending ≠ [] → ensureAscii = false → (codepointText ensureAscii c.toNat byte).2 = 1) := by
  have hfirst : c.toNat ≤ 0x7F → pending = [] := by
    intro hle
    rw [Utf8.utf8EncodeChar_ascii hle] at hc
    exact (List.append_eq_singleton_iff.mp hc.symm).elim And.left fun h => nomatch h.2
  rcases codepointText_cases ensureAscii c byte with
    ⟨hescape, htext, hle⟩ | ⟨hascii, ⟨size, hsize, hlength, htext⟩, hle⟩
  · have hcopied : (if ensureAscii then [] else pending) = pending := by
      split
      · next h => exact (hfirst (hle h)).symm
      · rfl
    rw [hescape, htext, hcopied, Utf8.encode_singleton, hc]
    exact ⟨rfl, le_rfl, Nat.le_add_left 1 12, fun _ _ => rfl⟩
  · have hcopied : (if ensureAscii then [] else pending) = [] := by
      split
      · rfl
      · next h => exact hfirst (hle (Bool.eq_false_iff.mpr h))
    rw [htext, hcopied, encode_of_ascii hascii, ascii, List.length_map]
    exact ⟨rfl, hlength, hsize, fun hne h => absurd (hfirst (hle h)) hne⟩

end Text

/-! ### Steps -/

theorem Pending.begun {state codep : Nat} {pending : List UInt8} (h : Pending state codep pending) :
    Utf8.Begun pending := by
  obtain ⟨b, bs, ranges, rfl, hfirst, hbs, -⟩ := h.bytes
  exact Utf8.begun_of_ranges hfirst hbs h.more

theorem Pending.length_le {state codep : Nat} {pending : List UInt8}
    (h : Pending state codep pending) : pending.length ≤ 3 := by
  obtain ⟨b, bs, ranges, rfl, hfirst, hbs, -⟩ := h.bytes
  have hranges := hfirst.length_le
  have hmore := List.length_pos_iff.mpr h.more
  rw [List.length_append, hbs.length_eq] at hranges
  rw [List.length_cons]
  omega

theorem Reads.length_le {state codep : Nat} {pending : List UInt8} (h : Reads state codep pending) :
    pending.length ≤ 3 := by
  rcases h with ⟨-, rfl⟩ | h
  · exact Nat.zero_le 3
  · exact h.length_le

theorem Reads.begun {state codep : Nat} {pending : List UInt8} (h : Reads state codep pending) :
    Utf8.Begun pending := by
  rcases h with ⟨-, rfl⟩ | h
  · exact Utf8.begun_nil
  · exact h.begun

theorem Reads.accept_iff {state codep : Nat} {pending : List UInt8}
    (h : Reads state codep pending) : state = utf8Accept ↔ pending = [] := by
  rcases h with ⟨rfl, rfl⟩ | h
  · exact ⟨fun _ => rfl, fun _ => rfl⟩
  · obtain ⟨b, bs, ranges, rfl, -⟩ := h.bytes
    refine ⟨?_, nofun⟩
    rintro rfl
    exact absurd rfl h.more

/-- The characters that are written for a sequence that is in no encoding. -/
def replacementText (handler : ErrorHandler) (ensureAscii : Bool) : List Char :=
  if handler = .replace then if ensureAscii then ['\\', 'u', 'f', 'f', 'f', 'd'] else ['\uFFFD']
  else []

theorem encode_replacement (ensureAscii : Bool) :
    encode (replacementText .replace ensureAscii) = replacement ensureAscii := by
  cases ensureAscii <;> decide

namespace Dumper

/-- The text `out` has been written for what is accepted, and `pending` is behind it. -/
structure Inv (ensureAscii : Bool) (d : Dumper) (out : List Char) (pending : List UInt8) :
    Prop where
  reads : Reads d.state d.codepoint pending
  accepted : ∃ bytes, d.buffer = bytes ++ (if ensureAscii then [] else pending) ∧
    d.bytesAfterLastAccept = bytes.length ∧ bytes.length ≤ 499 ∧ d.written ++ bytes = encode out
  undumped : d.undumpedChars = pending.length

variable {handler : ErrorHandler} {ensureAscii : Bool} {d : Dumper} {out : List Char}
  {pending : List UInt8} {byte : UInt8} {state codep : Nat} {c : Char}

theorem inv_start : Inv ensureAscii start [] [] where
  reads := .inl ⟨rfl, rfl⟩
  accepted := ⟨[], (ite_self _).symm, rfl, Nat.zero_le _, rfl⟩
  undumped := rfl

theorem flush_spec (d : Dumper) : d.flush.buffer.length ≤ 499 ∧
    d.flush.written ++ d.flush.buffer = d.written ++ d.buffer ∧ d.flush.state = d.state := by
  unfold flush
  split
  · exact ⟨Nat.zero_le _, List.append_nil _, rfl⟩
  · exact ⟨by omega, rfl, rfl⟩

/-- A buffer that has been flushed is accepted up to its end. -/
theorem inv_of_flush {d' : Dumper} (hout : d.written ++ d.buffer = encode out)
    (hstate : d'.state = utf8Accept) (hbuffer : d'.buffer = d.flush.buffer)
    (hwritten : d'.written = d.flush.written) (hlast : d'.bytesAfterLastAccept = d'.buffer.length)
    (hundumped : d'.undumpedChars = 0) : Inv ensureAscii d' out [] := by
  obtain ⟨hlength, hflush, -⟩ := flush_spec d
  refine ⟨.inl ⟨hstate, rfl⟩, ⟨d'.buffer, ?_, hlast, ?_, ?_⟩, hundumped⟩
  · rw [ite_self, List.append_nil]
  · rw [hbuffer]
    exact hlength
  · rw [hbuffer, hwritten]
    exact hflush.trans hout

theorem accept_spec (h : Inv ensureAscii d out pending)
    (hc : String.utf8EncodeChar c = pending ++ [byte]) :
    ∃ d', { d with state := utf8Accept, codepoint := c.toNat }.accept ensureAscii byte = .ok d' ∧
      Inv ensureAscii d' (out ++ escapeChar ensureAscii c) [] := by
  obtain ⟨bytes, hbuffer, -, hbytes, hout⟩ := h.accepted
  obtain ⟨htext, -, hsize, hone⟩ := codepointText_spec ensureAscii hc
  have hpending := h.reads.length_le
  have hroom : d.buffer.length + (codepointText ensureAscii c.toNat byte).2 ≤ 512 := by
    rw [hbuffer, List.length_append]
    cases ensureAscii with
    | true => exact Nat.add_le_add hbytes hsize
    | false =>
      -- of a character that is copied at most 3 bytes are in the buffer already
      by_cases hempty : pending = []
      · subst hempty
        exact Nat.add_le_add hbytes hsize
      · rw [hone hempty rfl]
        exact Nat.succ_le_succ ((Nat.add_le_add hbytes hpending).trans (by decide))
  refine ⟨_, (congrArg (· >>= _) (if_pos hroom) : _),
    inv_of_flush ?_ (flush_spec _).2.2 rfl rfl rfl rfl⟩
  show d.written ++ (d.buffer ++ (codepointText ensureAscii c.toNat byte).1) = _
  rw [hbuffer, List.append_assoc, htext, ← List.append_assoc, hout, Utf8.encode_append]

theorem keep_spec (h : Inv ensureAscii d out pending)
    (hpending : Pending state codep (pending ++ [byte])) :
    ∃ d', { d with state := state, codepoint := codep }.keep ensureAscii byte = .ok d' ∧
      Inv ensureAscii d' out (pending ++ [byte]) := by
  obtain ⟨bytes, hbuffer, hlast, hbytes, hout⟩ := h.accepted
  have hlength := hpending.length_le
  have hundumped : d.undumpedChars + 1 = (pending ++ [byte]).length := by
    rw [h.undumped, List.length_append]
    rfl
  cases ensureAscii with
  | true => exact ⟨_, rfl, .inr hpending, ⟨bytes, hbuffer, hlast, hbytes, hout⟩, hundumped⟩
  | false =>
    have hroom : d.buffer.length + 1 ≤ 512 := by
      rw [hbuffer, List.length_append]
      rw [List.length_append] at hlength
      exact (Nat.add_le_add hbytes hlength).trans (by decide)
    refine ⟨_, (congrArg (· >>= _) (if_pos hroom) : _), .inr hpending,
      ⟨bytes, ?_, hlast, hbytes, hout⟩, hundumped⟩
    show d.buffer ++ [byte] = bytes ++ (pending ++ [byte])
    rw [hbuffer, List.append_assoc]
    rfl

theorem skip_spec (handler : ErrorHandler) (state codep : Nat)
    (h : Inv ensureAscii d out pending) :
    ∃ d', { d with state := state, codepoint := codep }.skip handler ensureAscii = .ok d' ∧
      Inv ensureAscii d' (out ++ replacementText handler ensureAscii) [] := by
  obtain ⟨bytes, hbuffer, hlast, hbytes, hout⟩ := h.accepted
  have htake : d.buffer.take d.bytesAfterLastAccept = bytes := by
    rw [hbuffer, hlast, List.take_left]
  by_cases hhandler : handler = .replace
  · subst hhandler
    have hroom : (d.buffer.take d.bytesAfterLastAccept).length +
        (replacement ensureAscii).length ≤ 512 := by
      have hsize : (replacement ensureAscii).length ≤ 6 := by
        cases ensureAscii <;> decide
      rw [htake]
      exact (Nat.add_le_add hbytes hsize).trans (by decide)
    refine ⟨_, (congrArg (· >>= _) (if_pos hroom) : _), inv_of_flush ?_ rfl rfl rfl rfl rfl⟩
    show d.written ++ (d.buffer.take d.bytesAfterLastAccept ++ replacement ensureAscii) = _
    rw [htake, ← List.append_assoc, hout, Utf8.encode_append, encode_replacement]
  · have htext : replacementText handler ensureAscii = [] := if_neg hhandler
    refine ⟨_, if_neg hhandler, .inl ⟨rfl, rfl⟩, ⟨bytes, ?_, hlast, hbytes, ?_⟩, rfl⟩
    · rw [ite_self, List.append_nil]
      exact htake
    · rw [htext, List.append_nil]
      exact hout

/-- What the loop does with a byte, from a state with the text `out` and the bytes `pending`. -/
inductive Stepped (handler : ErrorHandler) (ensureAscii : Bool) (out : List Char)
    (pending : List UInt8) (i : Nat) (byte : UInt8) (s : List UInt8) :
    Except DumpError Dumper → Prop
  | char {c : Char} {d : Dumper} (hc : String.utf8EncodeChar c = pending ++ [byte])
      (h : Inv ensureAscii d (out ++ escapeChar ensureAscii c) []) :
      Stepped handler ensureAscii out pending i byte s (d.loop handler ensureAscii (i + 1) s)
  | more {d : Dumper} (h : Inv ensureAscii d out (pending ++ [byte])) :
      Stepped handler ensureAscii out pending i byte s (d.loop handler ensureAscii (i + 1) s)
  | throw (hstrict : handler = .strict) (hpart : Utf8.Longest pending (byte :: s)) :
      Stepped handler ensureAscii out pending i byte s (.error (.invalidByte byte i))
  | again {d : Dumper} (hstrict : handler ≠ .strict) (hne : pending ≠ [])
      (hpart : Utf8.Longest pending (byte :: s))
      (h : Inv ensureAscii d (out ++ replacementText handler ensureAscii) []) :
      Stepped handler ensureAscii out pending i byte s (d.loop handler ensureAscii i (byte :: s))
  | skip {d : Dumper} (hstrict : handler ≠ .strict) (hempty : pending = [])
      (hpart : Utf8.Longest [] (byte :: s))
      (h : Inv ensureAscii d (out ++ replacementText handler ensureAscii) []) :
      Stepped handler ensureAscii out pending i byte s (d.loop handler ensureAscii (i + 1) s)

theorem loop_step (handler : ErrorHandler) (h : Inv ensureAscii d out pending) (i : Nat)
    (byte : UInt8) (s : List UInt8) :
    Stepped handler ensureAscii out pending i byte s
      (d.loop handler ensureAscii i (byte :: s)) := by
  have hdecoded := decode_spec h.reads byte
  rw [loop]
  generalize hdecode : decode d.state d.codepoint byte = p at hdecoded
  cases hdecoded with
  | accept hc =>
    obtain ⟨d', haccept, hd'⟩ := accept_spec h hc
    dsimp only
    rw [if_pos rfl, haccept]
    exact .char hc hd'
  | @reject codep hbyte =>
    have hpart := h.reads.begun.longest_cons hbyte s
    dsimp only
    rw [if_neg (by decide), if_pos rfl]
    by_cases hstrict : handler = .strict
    · rw [if_pos hstrict]
      exact .throw hstrict hpart
    rw [if_neg hstrict]
    obtain ⟨d', hskip, hd'⟩ := skip_spec handler utf8Reject codep h
    split
    · next herror => cases hskip.symm.trans herror
    · next hok =>
      cases hskip.symm.trans hok
      split
      · next hundumped =>
        have hne : pending ≠ [] := by
          rw [h.undumped] at hundumped
          exact List.length_pos_iff.mp hundumped
        exact .again hstrict hne hpart hd'
      · next hundumped =>
        have hempty : pending = [] := by
          rw [h.undumped] at hundumped
          exact List.length_eq_zero_iff.mp (Nat.eq_zero_of_not_pos hundumped)
        subst hempty
        exact .skip hstrict rfl hpart hd'
  | @more state codep hpending =>
    obtain ⟨d', hkeep, hd'⟩ := keep_spec h hpending
    have haccept : state ≠ utf8Accept := fun heq => hpending.more (congrArg expected heq)
    have hreject : state ≠ utf8Reject := fun heq => hpending.more (congrArg expected heq)
    dsimp only
    rw [if_neg haccept, if_neg hreject, hkeep]
    exact .more hd'

theorem finish_accept (h : Inv ensureAscii d out []) (lastByte : UInt8) :
    d.finish handler ensureAscii lastByte = .ok (encode out) := by
  obtain ⟨bytes, hbuffer, -, -, hout⟩ := h.accepted
  rw [ite_self, List.append_nil] at hbuffer
  refine (if_pos (h.reads.accept_iff.mpr rfl)).trans ?_
  rw [hbuffer, hout]

theorem finish_strict (h : Inv ensureAscii d out pending) (hne : pending ≠ []) (lastByte : UInt8) :
    d.finish .strict ensureAscii lastByte = .error (.incomplete lastByte) :=
  if_neg (mt h.reads.accept_iff.mp hne)

theorem finish_replaced (h : Inv ensureAscii d out pending) (hne : pending ≠ [])
    (hstrict : handler ≠ .strict) (lastByte : UInt8) :
    d.finish handler ensureAscii lastByte =
      .ok (encode (out ++ replacementText handler ensureAscii)) := by
  obtain ⟨bytes, hbuffer, hlast, -, hout⟩ := h.accepted
  have htake : d.buffer.take d.bytesAfterLastAccept = bytes := by
    rw [hbuffer, hlast, List.take_left]
  refine (if_neg (mt h.reads.accept_iff.mp hne)).trans ?_
  rw [htake, Utf8.encode_append, ← hout]
  cases handler with
  | strict => exact absurd rfl hstrict
  | ignore => exact congrArg _ (List.append_nil _).symm
  | replace => rw [encode_replacement]

end Dumper

/-! ## 3. Strings -/

/-- What is written for a character, or for a sequence that is in no encoding. -/
def pieceText (handler : ErrorHandler) (ensureAscii : Bool) : Option Char → List Char
  | some c => escapeChar ensureAscii c
  | none => replacementText handler ensureAscii

namespace Dumper

variable {handler : ErrorHandler} {ensureAscii : Bool} {d : Dumper} {out : List Char}
  {pending : List UInt8}

/-- The rest of the string is written behind `out`: the characters of `bytes`, and what stands for
the other parts. -/
def Replaces (handler : ErrorHandler) (ensureAscii : Bool) (lastByte : UInt8) (out : List Char)
    (bytes : List UInt8) (result : Except DumpError Dumper) : Prop :=
  ∃ pieces, Utf8.Pieces bytes pieces ∧ result >>= finish handler ensureAscii lastByte =
    .ok (encode (out ++ pieces.flatMap (pieceText handler ensureAscii)))

section Replaces

variable {lastByte byte : UInt8} {bytes rest s : List UInt8} {result : Except DumpError Dumper}
  {i : Nat}

theorem Replaces.cons (piece : Option Char) (h : Replaces handler ensureAscii lastByte
      (out ++ pieceText handler ensureAscii piece) rest result)
    (hpieces : ∀ {pieces}, Utf8.Pieces rest pieces → Utf8.Pieces bytes (piece :: pieces)) :
    Replaces handler ensureAscii lastByte out bytes result := by
  obtain ⟨pieces, hrest, hwritten⟩ := h
  refine ⟨piece :: pieces, hpieces hrest, ?_⟩
  rw [hwritten, List.flatMap_cons, List.append_assoc]

theorem Stepped.replaces (hstrict : handler ≠ .strict)
    (h : Stepped handler ensureAscii out pending i byte s result)
    (hnext : ∀ {d out pending}, Inv ensureAscii d out pending →
      Replaces handler ensureAscii lastByte out (pending ++ s)
        (d.loop handler ensureAscii (i + 1) s))
    (hagain : pending ≠ [] → ∀ {d out}, Inv ensureAscii d out [] →
      Replaces handler ensureAscii lastByte out (byte :: s)
        (d.loop handler ensureAscii i (byte :: s))) :
    Replaces handler ensureAscii lastByte out (pending ++ byte :: s) result := by
  cases h with
  | @char c _ hc h' =>
    rw [← List.singleton_append, ← List.append_assoc, ← hc]
    exact (hnext h').cons (some c) .char
  | more h' =>
    have hmore := hnext h'
    rw [List.append_assoc] at hmore
    exact hmore
  | throw hhandler => exact absurd hhandler hstrict
  | again _ hne hpart h' => exact (hagain hne h').cons none (.part hpart hne)
  | skip _ hempty hpart h' =>
    subst hempty
    exact (hnext h').cons none (.byte hpart)

/-- A run that goes on behind what is no UTF-8. -/
theorem loop_replaces (hstrict : handler ≠ .strict) (h : Inv ensureAscii d out pending) (i : Nat)
    (s : List UInt8) (lastByte : UInt8) :
    Replaces handler ensureAscii lastByte out (pending ++ s)
      (d.loop handler ensureAscii i s) := by
  induction s generalizing d out pending i with
  | nil =>
    rw [loop, List.append_nil]
    by_cases hempty : pending = []
    · subst hempty
      refine ⟨[], .nil, (finish_accept h lastByte).trans ?_⟩
      rw [List.flatMap_nil, List.append_nil]
    · have hpieces : Utf8.Pieces (pending ++ []) [none] :=
        .part h.reads.begun.longest_nil hempty .nil
      rw [List.append_nil] at hpieces
      refine ⟨[none], hpieces, ?_⟩
      rw [List.flatMap_cons, List.flatMap_nil, List.append_nil]
      exact finish_replaced h hempty hstrict lastByte
  | cons byte s ih =>
    -- a byte that is read again is read behind no others
    have hagain : ∀ {d out}, Inv ensureAscii d out [] →
        Replaces handler ensureAscii lastByte out (byte :: s)
          (d.loop handler ensureAscii i (byte :: s)) := fun h' =>
      (loop_step handler h' i byte s).replaces hstrict (fun h => ih h (i + 1))
        fun hne => absurd rfl hne
    exact (loop_step handler h i byte s).replaces hstrict (fun h => ih h (i + 1)) fun _ => hagain

end Replaces

/-- The result for a string of which `bytes` have been read without an error. -/
inductive StrictResult (ensureAscii : Bool) (lastByte : UInt8) (s : List UInt8) :
    Except DumpError (List UInt8) → Prop
  | text {text : List Char} (hs : s = encode text) :
      StrictResult ensureAscii lastByte s (.ok (encode (text.flatMap (escapeChar ensureAscii))))
  | invalid {text : List Char} {pending rest : List UInt8} {byte : UInt8}
      (hs : s = encode text ++ pending ++ byte :: rest)
      (hpart : Utf8.Longest pending (byte :: rest)) :
      StrictResult ensureAscii lastByte s
        (.error (.invalidByte byte (encode text ++ pending).length))
  | incomplete {text : List Char} {pending : List UInt8} (hs : s = encode text ++ pending)
      (hpart : Utf8.Longest pending []) (hne : pending ≠ []) :
      StrictResult ensureAscii lastByte s (.error (.incomplete lastByte))

/-- A run that stops at what is no UTF-8. -/
theorem loop_strict (text : List Char)
    (h : Inv ensureAscii d (text.flatMap (escapeChar ensureAscii)) pending) (s : List UInt8)
    (lastByte : UInt8) :
    StrictResult ensureAscii lastByte (encode text ++ pending ++ s)
      (d.loop .strict ensureAscii (encode text ++ pending).length s >>=
        finish .strict ensureAscii lastByte) := by
  induction s generalizing d text pending with
  | nil =>
    rw [loop, List.append_nil]
    show StrictResult ensureAscii lastByte _ (d.finish .strict ensureAscii lastByte)
    by_cases hempty : pending = []
    · subst hempty
      rw [finish_accept h lastByte, List.append_nil]
      exact .text rfl
    · rw [finish_strict h hempty lastByte]
      exact .incomplete rfl h.reads.begun.longest_nil hempty
  | cons byte s ih =>
    have hread : encode text ++ pending ++ byte :: s = encode text ++ (pending ++ [byte]) ++ s := by
      rw [List.append_assoc, List.append_assoc, List.append_assoc]
      rfl
    have hlength : (encode text ++ pending).length + 1 =
        (encode text ++ (pending ++ [byte])).length := by
      rw [← List.append_assoc, List.length_append, List.length_append, List.length_append,
        List.length_singleton]
    have hstepped := loop_step .strict h (encode text ++ pending).length byte s
    generalize d.loop .strict ensureAscii _ (byte :: s) = r at hstepped
    cases hstepped with
    | @char c _ hc h' =>
      have hchar : encode text ++ (pending ++ [byte]) = encode (text ++ [c]) ++ [] := by
        rw [List.append_nil, Utf8.encode_concat, hc]
      rw [hread, hlength, hchar]
      refine ih _ ?_
      rw [List.flatMap_append, List.flatMap_cons, List.flatMap_nil, List.append_nil]
      exact h'
    | more h' =>
      rw [hread, hlength]
      exact ih text h'
    | throw _ hpart => exact .invalid rfl hpart
    | again hhandler => exact absurd rfl hhandler
    | skip hhandler => exact absurd rfl hhandler

end Dumper

/-- UTF-8 is written as its characters are. -/
theorem dumpEscapedBytes_encode (handler : ErrorHandler) (ensureAscii : Bool) (s : String) :
    dumpEscapedBytes handler ensureAscii (encode s.toList) =
      .ok (encode (dumpEscaped ensureAscii s)) := by
  by_cases hstrict : handler = .strict
  · subst hstrict
    have hresult : Dumper.StrictResult ensureAscii ((encode s.toList).getLast?.getD 0)
        (encode s.toList) (dumpEscapedBytes .strict ensureAscii (encode s.toList)) :=
      Dumper.loop_strict [] Dumper.inv_start _ _
    generalize dumpEscapedBytes .strict ensureAscii (encode s.toList) = result at hresult
    cases hresult with
    | text hs =>
      rw [Utf8.encode_inj hs.symm]
      rfl
    | invalid hs hpart =>
      rw [List.append_assoc] at hs
      exact absurd hs.symm (hpart.ne_encode (List.append_ne_nil_of_right_ne_nil _ nofun) _ _)
    | @incomplete _ pending hs hpart hne =>
      rw [← List.append_nil pending] at hs
      exact absurd hs.symm (hpart.ne_encode (List.append_ne_nil_of_left_ne_nil hne _) _ _)
  · obtain ⟨pieces, hpieces, hwritten⟩ :=
      Dumper.loop_replaces hstrict (Dumper.inv_start : Dumper.Inv ensureAscii _ _ _) 0
        (encode s.toList) ((encode s.toList).getLast?.getD 0)
    refine hwritten.trans ?_
    rw [hpieces.unique (Utf8.pieces_encode s.toList), List.nil_append, List.flatMap_map]
    rfl

/-- The strict handler: a string is written if it is UTF-8, and an error names the first byte that
no text goes on with, or the last one of a text that is cut off. The buffer never overflows. -/
theorem dumpEscapedBytes_strict (ensureAscii : Bool) (s : List UInt8) :
    match dumpEscapedBytes .strict ensureAscii s with
    | .ok written => ∃ text, s = encode text ∧
        written = encode (text.flatMap (escapeChar ensureAscii))
    | .error (.invalidByte byte i) => s[i]? = some byte ∧
        (∃ text rest, encode text = s.take i ++ rest) ∧
          ∀ text rest, encode text ≠ s.take (i + 1) ++ rest
    | .error (.incomplete lastByte) => s.getLast? = some lastByte ∧
        (∃ text rest, encode text = s ++ rest) ∧ ∀ text, encode text ≠ s
    | .error .overflow => False := by
  have hresult : Dumper.StrictResult ensureAscii (s.getLast?.getD 0) s
      (dumpEscapedBytes .strict ensureAscii s) :=
    Dumper.loop_strict [] Dumper.inv_start s _
  generalize dumpEscapedBytes .strict ensureAscii s = result at hresult
  cases hresult with
  | text hs => exact ⟨_, hs, rfl⟩
  | @invalid text pending rest byte hs hpart =>
    subst hs
    have htake : (encode text ++ pending ++ byte :: rest).take
        ((encode text ++ pending).length + 1) = encode text ++ pending ++ [byte] :=
      List.take_length_add_append 1
    refine ⟨?_, ?_, fun text' rest' heq => ?_⟩
    · rw [List.getElem?_append_right le_rfl, Nat.sub_self]
      rfl
    · obtain ⟨c, bs, hc, -⟩ := hpart.begun
      refine ⟨text ++ [c], bs, ?_⟩
      rw [List.take_left, Utf8.encode_concat, hc, List.append_assoc]
    · rw [htake, List.append_assoc, List.append_assoc, List.singleton_append] at heq
      have hpart' := hpart.begun.longest_cons (hpart.stops byte rest rfl) rest'
      exact hpart'.ne_encode (List.append_ne_nil_of_right_ne_nil _ nofun) text text' heq.symm
  | @incomplete text pending hs hpart hne =>
    subst hs
    refine ⟨?_, ?_, fun text' heq => ?_⟩
    · rw [List.getLast?_eq_some_getLast (List.append_ne_nil_of_right_ne_nil _ hne)]
      rfl
    · obtain ⟨c, bs, hc, -⟩ := hpart.begun
      refine ⟨text ++ [c], bs, ?_⟩
      rw [Utf8.encode_concat, hc, List.append_assoc]
    · rw [← List.append_nil pending] at heq
      exact hpart.ne_encode (List.append_ne_nil_of_left_ne_nil hne _) text text' heq.symm

/-- The handlers that go on: the characters are written, and a replacement character or nothing for
each part that is in no encoding. What is written is UTF-8. -/
theorem dumpEscapedBytes_replaced (handler : ErrorHandler) (ensureAscii : Bool) (s : List UInt8)
    (hstrict : handler ≠ .strict) : ∃ pieces, (∀ other, Utf8.Pieces s other ↔ other = pieces) ∧
      dumpEscapedBytes handler ensureAscii s =
        .ok (encode (pieces.flatMap (pieceText handler ensureAscii))) := by
  obtain ⟨pieces, hpieces, hwritten⟩ := Dumper.loop_replaces hstrict
    (Dumper.inv_start : Dumper.Inv ensureAscii _ _ _) 0 s (s.getLast?.getD 0)
  refine ⟨pieces, fun other => ⟨fun hother => hother.unique hpieces, ?_⟩, hwritten⟩
  rintro rfl
  exact hpieces

/-- A byte that no character starts with, and a character that is cut off. -/
theorem dumpEscapedBytes_replaced_cut : ErrorHandler.replace ≠ .strict ∧
    ∃ pieces, (∀ other, Utf8.Pieces [0x61, 0xFF, 0xE2, 0x82] other ↔ other = pieces) ∧
      dumpEscapedBytes .replace true [0x61, 0xFF, 0xE2, 0x82] =
        .ok (encode (pieces.flatMap (pieceText .replace true))) :=
  ⟨by decide, dumpEscapedBytes_replaced .replace true [0x61, 0xFF, 0xE2, 0x82] (by decide)⟩

/-! ## 4. The round trip -/

/-- The characters that are read back. -/
def repaired (handler : ErrorHandler) : Option Char → List Char
  | some c => [c]
  | none => if handler = .replace then ['\uFFFD'] else []

/-- The replacement character is written as it would be in a string. -/
theorem pieceText_eq (handler : ErrorHandler) (ensureAscii : Bool) (piece : Option Char) :
    pieceText handler ensureAscii piece =
      (repaired handler piece).flatMap (escapeChar ensureAscii) := by
  cases piece with
  | some c => exact (List.flatMap_singleton _ _).symm
  | none =>
    by_cases hreplace : handler = .replace
    · subst hreplace
      cases ensureAscii <;> decide
    · show (if handler = .replace then _ else []) =
        (if handler = .replace then _ else []).flatMap (escapeChar ensureAscii)
      rw [if_neg hreplace, if_neg hreplace]
      rfl

/-- What is written for a string is read back as its characters and replacement characters, by the
lexer and whatever comes behind it. -/
theorem scanStringBytes_dumpEscapedBytes {handler : ErrorHandler} {ensureAscii : Bool}
    {s written : List UInt8} (h : dumpEscapedBytes handler ensureAscii s = .ok written)
    (tail : List UInt8) : ∃ pieces, Utf8.Pieces s pieces ∧
      (handler = .strict → encode (pieces.flatMap (repaired handler)) = s) ∧
      scanStringBytes [] (written ++ 0x22 :: tail) =
        some (encode (pieces.flatMap (repaired handler)), tail) := by
  have hread : ∀ pieces : List (Option Char),
      scanStringBytes [] (encode (pieces.flatMap (pieceText handler ensureAscii)) ++ 0x22 :: tail) =
        some (encode (pieces.flatMap (repaired handler)), tail) := by
    intro pieces
    have hchars : scanString [] ((pieces.flatMap (repaired handler)).flatMap
        (escapeChar ensureAscii) ++ ['\"']) = some (pieces.flatMap (repaired handler), []) :=
      scanString_dumpEscaped ensureAscii _ []
    have hbytes := scanStringBytes_bytes hchars tail
    rw [Utf8.encode_append, List.append_assoc, List.flatMap_assoc] at hbytes
    simp only [← pieceText_eq] at hbytes
    exact hbytes
  by_cases hstrict : handler = .strict
  · subst hstrict
    have hresult : Dumper.StrictResult ensureAscii (s.getLast?.getD 0) s
        (dumpEscapedBytes .strict ensureAscii s) :=
      Dumper.loop_strict [] Dumper.inv_start s _
    rw [h] at hresult
    generalize hwritten : Except.ok written = result at hresult
    cases hresult with
    | @text text hs =>
      cases hwritten
      refine ⟨text.map some, hs ▸ Utf8.pieces_encode text, fun _ => ?_, ?_⟩
      · rw [List.flatMap_map, hs]
        exact congrArg encode (List.flatMap_singleton' text)
      · have hpieces := hread (text.map some)
        rw [List.flatMap_map] at hpieces
        exact hpieces
    | invalid => cases hwritten
    | incomplete => cases hwritten
  · obtain ⟨pieces, hpieces, hwritten⟩ := Dumper.loop_replaces hstrict
      (Dumper.inv_start : Dumper.Inv ensureAscii _ _ _) 0 s (s.getLast?.getD 0)
    cases h.symm.trans hwritten
    exact ⟨pieces, hpieces, fun heq => absurd heq hstrict, hread pieces⟩

theorem scanStringBytes_dumpEscapedBytes_quote :
    dumpEscapedBytes .strict true (encode ['\"', '\uFFFD']) =
        .ok (encode (dumpEscaped true (String.ofList ['\"', '\uFFFD']))) ∧
      ∃ pieces, Utf8.Pieces (encode ['\"', '\uFFFD']) pieces ∧
        (ErrorHandler.strict = .strict →
          encode (pieces.flatMap (repaired .strict)) = encode ['\"', '\uFFFD']) ∧
        scanStringBytes []
            (encode (dumpEscaped true (String.ofList ['\"', '\uFFFD'])) ++ 0x22 :: [0x2C]) =
          some (encode (pieces.flatMap (repaired .strict)), [0x2C]) :=
  have hwritten := dumpEscapedBytes_encode .strict true (String.ofList ['\"', '\uFFFD'])
  ⟨hwritten, scanStringBytes_dumpEscapedBytes hwritten [0x2C]⟩

end JsonText

end MicroRiscv
