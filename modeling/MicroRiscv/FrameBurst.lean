import MicroRiscv.FrameChecksum

/-!
# Error bursts in a frame

Two frames of one length are compared bit by bit, in the order of transmission. Equal
bits never cancel a difference in the register, and a difference that fits into the
register shows there (`Crc.feedBits_ne_of_burst`); the polynomial of the source has the
top bit this needs.

Results:
1. `frameBytes_eq_of_frameBits_eq`: the bits determine the bytes.
2. `frameChecksum_detects_burst`: a burst of up to 32 bits changes the checksum.
-/

namespace MicroRiscv

namespace Frame

open Crc

/-- The bits of a frame in the order of transmission. -/
def frameBits (destAddress srcAddress : MACAddress) (type : EtherType) (data : List Byte) :
    List Bool :=
  (frameBytes destAddress srcAddress type data).flatMap bitsOf

/-! ## 1. Bits and bytes -/

theorem length_bitsOf (v : Byte) : (bitsOf v).length = 8 := by
  rw [bitsOf, List.length_map, List.length_range]

theorem length_flatMap_bitsOf (bytes : List Byte) :
    (bytes.flatMap bitsOf).length = 8 * bytes.length := by
  induction bytes with
  | nil => rfl
  | cons v bytes ih =>
    rw [List.flatMap_cons, List.length_append, length_bitsOf, ih, List.length_cons]
    omega

theorem flatMap_bitsOf_injective {xs ys : List Byte}
    (h : xs.flatMap bitsOf = ys.flatMap bitsOf) : xs = ys := by
  induction xs generalizing ys with
  | nil =>
    have hlen := congrArg List.length h
    rw [length_flatMap_bitsOf, length_flatMap_bitsOf, List.length_nil] at hlen
    exact (List.length_eq_zero_iff.mp (by omega)).symm
  | cons v xs ih =>
    cases ys with
    | nil =>
      have hlen := congrArg List.length h
      rw [length_flatMap_bitsOf, length_flatMap_bitsOf] at hlen
      cases hlen
    | cons u ys =>
      rw [List.flatMap_cons, List.flatMap_cons] at h
      obtain ⟨hv, hxs⟩ := List.append_inj h (by rw [length_bitsOf, length_bitsOf])
      rw [bitsOf_injective hv, ih hxs]

theorem length_frameBytes (destAddress srcAddress : MACAddress) (type : EtherType)
    (data : List Byte) :
    (frameBytes destAddress srcAddress type data).length = 14 + data.length := by
  simp only [frameBytes, List.length_append, Vector.length_toList, List.length_cons,
    List.length_nil]

/-! ## 2. The burst -/

/-- The lowest coefficient of CRC-32, the top bit of the reflected polynomial. -/
theorem crc32Poly_top : crc32Poly.getLsbD (32 - 1) = true := by decide

/-- Frames with equally long data that differ, but only inside a window of 32 bits, have
different checksums. -/
theorem frameChecksum_detects_burst {dest dest' src src' : MACAddress} {type type' : EtherType}
    {data data' : List Byte} (hlen : data.length = data'.length)
    (hne : frameBytes dest src type data ≠ frameBytes dest' src' type' data') {p : Nat}
    (hwin : ∀ i, ¬ (p ≤ i ∧ i < p + 32) →
      (frameBits dest src type data)[i]? = (frameBits dest' src' type' data')[i]?) :
    calculateFrameChecksum dest src type data ≠
      calculateFrameChecksum dest' src' type' data' := by
  have hbits : frameBits dest src type data ≠ frameBits dest' src' type' data' :=
    fun h => hne (flatMap_bitsOf_injective h)
  have hbitlen : (frameBits dest src type data).length =
      (frameBits dest' src' type' data').length := by
    rw [frameBits, frameBits, length_flatMap_bitsOf, length_flatMap_bitsOf, length_frameBytes,
      length_frameBytes, hlen]
  rw [calculateFrameChecksum_eq_steps, calculateFrameChecksum_eq_steps, crc32steps_eq,
    crc32steps_eq]
  intro h
  exact feedBits_ne_of_burst crc32Poly_top _ hbitlen hbits hwin ((BitVec.xor_left_inj _).mp h)

/-- A burst over the last bit of the EtherType and the first data byte. -/
theorem frameChecksum_detects_burst_across_fields :
    let mac : MACAddress := Vector.replicate 6 0xff#8
    calculateFrameChecksum mac mac 0x0800#16 [0x12#8] ≠
      calculateFrameChecksum mac mac 0x0880#16 [0x13#8] := by
  intro mac
  refine frameChecksum_detects_burst (p := 104) rfl (by decide) fun i hi => ?_
  have hpre : ∀ (t : EtherType) (b : Byte), t.extractLsb' 8 8 = 8#8 →
      frameBits mac mac t [b] =
        ((List.replicate 12 0xff#8 ++ [8#8]).flatMap bitsOf) ++
          ([t.extractLsb' 0 8, b].flatMap bitsOf) := by
    intro t b ht
    rw [← List.flatMap_append, frameBits, frameBytes, ht]
    rfl
  have hlen : ((List.replicate 12 0xff#8 ++ [8#8]).flatMap bitsOf).length = 104 :=
    length_flatMap_bitsOf _
  rw [hpre _ _ (by decide), hpre _ _ (by decide)]
  rcases Nat.lt_or_ge i 104 with hlt | hge
  · rw [List.getElem?_append_left (hlen ▸ hlt), List.getElem?_append_left (hlen ▸ hlt)]
  · have hout (bs : List Byte) (hbs : bs.length = 2) :
        ((List.replicate 12 0xff#8 ++ [8#8]).flatMap bitsOf ++ bs.flatMap bitsOf)[i]? = none := by
      rw [List.getElem?_eq_none_iff, List.length_append, hlen, length_flatMap_bitsOf, hbs]
      omega
    rw [hout _ rfl, hout _ rfl]

end Frame

end MicroRiscv
