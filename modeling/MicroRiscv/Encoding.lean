import MicroRiscv.Decoder
import MicroRiscv.Pipeline

/-!
# Immediates: encoding and decoding

The instruction decode stage opens with the RISC-V format tables: which bits of a word
hold which bits of the immediate. `Format.encode` writes a word by these tables, `aluImm`
is the hardware that reads it back. `Fits` are the immediates a format can represent, as
a condition on bits; `fits_iff` states it on the signed values.

Results:
1. `fits_iff`: the representable immediates are the signed ranges of the formats.
2. `decode_encode`, `encode_decode`: the immediate generator and the encoder are inverse.
3. `immSel_of_accepts`: the decoder selects the format of the opcode.
4. `immediate_roundTrip`: the round trip through either core.
-/

namespace MicroRiscv

/-! ## Definitions -/

/-- The instruction formats with an immediate. -/
inductive Format
  | i | s | b | u | j
deriving DecidableEq, Repr

/-- The fields of an instruction word besides the immediate. -/
structure Fields where
  rd : RegIdx := 0#5
  rs1 : RegIdx := 0#5
  rs2 : RegIdx := 0#5
  funct3 : BitVec 3 := 0#3
  opcode : BitVec 7
deriving DecidableEq, Repr

/-- The fields of a word. -/
def fields (w : Word) : Fields where
  rd := rd w
  rs1 := rs1Field w
  rs2 := rs2Field w
  funct3 := funct3 w
  opcode := opcode w

/-- The word that the format tables give for an immediate and the other fields. -/
def Format.encode (fmt : Format) (imm : Word) (f : Fields) : Word :=
  match fmt with
  | .i => imm.extractLsb' 0 12 ++ f.rs1 ++ f.funct3 ++ f.rd ++ f.opcode
  | .s => imm.extractLsb' 5 7 ++ f.rs2 ++ f.rs1 ++ f.funct3 ++ imm.extractLsb' 0 5 ++ f.opcode
  | .b => imm.extractLsb' 12 1 ++ imm.extractLsb' 5 6 ++ f.rs2 ++ f.rs1 ++ f.funct3 ++
      imm.extractLsb' 1 4 ++ imm.extractLsb' 11 1 ++ f.opcode
  | .u => imm.extractLsb' 12 20 ++ f.rd ++ f.opcode
  | .j => imm.extractLsb' 20 1 ++ imm.extractLsb' 1 10 ++ imm.extractLsb' 11 1 ++
      imm.extractLsb' 12 8 ++ f.rd ++ f.opcode

/-- The format of the words with a given opcode; `OPC_ALSU` words have no immediate. -/
def formatOf (opc : BitVec 7) : Option Format :=
  if opc = opcLoad ∨ opc = opcImm ∨ opc = opcJalr ∨ opc = opcSystem then some .i
  else if opc = opcStore then some .s
  else if opc = opcBranch then some .b
  else if opc = opcLui then some .u
  else if opc = opcJal then some .j
  else none

/-- The immediates of a format: a byte offset or an operand, for the U format the number
made of its 20 bits. -/
def Format.InRange (fmt : Format) (x : Int) : Prop :=
  match fmt with
  | .i | .s => -2048 ≤ x ∧ x ≤ 2047
  | .b => -4096 ≤ x ∧ x ≤ 4094 ∧ 2 ∣ x
  | .u => 0 ≤ x ∧ x < 2 ^ 20
  | .j => -2 ^ 20 ≤ x ∧ x ≤ 2 ^ 20 - 2 ∧ 2 ∣ x

instance (fmt : Format) (x : Int) : Decidable (fmt.InRange x) := by
  cases fmt <;> exact inferInstanceAs (Decidable (_ ∧ _))

/-- The sign-extended immediate; a U-immediate is followed by twelve zeros. -/
def Format.immediate (fmt : Format) (x : Int) : Word :=
  match fmt with
  | .u => BitVec.ofInt 32 (x * 4096)
  | _ => BitVec.ofInt 32 x

/-- The mux input of a format. -/
def Format.immSel : Format → ImmT
  | .i => .immI
  | .s => .immS
  | .b => .immSb
  | .u => .immU
  | .j => .immUj

/-- The words a format can represent as immediates, bit by bit. -/
def Format.Fits (fmt : Format) (imm : Word) : Prop :=
  match fmt with
  | .i | .s => imm = (imm.setWidth 12).signExtend 32
  | .b => imm = (imm.setWidth 13).signExtend 32 ∧ imm.getLsbD 0 = false
  | .u => imm.extractLsb' 0 12 = 0#12
  | .j => imm = (imm.setWidth 21).signExtend 32 ∧ imm.getLsbD 0 = false

/-- A decoder that sees the word `w`, accepts it and delivers `imm` undoes the encoding:
whatever the word was encoded from is decoded, and encoding what was decoded, which is
an immediate of the format, gives back the word. -/
def RoundTrips (w : Word) (imm : Word) : Prop :=
  ∀ fmt : Format, formatOf (opcode w) = some fmt →
    (∀ (x : Int) (f : Fields), fmt.InRange x → w = fmt.encode (fmt.immediate x) f →
      imm = fmt.immediate x) ∧
    fmt.encode imm (fields w) = w ∧ ∃ x : Int, fmt.InRange x ∧ imm = fmt.immediate x

/-! ## 1. Representable immediates -/

namespace EncodingLemmas

theorem two_dvd_toInt_iff (a : Word) : (2 : Int) ∣ a.toInt ↔ a.getLsbD 0 = false := by
  rw [BitVec.getLsbD, Nat.testBit_zero, decide_eq_false_iff_not, BitVec.toInt_eq_toNat_cond]
  split <;> omega

theorem toInt_ofInt {x : Int} (hlo : -2 ^ 31 ≤ x) (hhi : x < 2 ^ 31) :
    (BitVec.ofInt 32 x).toInt = x :=
  BitVec.toInt_ofInt_eq_self (by decide) (by simpa using hlo) (by simpa using hhi)

/-- An immediate given by a signed value that fits into the word. -/
theorem exists_ofInt_iff {P : Int → Prop} (hP : ∀ x, P x → -2 ^ 31 ≤ x ∧ x < 2 ^ 31) (a : Word) :
    (∃ x, P x ∧ a = BitVec.ofInt 32 x) ↔ P a.toInt := by
  constructor
  · rintro ⟨x, hx, rfl⟩
    rwa [toInt_ofInt (hP x hx).1 (hP x hx).2]
  · intro h
    exact ⟨a.toInt, h, BitVec.ofInt_toInt.symm⟩

theorem exists_ofInt_mul_iff (a : Word) :
    (∃ x : Int, (0 ≤ x ∧ x < 2 ^ 20) ∧ a = BitVec.ofInt 32 (x * 4096)) ↔
      a.extractLsb' 0 12 = 0#12 := by
  have hlow : a.extractLsb' 0 12 = 0#12 ↔ a.toNat % 4096 = 0 := by
    rw [← BitVec.toNat_inj, BitVec.extractLsb'_toNat]
    simp
  rw [hlow]
  constructor
  · rintro ⟨x, ⟨h0, h1⟩, rfl⟩
    rw [BitVec.toNat_ofInt]
    omega
  · intro h
    refine ⟨(a.toNat / 4096 : Nat), ⟨by omega, by have := a.isLt; omega⟩, ?_⟩
    apply BitVec.eq_of_toNat_eq
    rw [BitVec.toNat_ofInt]
    have := a.isLt
    omega

end EncodingLemmas

open EncodingLemmas DecoderLemmas

/-- The bit condition is the range of the format. -/
theorem fits_iff {fmt : Format} {imm : Word} :
    fmt.Fits imm ↔ ∃ x : Int, fmt.InRange x ∧ imm = fmt.immediate x := by
  cases fmt with
  | i | s =>
    simp only [Format.Fits, Format.InRange, Format.immediate]
    rw [Bits.eq_signExtend_setWidth_iff (by decide) (by decide),
      exists_ofInt_iff (fun x hx => by omega)]
    omega
  | b | j =>
    simp only [Format.Fits, Format.InRange, Format.immediate]
    rw [Bits.eq_signExtend_setWidth_iff (by decide) (by decide), ← two_dvd_toInt_iff,
      exists_ofInt_iff (fun x hx => by omega)]
    omega
  | u => exact (exists_ofInt_mul_iff imm).symm

/-! ## 2. The immediate generator undoes the encoder -/

/-- Decoding gives back every immediate the format can represent. -/
theorem decode_encode {fmt : Format} {imm : Word} (f : Fields) (h : fmt.Fits imm) :
    aluImm fmt.immSel (fmt.encode imm f) = imm := by
  cases fmt with
  | i | s =>
    simp only [Format.Fits] at h
    simp only [Format.immSel, aluImm, iImm, sImm, Format.encode]
    rw [h]
    apply BitVec.eq_of_getLsbD_eq
    intro n hn
    simp only [BitVec.getLsbD_append, BitVec.getLsbD_replicate, BitVec.getLsbD_extractLsb',
      BitVec.getLsbD_signExtend, BitVec.getLsbD_setWidth, BitVec.msb_eq_getLsbD_last]
    grind
  | b | j =>
    obtain ⟨hext, hzero⟩ := h
    simp only [Format.immSel, aluImm, sbImm, ujImm, Format.encode]
    rw [hext] at hzero ⊢
    apply BitVec.eq_of_getLsbD_eq
    intro n hn
    simp only [BitVec.getLsbD_append, BitVec.getLsbD_replicate, BitVec.getLsbD_extractLsb',
      BitVec.getLsbD_signExtend, BitVec.getLsbD_setWidth, BitVec.msb_eq_getLsbD_last] at hzero ⊢
    grind
  | u =>
    simp only [Format.Fits] at h
    have hlow (n : Nat) (hn : n < 12) : imm.getLsbD n = false := by
      have := congrArg (BitVec.getLsbD · n) h
      simpa [hn] using this
    simp only [Format.immSel, aluImm, uImm, Format.encode]
    apply BitVec.eq_of_getLsbD_eq
    intro n hn
    simp only [BitVec.getLsbD_append, BitVec.getLsbD_extractLsb']
    grind

/-- Encoding a decoded immediate with the fields of the word gives back the word. -/
theorem encode_decode (fmt : Format) (w : Word) :
    fmt.encode (aluImm fmt.immSel w) (fields w) = w := by
  cases fmt <;>
  · simp only [Format.immSel, aluImm, iImm, sImm, sbImm, uImm, ujImm, Format.encode, fields, rd,
      rs1Field, rs2Field, funct3, opcode]
    apply BitVec.eq_of_getLsbD_eq
    intro n hn
    simp only [BitVec.getLsbD_append, BitVec.getLsbD_replicate, BitVec.getLsbD_extractLsb']
    grind

/-- A decoded immediate is one of its format. -/
theorem fits_decode (fmt : Format) (w : Word) : fmt.Fits (aluImm fmt.immSel w) := by
  cases fmt with
  | i | s =>
    simp only [Format.Fits, Format.immSel, aluImm, iImm, sImm]
    apply BitVec.eq_of_getLsbD_eq
    intro n hn
    simp only [BitVec.getLsbD_append, BitVec.getLsbD_replicate, BitVec.getLsbD_extractLsb',
      BitVec.getLsbD_signExtend, BitVec.getLsbD_setWidth, BitVec.msb_eq_getLsbD_last]
    grind
  | b | j =>
    simp only [Format.Fits, Format.immSel, aluImm, sbImm, ujImm]
    constructor
    · apply BitVec.eq_of_getLsbD_eq
      intro n hn
      simp only [BitVec.getLsbD_append, BitVec.getLsbD_replicate, BitVec.getLsbD_extractLsb',
        BitVec.getLsbD_signExtend, BitVec.getLsbD_setWidth, BitVec.msb_eq_getLsbD_last]
      grind
    · rw [BitVec.getLsbD_append]
      rfl
  | u => exact BitVec.extractLsb'_append_eq_right

/-! ## 3. The format the decoder selects -/

/-- The decoder drives the mux with the format of the opcode of a word it accepts. -/
theorem immSel_of_accepts {divu : Bool} {haltRd : RegIdx} {m : Mnemonic} {w : Word}
    {fmt : Format} (hm : m.Accepts divu haltRd w) (hf : formatOf (opcode w) = some fmt) :
    (decoder divu haltRd w).immSel = fmt.immSel := by
  have hopc : opcode w = opcodeOf m := by
    cases m with
    | jalr | lw | sw => exact hm
    | ebreak => exact hm.1
    | divu => exact isEncoding_opcode hm.2
    | _ => exact isEncoding_opcode hm
  rw [decoder_of_accepts hm]
  rw [hopc] at hf
  cases m <;> cases hf <;> rfl

/-- The immediate the decoder and the mux deliver for a word that is not illegal. -/
theorem roundTrips_of_accepted {divu : Bool} {haltRd : RegIdx} {w : Word}
    (h : (decoder divu haltRd w).illegalInsn = false) :
    RoundTrips w (aluImm (decoder divu haltRd w).immSel w) := by
  intro fmt hf
  obtain ⟨m, hm⟩ := decoder_illegalInsn_iff.mp h
  rw [immSel_of_accepts hm hf]
  refine ⟨fun x f hx hw => ?_, encode_decode fmt w, fits_iff.mp (fits_decode fmt w)⟩
  rw [hw]
  exact decode_encode f (fits_iff.mpr ⟨x, hx, rfl⟩)

/-! ## 4. Both cores -/

/-- In the single-cycle core, and in the decode stage of the pipelined core while no
transfer is taken, the immediate of an accepted word survives encoding and decoding in
either order. -/
theorem immediate_roundTrip (env : Env) :
    (∀ s : SingleCycle, (s.signals env).ctrl.illegalInsn = false →
      RoundTrips (s.signals env).instruction
        (aluImm (s.signals env).ctrl.immSel (s.signals env).instruction)) ∧
    ∀ s : Pipeline, s.pcSrc = false →
      (Pipeline.decode s.pcSrc s.idEx.rdP s.ifId.instructionIfP).illegalInsn = false →
      RoundTrips s.ifId.instructionIfP (s.step env).idEx.aluImmP := by
  constructor
  · intro s hs
    exact roundTrips_of_accepted hs
  · intro s hsrc hs
    have hdec : Pipeline.decode s.pcSrc s.idEx.rdP s.ifId.instructionIfP =
        decoder false s.idEx.rdP s.ifId.instructionIfP := by
      rw [hsrc]
      rfl
    rw [hdec] at hs
    show RoundTrips _ (aluImm (Pipeline.decode _ _ _).immSel _)
    rw [hdec]
    exact roundTrips_of_accepted hs

/-- BNE x1, x2, -4 in the fetched word of the one core and in ID of the other. -/
theorem immediate_roundTrip_backward_branch :
    let w := 0xFE209EE3#32
    let s := SingleCycle.reset (Platform.ofProgram [w])
    let p := { Pipeline.ofProgram [] with ifId := ⟨0#32, w⟩ }
    aluImm (s.signals Env.zero).ctrl.immSel (s.signals Env.zero).instruction = -4#32 ∧
    (p.step Env.zero).idEx.aluImmP = -4#32 ∧
    Format.b.encode (p.step Env.zero).idEx.aluImmP (fields w) = w := by
  intro w s p
  have hw : w = Format.b.encode (Format.b.immediate (-4)) ⟨0#5, 1#5, 2#5, f3Bne, opcBranch⟩ := by
    decide
  have hi : (s.signals Env.zero).instruction = w := by decide
  have hs := (immediate_roundTrip Env.zero).1 s (by decide) .b (by decide)
  have hp := (immediate_roundTrip Env.zero).2 p (by decide) (by decide) .b (by decide)
  exact ⟨hs.1 (-4) _ (by decide) (hi.trans hw), hp.1 (-4) _ (by decide) hw, hp.2.1⟩

end MicroRiscv
