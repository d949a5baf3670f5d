import MicroRiscv.Isa
import MicroRiscv.SingleCycle
import MicroRiscv.Lib.Bits

/-!
# What the decoder accepts

`Mnemonic.ctrl` is the row of the decoder table for an instruction and
`Mnemonic.Accepts` the fields the decoder compares before it takes that row.
`decoder_spec` says once what the decoder can answer: a row of an accepting
mnemonic, or the illegal instruction. Every later fact about a decoded word is a case
analysis over it.

Results:
1. `decoder_spec`, `decoder_of_accepts`: the decoder is the table.
2. `decoder_cpuHalt_iff`: when a word halts, and that the rs1 field plays no role.
3. `decode_accepts_exactly_iff`: for which words the single-cycle decoder accepts
   exactly the instruction set.
-/

namespace MicroRiscv

/-! ## 1. The table -/

/-- The control signals of an accepted instruction. -/
def Mnemonic.ctrl : Mnemonic → Ctrl
  | .lui => { immSel := .immU, aluSrc := true, aluRegWrite := true }
  | .jal => { immSel := .immUj, aluIsJump := true, aluRegWrite := true }
  | .jalr => { rs1Valid := true, aluIsJump := true, aluRegWrite := true, aluPcRegSrc := true }
  | .beq => { aluOperator := .eq, immSel := .immSb, aluIsBranch := true, rs1Valid := true,
              rs2Valid := true }
  | .bne => { aluOperator := .ne, immSel := .immSb, aluIsBranch := true, rs1Valid := true,
              rs2Valid := true }
  | .blt => { aluOperator := .lts, immSel := .immSb, aluIsBranch := true, rs1Valid := true,
              rs2Valid := true }
  | .bge => { aluOperator := .ges, immSel := .immSb, aluIsBranch := true, rs1Valid := true,
              rs2Valid := true }
  | .lw => { rs1Valid := true, aluRegWrite := true, aluSrc := true, aluMemRead := true,
             memToReg := true }
  | .sw => { immSel := .immS, rs1Valid := true, rs2Valid := true, aluSrc := true,
             aluMemWrite := true }
  | .addi => { rs1Valid := true, aluSrc := true, aluRegWrite := true }
  | .add => { aluRegWrite := true, rs1Valid := true, rs2Valid := true }
  | .sub => { aluOperator := .sub, aluRegWrite := true, rs1Valid := true, rs2Valid := true }
  | .xor => { aluOperator := .xor, aluRegWrite := true, rs1Valid := true, rs2Valid := true }
  | .or => { aluOperator := .or, aluRegWrite := true, rs1Valid := true, rs2Valid := true }
  | .and => { aluOperator := .and, aluRegWrite := true, rs1Valid := true, rs2Valid := true }
  | .sll => { aluOperator := .sll, aluRegWrite := true, rs1Valid := true, rs2Valid := true }
  | .srl => { aluOperator := .srl, aluRegWrite := true, rs1Valid := true, rs2Valid := true }
  | .sra => { aluOperator := .sra, aluRegWrite := true, rs1Valid := true, rs2Valid := true }
  | .divu => { aluRegWrite := true, rs1Valid := true, rs2Valid := true, startI := true }
  | .ebreak => { cpuHalt := true }

/-- The fields the decoder compares. Against `Mnemonic.IsEncoding`: JALR, loads and
stores are taken by opcode alone, DIVU only with the division, and EBREAK leaves out
the rs1 field and compares `haltRd` in place of the word's own rd. -/
def Mnemonic.Accepts (divu : Bool) (haltRd : RegIdx) : Mnemonic → Word → Prop
  | .jalr, w => opcode w = opcJalr
  | .lw, w => opcode w = opcLoad
  | .sw, w => opcode w = opcStore
  | .divu, w => divu = true ∧ Mnemonic.divu.IsEncoding w
  | .ebreak, w => opcode w = opcSystem ∧ funct12 w = 1#12 ∧ funct3 w = 0#3 ∧ haltRd = 0#5
  | m, w => m.IsEncoding w

namespace DecoderLemmas

/-- The comparison of `OPC_SYSTEM`, field by field. -/
theorem system_compare_iff (haltRd : RegIdx) (w : Word) :
    funct12 w ++ rs1 {} w ++ funct3 w ++ haltRd = 0b0000000000010000000000000#25 ↔
      funct12 w = 1#12 ∧ funct3 w = 0#3 ∧ haltRd = 0#5 := by
  have hlit : (0b0000000000010000000000000#25 : BitVec 25) = 1#12 ++ 0#5 ++ 0#3 ++ 0#5 := by
    decide
  have hrs1 : rs1 {} w = 0#5 := rfl
  rw [hlit, hrs1, Bits.append_inj, Bits.append_inj, Bits.append_inj]
  simp [and_assoc]

/-- A word is the concatenation of its fields. -/
theorem fields_append (w : Word) :
    funct12 w ++ rs1Field w ++ funct3 w ++ rd w ++ opcode w = w := by
  unfold funct12 rs1Field funct3 rd opcode
  rw [BitVec.extractLsb'_append_extractLsb'_eq_extractLsb' (show 20 = 15 + 5 from rfl),
    BitVec.extractLsb'_append_extractLsb'_eq_extractLsb' (show 15 = 12 + 3 from rfl),
    BitVec.extractLsb'_append_extractLsb'_eq_extractLsb' (show 12 = 7 + 5 from rfl),
    BitVec.extractLsb'_append_extractLsb'_eq_extractLsb' (show 7 = 0 + 7 from rfl)]
  exact BitVec.extractLsb'_eq_self

end DecoderLemmas

open DecoderLemmas

/-- The EBREAK word, field by field. -/
theorem eq_ebreakWord_iff (w : Word) :
    w = ebreakWord ↔ funct12 w = 1#12 ∧ rs1Field w = 0#5 ∧ funct3 w = 0#3 ∧ rd w = 0#5 ∧
      opcode w = opcSystem := by
  have hlit : ebreakWord = 1#12 ++ 0#5 ++ 0#3 ++ 0#5 ++ opcSystem := by decide
  conv => lhs; rw [← fields_append w, hlit]
  rw [Bits.append_inj, Bits.append_inj, Bits.append_inj, Bits.append_inj]
  simp [and_assoc]

/-- An accepted word is decoded to the row of its mnemonic. -/
theorem decoder_of_accepts {divu : Bool} {haltRd : RegIdx} {m : Mnemonic} {w : Word}
    (h : m.Accepts divu haltRd w) : decoder divu haltRd w = m.ctrl := by
  cases m with
  | ebreak =>
    obtain ⟨ho, hrest⟩ := h
    have hc := (system_compare_iff haltRd w).mpr hrest
    simp [decoder, decodeCase, decodeSystem, ho, hc, opcJal, opcJalr, opcBranch, opcLoad,
      opcStore, opcLui, opcImm, opcAlsu, opcSystem, gate, Mnemonic.ctrl]
  | divu =>
    obtain ⟨hd, ho, h7, h3⟩ := h
    simp [decoder, decodeCase, decodeAlsu, ho, h7, h3, hd, opcJal, opcJalr, opcBranch, opcLoad,
      opcStore, opcLui, opcImm, opcAlsu, f3Add, f3Xor, f3Or, f3And, f3Sll, f3Srl, gate,
      Mnemonic.ctrl]
  | lui | jal | jalr | lw | sw =>
    have ho := h
    simp only [Mnemonic.Accepts, Mnemonic.IsEncoding] at ho
    simp [decoder, decodeCase, ho, opcJal, opcJalr, opcBranch, opcLoad, opcStore, opcLui, gate,
      Mnemonic.ctrl]
  | addi =>
    obtain ⟨ho, h3⟩ := h
    simp [decoder, decodeCase, ho, h3, opcJal, opcJalr, opcBranch, opcLoad, opcStore, opcLui,
      opcImm, f3Add, gate, Mnemonic.ctrl]
  | beq | bne | blt | bge =>
    obtain ⟨ho, h3⟩ := h
    simp [decoder, decodeCase, decodeBranch, ho, h3, opcJal, opcJalr, opcBranch, f3Beq, f3Bne,
      f3Blt, f3Bge, gate, Mnemonic.ctrl]
  | add | sub | xor | or | and | sll | srl | sra =>
    obtain ⟨ho, h7, h3⟩ := h
    simp [decoder, decodeCase, decodeAlsu, ho, h7, h3, opcJal, opcJalr, opcBranch, opcLoad,
      opcStore, opcLui, opcImm, opcAlsu, f3Add, f3Xor, f3Or, f3And, f3Sll, f3Srl, gate,
      Mnemonic.ctrl]

/-- A word that no mnemonic accepts is illegal, and the gate clears the rest. -/
theorem decoder_of_not_accepts {divu : Bool} {haltRd : RegIdx} {w : Word}
    (h : ∀ m : Mnemonic, ¬ m.Accepts divu haltRd w) :
    decoder divu haltRd w = { illegalInsn := true } := by
  have hjal : ¬ opcode w = opcJal := h .jal
  have hjalr : ¬ opcode w = opcJalr := h .jalr
  have hload : ¬ opcode w = opcLoad := h .lw
  have hstore : ¬ opcode w = opcStore := h .sw
  have hlui : ¬ opcode w = opcLui := h .lui
  unfold decoder decodeCase
  rw [if_neg hjal, if_neg hjalr, if_neg hload, if_neg hstore, if_neg hlui]
  by_cases hb : opcode w = opcBranch
  · have h1 : ¬ funct3 w = f3Beq := fun h3 => h .beq ⟨hb, h3⟩
    have h2 : ¬ funct3 w = f3Bne := fun h3 => h .bne ⟨hb, h3⟩
    have h3 : ¬ funct3 w = f3Blt := fun h3 => h .blt ⟨hb, h3⟩
    have h4 : ¬ funct3 w = f3Bge := fun h3 => h .bge ⟨hb, h3⟩
    simp [hb, decodeBranch, h1, h2, h3, h4, gate]
  by_cases hi : opcode w = opcImm
  · have h1 : ¬ funct3 w = f3Add := fun h3 => h .addi ⟨hi, h3⟩
    rw [if_neg hb]
    simp [hi, h1, gate]
  by_cases ha : opcode w = opcAlsu
  · have h1 : ¬ (funct7 w = 0b0000000#7 ∧ funct3 w = f3Add) := fun e => h .add ⟨ha, e⟩
    have h2 : ¬ (funct7 w = 0b0100000#7 ∧ funct3 w = f3Add) := fun e => h .sub ⟨ha, e⟩
    have h3 : ¬ (funct7 w = 0b0000000#7 ∧ funct3 w = f3Xor) := fun e => h .xor ⟨ha, e⟩
    have h4 : ¬ (funct7 w = 0b0000000#7 ∧ funct3 w = f3Or) := fun e => h .or ⟨ha, e⟩
    have h5 : ¬ (funct7 w = 0b0000000#7 ∧ funct3 w = f3And) := fun e => h .and ⟨ha, e⟩
    have h6 : ¬ (funct7 w = 0b0000000#7 ∧ funct3 w = f3Sll) := fun e => h .sll ⟨ha, e⟩
    have h7 : ¬ (funct7 w = 0b0000000#7 ∧ funct3 w = f3Srl) := fun e => h .srl ⟨ha, e⟩
    have h8 : ¬ (funct7 w = 0b0100000#7 ∧ funct3 w = f3Srl) := fun e => h .sra ⟨ha, e⟩
    have h9 : ¬ (divu = true ∧ funct7 w = 0b0000001#7 ∧ funct3 w = 0b101#3) :=
      fun e => h .divu ⟨e.1, ha, e.2⟩
    rw [if_neg hb, if_neg hi, if_pos ha, decodeAlsu]
    simp only [if_neg h1, if_neg h2, if_neg h3, if_neg h4, if_neg h5, if_neg h6, if_neg h7,
      if_neg h8, if_neg h9]
    rfl
  rw [if_neg hb, if_neg hi, if_neg ha]
  by_cases hs : opcode w = opcSystem
  · have h1 : ¬ funct12 w ++ rs1 {} w ++ funct3 w ++ haltRd = 0b0000000000010000000000000#25 :=
      fun e => h .ebreak ⟨hs, (system_compare_iff haltRd w).mp e⟩
    rw [if_pos hs, decodeSystem, if_neg h1]
    rfl
  · rw [if_neg hs]
    rfl

/-- What the decoder can answer: the row of an accepting mnemonic, or illegal. -/
theorem decoder_spec (divu : Bool) (haltRd : RegIdx) (w : Word) :
    (∃ m : Mnemonic, m.Accepts divu haltRd w ∧ decoder divu haltRd w = m.ctrl) ∨
    ((∀ m : Mnemonic, ¬ m.Accepts divu haltRd w) ∧
      decoder divu haltRd w = { illegalInsn := true }) := by
  by_cases h : ∃ m : Mnemonic, m.Accepts divu haltRd w
  · obtain ⟨m, hm⟩ := h
    exact .inl ⟨m, hm, decoder_of_accepts hm⟩
  · have hn := not_exists.mp h
    exact .inr ⟨hn, decoder_of_not_accepts hn⟩

theorem decoder_illegalInsn_iff {divu : Bool} {haltRd : RegIdx} {w : Word} :
    (decoder divu haltRd w).illegalInsn = false ↔ ∃ m : Mnemonic, m.Accepts divu haltRd w := by
  rcases decoder_spec divu haltRd w with ⟨m, hm, he⟩ | ⟨hn, he⟩
  · rw [he]
    exact ⟨fun _ => ⟨m, hm⟩, fun _ => by cases m <;> rfl⟩
  · rw [he]
    exact ⟨fun h => absurd h (by decide), fun ⟨m, hm⟩ => absurd hm (hn m)⟩

/-- An illegal word clears every other control signal. -/
theorem decoder_of_illegalInsn {divu : Bool} {haltRd : RegIdx} {w : Word}
    (h : (decoder divu haltRd w).illegalInsn = true) :
    decoder divu haltRd w = { illegalInsn := true } := by
  rcases decoder_spec divu haltRd w with ⟨m, hm, _⟩ | ⟨_, he⟩
  · rw [decoder_illegalInsn_iff.mpr ⟨m, hm⟩] at h
    cases h
  · exact he

/-! ## 2. Halting words -/

/-- A word halts iff its opcode, funct12 and funct3 fields are those of EBREAK and the
compared destination register is zero. Its rs1 field is not looked at. -/
theorem decoder_cpuHalt_iff {divu : Bool} {haltRd : RegIdx} {w : Word} :
    (decoder divu haltRd w).cpuHalt = true ↔
      opcode w = opcSystem ∧ funct12 w = 1#12 ∧ funct3 w = 0#3 ∧ haltRd = 0#5 := by
  constructor
  · intro h
    rcases decoder_spec divu haltRd w with ⟨m, hm, he⟩ | ⟨_, he⟩
    · rw [he] at h
      cases m <;> first | exact hm | cases h
    · rw [he] at h
      cases h
  · intro h
    rw [decoder_of_accepts (m := .ebreak) h]
    rfl

/-- A halting word sets no other control signal. -/
theorem decoder_of_cpuHalt {divu : Bool} {haltRd : RegIdx} {w : Word}
    (h : (decoder divu haltRd w).cpuHalt = true) :
    decoder divu haltRd w = { cpuHalt := true } :=
  decoder_of_accepts (m := .ebreak) (decoder_cpuHalt_iff.mp h)

/-- Only `OPC_SYSTEM` words depend on the compared destination register. -/
theorem decoder_haltRd_congr {divu : Bool} {w : Word} (h : opcode w ≠ opcSystem)
    (r r' : RegIdx) : decoder divu r w = decoder divu r' w := by
  unfold decoder decodeCase
  simp only [if_neg h]

/-! ## 3. The accepted instruction set -/

/-- A cycle that fetches `w` writes no register and no memory, reads no `stdin`, writes
no `stdout` and takes no jump. -/
def SingleCycle.Inert (w : Word) : Prop :=
  ∀ (env : Env) (s : SingleCycle), (s.signals env).instruction = w →
    (s.signals env).ctrl.aluRegWrite = false ∧ (s.signals env).ctrl.aluMemWrite = false ∧
    (s.signals env).ctrl.aluMemRead = false ∧ (s.signals env).pcSrc = false ∧
    (∀ i, i ≠ 0#5 → (s.step env).xP i = s.xP i) ∧ (s.step env).plat = s.plat

/-- The single-cycle decoder treats `w` as the instruction set says: it accepts exactly
the encodings, and a rejected word has no effect. -/
def SingleCycle.DecodesExactly (w : Word) : Prop :=
  ((decode w).illegalInsn = false ↔ ∃ m : Mnemonic, m.IsEncoding w) ∧
  ((decode w).illegalInsn = true → Inert w)

/-- The words of a format the decoder takes without one of its checks: JALR, loads and
stores of another funct3, and the EBREAK word with a nonzero rs1 field. -/
def SingleCycle.MissedCheck (w : Word) : Prop :=
  (opcode w = opcJalr ∧ funct3 w ≠ 0b000#3) ∨ (opcode w = opcLoad ∧ funct3 w ≠ f3Lw) ∨
  (opcode w = opcStore ∧ funct3 w ≠ 0b010#3) ∨
  (opcode w = opcSystem ∧ funct12 w = 1#12 ∧ funct3 w = 0#3 ∧ rd w = 0#5 ∧ rs1Field w ≠ 0#5)

namespace DecoderLemmas

/-- The opcode of an instruction. -/
def opcodeOf : Mnemonic → BitVec 7
  | .lui => opcLui
  | .jal => opcJal
  | .jalr => opcJalr
  | .beq | .bne | .blt | .bge => opcBranch
  | .lw => opcLoad
  | .sw => opcStore
  | .addi => opcImm
  | .ebreak => opcSystem
  | _ => opcAlsu

theorem isEncoding_opcode {m : Mnemonic} {w : Word} (h : m.IsEncoding w) :
    opcode w = opcodeOf m := by
  cases m with
  | ebreak => exact ((eq_ebreakWord_iff w).mp h).2.2.2.2
  | lui | jal => exact h
  | _ => exact h.1

/-- JALR, loads, stores and EBREAK have an opcode of their own. -/
theorem eq_of_opcodeOf {m m' : Mnemonic} (h : opcodeOf m = opcodeOf m')
    (hown : m' = .jalr ∨ m' = .lw ∨ m' = .sw ∨ m' = .ebreak) : m = m' := by
  rcases hown with rfl | rfl | rfl | rfl <;> cases m <;> first | rfl | exact absurd h (by decide)

theorem isEncoding_eq {m m' : Mnemonic} {w : Word} (hm : m.IsEncoding w)
    (ho : opcode w = opcodeOf m') (hown : m' = .jalr ∨ m' = .lw ∨ m' = .sw ∨ m' = .ebreak) :
    m = m' :=
  eq_of_opcodeOf ((isEncoding_opcode hm).symm.trans ho) hown

theorem isEncoding_accepts {m : Mnemonic} {w : Word} (h : m.IsEncoding w) :
    m.Accepts true (rd w) w := by
  cases m with
  | ebreak =>
    obtain ⟨h12, _, h3, hrd, ho⟩ := (eq_ebreakWord_iff w).mp h
    exact ⟨ho, h12, h3, hrd⟩
  | jalr | lw | sw => exact h.1
  | divu => exact ⟨rfl, h⟩
  | _ => exact h

/-- An accepted word is an encoding unless one of the missing checks let it through. -/
theorem accepts_isEncoding {m : Mnemonic} {w : Word} (h : m.Accepts true (rd w) w) :
    m.IsEncoding w ∨ SingleCycle.MissedCheck w := by
  cases m with
  | jalr =>
    by_cases h3 : funct3 w = 0b000#3
    · exact .inl ⟨h, h3⟩
    · exact .inr (.inl ⟨h, h3⟩)
  | lw =>
    by_cases h3 : funct3 w = f3Lw
    · exact .inl ⟨h, h3⟩
    · exact .inr (.inr (.inl ⟨h, h3⟩))
  | sw =>
    by_cases h3 : funct3 w = 0b010#3
    · exact .inl ⟨h, h3⟩
    · exact .inr (.inr (.inr (.inl ⟨h, h3⟩)))
  | ebreak =>
    obtain ⟨ho, h12, h3, hrd⟩ := h
    by_cases h1 : rs1Field w = 0#5
    · exact .inl ((eq_ebreakWord_iff w).mpr ⟨h12, h1, h3, hrd, ho⟩)
    · exact .inr (.inr (.inr (.inr ⟨ho, h12, h3, hrd, h1⟩)))
  | divu => exact .inl h.2
  | _ => exact .inl h

/-- A word with a missed check is accepted although it encodes nothing. -/
theorem missedCheck_accepts {w : Word} (h : SingleCycle.MissedCheck w) :
    (∃ m : Mnemonic, m.Accepts true (rd w) w) ∧ ∀ m : Mnemonic, ¬ m.IsEncoding w := by
  rcases h with ⟨ho, h3⟩ | ⟨ho, h3⟩ | ⟨ho, h3⟩ | ⟨ho, h12, h3, hrd, h1⟩
  · refine ⟨⟨.jalr, ho⟩, fun m hm => ?_⟩
    obtain rfl : m = .jalr := isEncoding_eq hm ho (by decide)
    exact h3 hm.2
  · refine ⟨⟨.lw, ho⟩, fun m hm => ?_⟩
    obtain rfl : m = .lw := isEncoding_eq hm ho (by decide)
    exact h3 hm.2
  · refine ⟨⟨.sw, ho⟩, fun m hm => ?_⟩
    obtain rfl : m = .sw := isEncoding_eq hm ho (by decide)
    exact h3 hm.2
  · refine ⟨⟨.ebreak, ho, h12, h3, hrd⟩, fun m hm => ?_⟩
    obtain rfl : m = .ebreak := isEncoding_eq hm ho (by decide)
    exact h1 ((eq_ebreakWord_iff w).mp hm).2.1

theorem illegalInsn_inert {w : Word} (h : (SingleCycle.decode w).illegalInsn = true) :
    SingleCycle.Inert w := by
  intro env s hw
  have hc : (s.signals env).ctrl = { illegalInsn := true } := by
    show SingleCycle.decode (s.signals env).instruction = _
    rw [hw]
    exact decoder_of_illegalInsn h
  have hsrc : (s.signals env).pcSrc = false := signals_pcSrc_off hc rfl rfl
  refine ⟨by rw [hc], by rw [hc], by rw [hc], hsrc, fun i hi => ?_, ?_⟩
  · simp [SingleCycle.step, Arch.edge, hc, regFileN, hi]
  · simp [SingleCycle.step, Arch.edge, hc]

end DecoderLemmas

/-- The single-cycle decoder accepts exactly the instruction set on every word but those
with a missed check, and there it does not; rejected words never have an effect. -/
theorem decode_accepts_exactly_iff (w : Word) :
    SingleCycle.DecodesExactly w ↔ ¬ SingleCycle.MissedCheck w := by
  constructor
  · rintro ⟨hacc, _⟩ hmiss
    obtain ⟨hm, hno⟩ := missedCheck_accepts hmiss
    obtain ⟨m, hm⟩ := hacc.mp (decoder_illegalInsn_iff.mpr hm)
    exact hno m hm
  · intro hmiss
    refine ⟨⟨fun h => ?_, fun ⟨m, hm⟩ => ?_⟩, illegalInsn_inert⟩
    · obtain ⟨m, hm⟩ := decoder_illegalInsn_iff.mp h
      exact ⟨m, (accepts_isEncoding hm).resolve_right hmiss⟩
    · exact decoder_illegalInsn_iff.mpr ⟨m, isEncoding_accepts hm⟩

/-- The byte load LB x5, 0(x0) is executed as a word load. -/
theorem decode_accepts_byte_load : ¬ ∀ w, SingleCycle.DecodesExactly w := by
  intro h
  have hacc : (SingleCycle.decode 0x00000283#32).illegalInsn = false := by decide
  obtain ⟨m, hm⟩ := (h 0x00000283#32).1.mp hacc
  have hload : opcode 0x00000283#32 = opcodeOf .lw := by decide
  obtain rfl : m = .lw := isEncoding_eq hm hload (by decide)
  exact absurd hm.2 (by decide)

end MicroRiscv
