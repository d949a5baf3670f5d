import MicroRiscv.Decoder

/-!
# The single-cycle core against RV32I

One step of the single-cycle core on an instruction of the set is compared with
`rv32i`. The two agree but for two kinds of operands: a shift amount of 32 or more,
because the ALU shifts by the whole register, and an odd JALR target, because the
target adder passes bit 0 through. `FollowsRv32i` says for which operands the difference
does not show.

Results:
1. `sbImm_eq_immediateB`, `ujImm_eq_immediateJ`, `iImm_eq_immediateI`: the immediate
   generator decodes the RV32I immediates.
2. `step_of_not_startI`: outside a division the core is the plain datapath.
3. `step_rv32i_iff`: a step gives the RV32I result iff `FollowsRv32i` holds.
-/

namespace MicroRiscv

/-! ## 1. Immediates -/

theorem iImm_eq_immediateI (w : Word) : iImm w = immediateI w := by
  unfold iImm immediateI
  apply BitVec.eq_of_getLsbD_eq
  intro i hi
  simp only [BitVec.getLsbD_append, BitVec.getLsbD_signExtend, BitVec.getLsbD_replicate,
    BitVec.msb_eq_getLsbD_last, BitVec.getLsbD_extractLsb']
  grind

theorem sbImm_eq_immediateB (w : Word) : sbImm w = immediateB w := by
  unfold sbImm immediateB
  apply BitVec.eq_of_getLsbD_eq
  intro i hi
  simp only [BitVec.getLsbD_append, BitVec.getLsbD_signExtend, BitVec.getLsbD_replicate,
    BitVec.msb_eq_getLsbD_last, BitVec.getLsbD_extractLsb']
  grind

theorem ujImm_eq_immediateJ (w : Word) : ujImm w = immediateJ w := by
  unfold ujImm immediateJ
  apply BitVec.eq_of_getLsbD_eq
  intro i hi
  simp only [BitVec.getLsbD_append, BitVec.getLsbD_signExtend, BitVec.getLsbD_replicate,
    BitVec.msb_eq_getLsbD_last, BitVec.getLsbD_extractLsb']
  grind

/-! ## 2. One step of the plain datapath -/

/-- Outside a division the divider neither stalls the PC nor drives the write-back. -/
theorem step_of_not_startI {env : Env} {s : SingleCycle}
    (h : (s.signals env).ctrl.startI = false) :
    (s.step env).toArch =
      let g := s.signals env
      s.toArch.edge g (pcMux g.ctrl.cpuHalt g.pcSrc s.pcP g.pcAlu g.pcIncr) g.regWriteData := by
  simp [SingleCycle.step, SingleCycle.pcN, SingleCycle.pcStall, SingleCycle.writeData, h]

/-- The registers and the PC after one step on the word `w` with the signals `c`. -/
def stepValues (env : Env) (s : Arch) (c : Ctrl) (w : Word) : (RegIdx → Word) × Word :=
  let a := s.xP (rs1 c w)
  let b := s.xP (rs2 c w)
  let imm := aluImm c.immSel w
  let data2 := aluData2 c.aluSrc imm b
  let result := aluResult c.aluOperator a data2
  let target := pcAlu c.aluPcRegSrc a s.pcP imm
  let taken := pcSrc (aluBranch c.aluOperator a data2) c.aluIsBranch c.aluIsJump
  (regFileN s.xP c.aluRegWrite (rd w)
      (regWriteData c.memToReg c.aluIsJump (s.pcP + 4#32) result (dataRdata env s.plat result)),
    pcMux c.cpuHalt taken s.pcP target (s.pcP + 4#32))

theorem step_values {env : Env} {s : SingleCycle} {c : Ctrl} {w : Word}
    (hw : instrRdata env s.plat s.pcP = w) (hc : SingleCycle.decode w = c)
    (hs : c.startI = false) :
    ((s.step env).xP, (s.step env).pcP) = stepValues env s.toArch c w := by
  subst hw
  subst hc
  have hstep : (s.signals env).ctrl.startI = false := hs
  rw [step_of_not_startI hstep]
  rfl

/-- An instruction without a data access leaves the memory and the streams alone. -/
theorem step_plat {env : Env} {s : SingleCycle} {c : Ctrl} {w : Word}
    (hw : instrRdata env s.plat s.pcP = w) (hc : SingleCycle.decode w = c)
    (hre : c.aluMemRead = false) (hwe : c.aluMemWrite = false) :
    (s.step env).plat = s.plat := by
  have hctrl : (s.signals env).ctrl = c := by
    rw [← hc, ← hw]
    rfl
  show s.plat.tick (s.signals env).ctrl.aluMemRead (s.signals env).ctrl.aluMemWrite _ _ = s.plat
  rw [hctrl, hre, hwe]
  exact tick_idle _ _ _

/-! ## 3. The RV32I result -/

/-- A step on the word `w`, an encoding of `m`, gives the RV32I registers and PC, and leaves
the memory, the position in `stdin` and the printed words alone. -/
def SingleCycle.StepIsRv32i (env : Env) (s : SingleCycle) (m : Mnemonic) (w : Word)
    (r : RegState) : Prop :=
  ∀ r' pc', rv32i m w r s.pcP = some (r', pc') →
    ((s.step env).xP, (s.step env).pcP) = (r'.x, pc') ∧ (s.step env).plat = s.plat

/-- The operands for which the core follows RV32I. A shift by 32 or more is right only
when the result is dropped (`rd = x0`) or when the shift by the low five bits already
leaves only zeros (SLL, SRL) or only copies of the sign (SRA); a JALR target is right
when rs1 and the immediate (bit 20 of the word is its lowest bit) have the same parity. -/
def FollowsRv32i (m : Mnemonic) (w : Word) (r : RegState) : Prop :=
  let a := r.x (rs1Field w)
  let s := (r.x (rs2Field w)).toNat
  match m with
  | .sll => rd w = 0#5 ∨ s < 32 ∨ 2 ^ (32 - s % 32) ∣ a.toNat
  | .srl => rd w = 0#5 ∨ s < 32 ∨ a.toNat < 2 ^ (s % 32)
  | .sra => rd w = 0#5 ∨ s < 32 ∨ (-2 ^ (s % 32) ≤ a.toInt ∧ a.toInt < 2 ^ (s % 32))
  | .jalr => a.getLsbD 0 = w.getLsbD 20
  | _ => True

namespace Rv32iLemmas

theorem regFileN_write (r : RegState) (i : RegIdx) (v : Word) :
    regFileN r.x true i v = (r.set i v).x := by
  funext j
  by_cases hj : j = 0#5
  · subst hj
    rw [(r.set i v).x0, regFileN_zero]
  · by_cases hi : j = i
    · subst hi
      simp [regFileN, RegState.set, hj]
    · simp [regFileN, RegState.set, hj, hi, Ne.symm hi]

theorem regFileN_keep (r : RegState) (i : RegIdx) (v : Word) : regFileN r.x false i v = r.x :=
  regFileN_off r.x0 i v

/-- Clearing bit 0 changes a word iff that bit is set. -/
theorem eq_clear_bit0_iff (a : Word) : a = a &&& ~~~1#32 ↔ a.getLsbD 0 = false := by
  constructor
  · intro h
    rw [h]
    simp
  · intro h
    apply BitVec.eq_of_getLsbD_eq
    intro i hi
    rw [BitVec.getLsbD_and, BitVec.getLsbD_not, BitVec.getLsbD_one]
    rcases Nat.eq_zero_or_pos i with rfl | hpos
    · rw [h, Bool.false_and]
    · have h1 : decide (i = 0) = false := decide_eq_false (by omega)
      rw [h1, Bool.and_false, Bool.not_false, decide_eq_true hi, Bool.and_self, Bool.and_true]

/-- The lowest bit of a sum is clear iff the summands have the same parity. -/
theorem add_bit0_iff (a b : Word) : (a + b).getLsbD 0 = false ↔ a.getLsbD 0 = b.getLsbD 0 := by
  rw [BitVec.getLsbD_add (by decide), BitVec.carry_zero]
  cases a.getLsbD 0 <;> cases b.getLsbD 0 <;> decide

theorem immediateI_bit0 (w : Word) : (immediateI w).getLsbD 0 = w.getLsbD 20 := by
  unfold immediateI
  rw [BitVec.getLsbD_signExtend, BitVec.getLsbD_extractLsb']
  rfl

/-- BEQ and BNE compare for equality. -/
theorem aluBranch_eq (a b : Word) : aluBranch .eq a b = decide (a = b) := by
  simp [aluBranch, beq_eq_decide]

theorem aluBranch_ne (a b : Word) : aluBranch .ne a b = decide (a ≠ b) := by
  simp [aluBranch, beq_eq_decide]

/-- BLT compares as signed: not greater and not equal. -/
theorem aluBranch_lts (a b : Word) : aluBranch .lts a b = decide (a.toInt < b.toInt) := by
  have h : a = b ↔ a.toInt = b.toInt := BitVec.toInt_inj.symm
  simp only [aluBranch, BitVec.slt, beq_eq_decide, h]
  by_cases h1 : b.toInt < a.toInt <;> by_cases h2 : a.toInt = b.toInt <;> simp [h1, h2] <;> omega

/-- BGE compares as signed: greater or equal. -/
theorem aluBranch_ges (a b : Word) : aluBranch .ges a b = decide (b.toInt ≤ a.toInt) := by
  have h : a = b ↔ a.toInt = b.toInt := BitVec.toInt_inj.symm
  simp only [aluBranch, BitVec.slt, beq_eq_decide, h]
  by_cases h1 : b.toInt < a.toInt <;> by_cases h2 : a.toInt = b.toInt <;> simp [h1, h2] <;> omega

end Rv32iLemmas

open Rv32iLemmas DecoderLemmas

section Step

variable {env : Env} {s : SingleCycle} {m : Mnemonic} {w : Word} {r : RegState}

/-- The values of `rv32i` are the only ones to compare with. -/
theorem stepIsRv32i_iff {r' : RegState} {pc' : Word} (hplat : (s.step env).plat = s.plat)
    (hr : rv32i m w r s.pcP = some (r', pc')) :
    s.StepIsRv32i env m w r ↔ ((s.step env).xP, (s.step env).pcP) = (r'.x, pc') := by
  constructor
  · intro h
    exact (h r' pc' hr).1
  · intro h r1 pc1 hr1
    rw [hr] at hr1
    cases hr1
    exact ⟨h, hplat⟩

/-- An instruction that writes `v` to `rd` where RV32I writes `u`. -/
theorem stepIsRv32i_iff_of_write {u v pc' : Word} (hplat : (s.step env).plat = s.plat)
    (hr : rv32i m w r s.pcP = some (r.set (rd w) u, pc'))
    (hstep : ((s.step env).xP, (s.step env).pcP) = (regFileN r.x true (rd w) v, pc')) :
    s.StepIsRv32i env m w r ↔ rd w = 0#5 ∨ v = u := by
  rw [stepIsRv32i_iff hplat hr, hstep, Prod.mk.injEq, ← regFileN_write, regFileN_eq_iff]
  exact and_iff_left rfl

/-- The rows of `OPC_ALSU`: the ALU result of the two registers goes to `rd`. -/
theorem step_alsu {op : AluOpT} (hw : instrRdata env s.plat s.pcP = w)
    (hc : SingleCycle.decode w =
      { aluOperator := op, aluRegWrite := true, rs1Valid := true, rs2Valid := true })
    (hx : s.xP = r.x) :
    ((s.step env).xP, (s.step env).pcP) =
      (regFileN r.x true (rd w) (aluResult op (r.x (rs1Field w)) (r.x (rs2Field w))),
        s.pcP + 4#32) := by
  rw [step_values hw hc rfl]
  simp [stepValues, hx, rs1, rs2, aluData2, regWriteData, pcMux]

end Step

/-- One step of the core on an encoded instruction gives the RV32I result iff the
operands are among those of `FollowsRv32i`. -/
theorem step_rv32i_iff {env : Env} {s : SingleCycle} {m : Mnemonic} {w : Word} {r : RegState}
    (hm : m.IsEncoding w) (hw : instrRdata env s.plat s.pcP = w) (hx : s.xP = r.x) :
    s.StepIsRv32i env m w r ↔ FollowsRv32i m w r := by
  have hc : SingleCycle.decode w = m.ctrl := decoder_of_accepts (isEncoding_accepts hm)
  cases m with
  | lw | sw | divu | ebreak => simp [SingleCycle.StepIsRv32i, rv32i, FollowsRv32i]
  | lui | addi =>
    rw [stepIsRv32i_iff (step_plat hw hc rfl rfl) rfl, step_values hw hc rfl]
    simp [stepValues, FollowsRv32i, Mnemonic.ctrl, hx, r.x0, rs1, aluData2, aluResult,
      regWriteData, regFileN_write, pcMux, aluImm, iImm_eq_immediateI, uImm]
  | add | sub | xor | or | and =>
    exact (stepIsRv32i_iff_of_write (step_plat hw hc rfl rfl) rfl (step_alsu hw hc hx)).trans
      (iff_of_true (.inr rfl) trivial)
  | sll =>
    have hshift := Bits.shiftLeft_eq_mod_iff (by decide) (r.x (rs1Field w))
      (r.x (rs2Field w)).toNat
    exact (stepIsRv32i_iff_of_write (step_plat hw hc rfl rfl) rfl (step_alsu hw hc hx)).trans
      (or_congr_right hshift)
  | srl =>
    have hshift := Bits.ushiftRight_eq_mod_iff (r.x (rs1Field w)) (r.x (rs2Field w)).toNat
    exact (stepIsRv32i_iff_of_write (step_plat hw hc rfl rfl) rfl (step_alsu hw hc hx)).trans
      (or_congr_right hshift)
  | sra =>
    have hshift := Bits.sshiftRight_eq_mod_iff (r.x (rs1Field w)) (r.x (rs2Field w)).toNat
    exact (stepIsRv32i_iff_of_write (step_plat hw hc rfl rfl) rfl (step_alsu hw hc hx)).trans
      (or_congr_right hshift)
  | beq | bne | blt | bge =>
    rw [stepIsRv32i_iff (step_plat hw hc rfl rfl) rfl, step_values hw hc rfl]
    simp [stepValues, FollowsRv32i, Mnemonic.ctrl, hx, rs1, rs2, aluData2, aluBranch_eq,
      aluBranch_ne, aluBranch_lts, aluBranch_ges, regFileN_keep, pcSrc, pcMux, aluImm, pcAlu,
      sbImm_eq_immediateB]
  | jal =>
    rw [stepIsRv32i_iff (step_plat hw hc rfl rfl) rfl, step_values hw hc rfl]
    simp [stepValues, FollowsRv32i, Mnemonic.ctrl, regWriteData, hx, regFileN_write, pcSrc, pcMux,
      aluImm, pcAlu, ujImm_eq_immediateJ]
  | jalr =>
    have hvalues : stepValues env s.toArch Mnemonic.jalr.ctrl w =
        ((r.set (rd w) (s.pcP + 4#32)).x, r.x (rs1Field w) + immediateI w) := by
      simp [stepValues, Mnemonic.ctrl, hx, regWriteData, regFileN_write, pcSrc, pcMux, aluImm, pcAlu,
        iImm_eq_immediateI, rs1]
    have htarget := (eq_clear_bit0_iff _).trans (add_bit0_iff (r.x (rs1Field w)) (immediateI w))
    rw [immediateI_bit0] at htarget
    rw [stepIsRv32i_iff (step_plat hw hc rfl rfl) rfl, step_values hw hc rfl, hvalues, Prod.mk.injEq]
    exact (and_iff_right rfl).trans htarget

/-- The registers with `a` in x1, `b` in x2 and zeros elsewhere. -/
def operands (a b : Word) : RegState where
  x := fun i => if i = 1#5 then a else if i = 2#5 then b else 0#32
  x0 := rfl

/-- A core at address 0 with the registers `r` in front of the word `w`. -/
def coreAt (w : Word) (r : RegState) : SingleCycle where
  pcP := 0#32
  xP := r.x
  plat := Platform.ofProgram [w]
  div := Divider.reset

theorem step_rv32i_add :
    (coreAt 0x002081B3#32 (operands 7#32 5#32)).StepIsRv32i Env.zero .add 0x002081B3#32
      (operands 7#32 5#32) := by
  have hm : Mnemonic.add.IsEncoding 0x002081B3#32 := ⟨by decide, by decide, by decide⟩
  exact (step_rv32i_iff hm (by decide) rfl).mpr trivial

/-- SLL x3, x1, x2 with x1 = 1 and x2 = 32 gives 0, and RV32I gives 1. -/
theorem sll_by_32 : ¬ ∀ (env : Env) (s : SingleCycle) (m : Mnemonic) (w : Word) (r : RegState),
    m.IsEncoding w → instrRdata env s.plat s.pcP = w → s.xP = r.x → s.StepIsRv32i env m w r := by
  intro h
  have hstep := h Env.zero (coreAt 0x002091B3#32 (operands 1#32 32#32)) .sll 0x002091B3#32
    (operands 1#32 32#32) ⟨by decide, by decide, by decide⟩ (by decide) rfl _ _ rfl
  have hx3 := congrFun (congrArg Prod.fst hstep.1) 3#5
  exact absurd hx3 (by decide)

end MicroRiscv
