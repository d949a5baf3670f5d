import MicroRiscv.Pipeline
import MicroRiscv.Decoder
import MicroRiscv.Lib.Slots

/-!
# What the stages of the pipeline hold

The invariant behind every result about the 4-stage core. A stage without an occupant
is idle: its registers can cause no effect. A stage with an occupant holds what the
stage computes for that instruction, and the operands are those of the current
register file, whichever of the three ways they took:

* the operands in ID/EX are the current register file at `rs1_ex_p` and `rs2_ex_p`
  (the WB-to-ID bypass supplies a value the register file takes over in the same edge);
* the results in EX/WB are computed from the current register file (likewise for the
  WB-to-EX bypass).

So the instruction in WB acts on exactly the registers that its predecessors left.
`Traced.Inv.step` is the step lemma, `Traced.inv_run` the run lemma.
-/

namespace MicroRiscv

open Pipeline

/-! ## 1. Idle stages -/

/-- ID/EX registers that have no effect downstream. -/
structure IdEx.Idle (d : IdEx) : Prop where
  branch : d.aluIsBranchP = false
  jump : d.aluIsJumpP = false
  memRead : d.aluMemReadP = false
  memWrite : d.aluMemWriteP = false
  halt : d.cpuHaltP = false
  regWrite : d.aluRegWriteP = false ∨ d.rdP = 0#5

/-- EX/WB registers that have no effect. -/
structure ExWb.Idle (b : ExWb) : Prop where
  branch : b.aluIsBranchExP = false
  jump : b.aluIsJumpExP = false
  memRead : b.aluMemReadExP = false
  memWrite : b.aluMemWriteExP = false
  halt : b.cpuHaltExP = false
  regWrite : b.aluRegWriteExP = false ∨ b.rdExP = 0#5

/-- The flush in ID leaves nothing to do. -/
theorem idExN_flush_idle (r : RegIdx) (f : IfId) (read : RegIdx → Word) :
    (idExN true r f read).Idle :=
  ⟨rfl, rfl, rfl, rfl, rfl, .inl rfl⟩

theorem decode_nopWord (r : RegIdx) : decode false r nopWord = Mnemonic.addi.ctrl := by
  have hacc : Mnemonic.addi.Accepts false r nopWord := ⟨by decide, by decide⟩
  exact decoder_of_accepts hacc

/-- The words of a bubble in ID, zero after reset and the NOP after a transfer, leave
nothing to do either. The NOP sets the register write, but of `x0`. -/
theorem idExN_bubble_idle (r : RegIdx) {f : IfId}
    (h : f.instructionIfP = 0#32 ∨ f.instructionIfP = nopWord) (read : RegIdx → Word) :
    (idExN false r f read).Idle := by
  obtain ⟨pc, w⟩ := f
  rcases h with rfl | rfl
  · exact ⟨rfl, rfl, rfl, rfl, rfl, .inl rfl⟩
  · have hc := decode_nopWord r
    refine ⟨?_, ?_, ?_, ?_, ?_, .inr (by decide : rd nopWord = 0#5)⟩ <;>
      simp only [idExN, hc] <;> rfl

theorem exWbN_flush_idle (d : IdEx) (a b : Word) : (exWbN true d a b).Idle :=
  ⟨rfl, rfl, rfl, rfl, rfl, .inl rfl⟩

theorem exWbN_idle {d : IdEx} (h : d.Idle) (a b : Word) : (exWbN false d a b).Idle :=
  ⟨h.branch, h.jump, h.memRead, h.memWrite, h.halt, h.regWrite⟩

/-! ## 2. Bypasses -/

/-- A bypass offers what the register file holds after the clock edge. -/
theorem bypass_eq_step {env : Env} {s : Pipeline} (h0 : s.xP 0#5 = 0#32) (r : RegIdx) :
    s.bypass env r (s.xP r) = (s.step env).xP r :=
  forward_eq_regFileN h0 s.exWb.aluRegWriteExP s.exWb.rdExP (s.regWriteData env) r

/-! ## 3. The invariant -/

namespace Fetched

/-- The ID/EX registers for an instruction whose operands come from `read`. -/
def idEx (f : Fetched) (read : RegIdx → Word) : IdEx :=
  idExN false (rd f.ahead) ⟨f.pc, f.word⟩ read

/-- The EX/WB registers for an instruction whose operands come from `read`. -/
def exWb (f : Fetched) (read : RegIdx → Word) : ExWb :=
  exWbN false (f.idEx read) (read (f.idEx read).rs1ExP) (read (f.idEx read).rs2ExP)

/-- The control signals of the instruction: `rd_p`, which the decoder compares for
EBREAK, is the rd field of the word ahead. -/
def ctrl (f : Fetched) : Ctrl := decoder false (rd f.ahead) f.word

end Fetched

namespace Traced

/-- The occupants and the registers agree. -/
structure Inv (t : Traced) : Prop where
  x0 : t.xP 0#5 = 0#32
  regData1 : t.idEx.regData1P = t.xP t.idEx.rs1ExP
  regData2 : t.idEx.regData2P = t.xP t.idEx.rs2ExP
  idSome : ∀ f, t.idSlot = some f → t.ifId = ⟨f.pc, f.word⟩ ∧ t.idEx.rdP = rd f.ahead
  idNone : t.idSlot = none → t.ifId.instructionIfP = 0#32 ∨ t.ifId.instructionIfP = nopWord
  exSome : ∀ f, t.exSlot = some f → t.idEx = f.idEx t.xP
  exNone : t.exSlot = none → t.idEx.Idle
  wbSome : ∀ f, t.wbSlot = some f → t.exWb = f.exWb t.xP
  wbNone : t.wbSlot = none → t.exWb.Idle

theorem inv_reset (s : Pipeline) : (reset s).Inv where
  x0 := rfl
  regData1 := rfl
  regData2 := rfl
  idSome := fun _ h => nomatch h
  idNone := fun _ => .inl rfl
  exSome := fun _ h => nomatch h
  exNone := fun _ => ⟨rfl, rfl, rfl, rfl, rfl, .inl rfl⟩
  wbSome := fun _ h => nomatch h
  wbNone := fun _ => ⟨rfl, rfl, rfl, rfl, rfl, .inr rfl⟩

variable {env : Env} {t : Traced}

/-- Without a transfer in WB the occupants move up by one stage. -/
theorem step_slots (hsrc : t.pcSrc = false) :
    (t.step env).wbSlot = t.exSlot ∧ (t.step env).exSlot = t.idSlot ∧
    (t.step env).idSlot = some (t.fetched env) := by
  simp only [Traced.step, hsrc, Bool.false_eq_true, if_false, and_self]

/-- With one they are squashed. -/
theorem step_slots_squash (hsrc : t.pcSrc = true) :
    (t.step env).wbSlot = none ∧ (t.step env).exSlot = none ∧ (t.step env).idSlot = none := by
  simp only [Traced.step, hsrc, if_true, and_self]

/-- The operand of EX behind its bypass is the register file after the edge. -/
theorem Inv.operand1 (h : t.Inv) :
    t.bypass env t.idEx.rs1ExP t.idEx.regData1P = (t.step env).xP t.idEx.rs1ExP := by
  rw [h.regData1]
  exact bypass_eq_step h.x0 _

theorem Inv.operand2 (h : t.Inv) :
    t.bypass env t.idEx.rs2ExP t.idEx.regData2P = (t.step env).xP t.idEx.rs2ExP := by
  rw [h.regData2]
  exact bypass_eq_step h.x0 _

/-- What ID hands to EX for its occupant. -/
theorem Inv.step_exSome (h : t.Inv) {f : Fetched} (hid : t.idSlot = some f)
    (hsrc : t.pcSrc = false) : (t.step env).idEx = f.idEx (t.step env).xP := by
  obtain ⟨hif, hrd⟩ := h.idSome f hid
  have hread : (fun r => t.bypass env r (t.xP r)) = (t.step env).xP :=
    funext fun r => bypass_eq_step h.x0 r
  show idExN t.pcSrc t.idEx.rdP t.ifId (fun r => t.bypass env r (t.xP r)) = _
  rw [hsrc, hrd, hif, hread]
  rfl

/-- What EX hands to WB for its occupant. -/
theorem Inv.step_wbSome (h : t.Inv) {f : Fetched} (hex : t.exSlot = some f)
    (hsrc : t.pcSrc = false) : (t.step env).exWb = f.exWb (t.step env).xP := by
  have hidEx := h.exSome f hex
  show exWbN t.pcSrc t.idEx _ _ = _
  rw [h.operand1, h.operand2, hsrc, hidEx]
  rfl

/-- What IF hands to ID. -/
theorem step_ifId (hsrc : t.pcSrc = false) :
    (t.step env).ifId = ⟨(t.fetched env).pc, (t.fetched env).word⟩ := by
  show (⟨t.pcP, if t.pcSrc then nopWord else t.instrRdata env⟩ : IfId) = _
  rw [hsrc]
  rfl

/-- A squashed fetch leaves the NOP. -/
theorem step_ifId_squash (hsrc : t.pcSrc = true) :
    (t.step env).ifId.instructionIfP = nopWord := by
  show (if t.pcSrc then nopWord else t.instrRdata env) = nopWord
  rw [hsrc]
  rfl

/-- One clock edge keeps the invariant. With a transfer in WB every stage becomes a
bubble, without one each stage hands its occupant, or its bubble, to the next. -/
theorem Inv.step (h : t.Inv) : (t.step env).Inv where
  x0 := regFileN_zero t.xP t.exWb.aluRegWriteExP t.exWb.rdExP (t.regWriteData env)
  regData1 := bypass_eq_step h.x0 _
  regData2 := bypass_eq_step h.x0 _
  idSome := by
    intro f hf
    cases hsrc : t.pcSrc with
    | true =>
      rw [(step_slots_squash hsrc).2.2] at hf
      cases hf
    | false =>
      rw [(step_slots hsrc).2.2] at hf
      cases hf
      exact ⟨step_ifId hsrc, rfl⟩
  idNone := by
    intro hnone
    cases hsrc : t.pcSrc with
    | true => exact .inr (step_ifId_squash hsrc)
    | false =>
      rw [(step_slots hsrc).2.2] at hnone
      cases hnone
  exSome := by
    intro f hf
    cases hsrc : t.pcSrc with
    | true =>
      rw [(step_slots_squash hsrc).2.1] at hf
      cases hf
    | false =>
      rw [(step_slots hsrc).2.1] at hf
      exact h.step_exSome hf hsrc
  exNone := by
    intro hnone
    show (idExN t.pcSrc t.idEx.rdP t.ifId fun r => t.bypass env r (t.xP r)).Idle
    cases hsrc : t.pcSrc with
    | true => exact idExN_flush_idle _ _ _
    | false =>
      rw [(step_slots hsrc).2.1] at hnone
      exact idExN_bubble_idle _ (h.idNone hnone) _
  wbSome := by
    intro f hf
    cases hsrc : t.pcSrc with
    | true =>
      rw [(step_slots_squash hsrc).1] at hf
      cases hf
    | false =>
      rw [(step_slots hsrc).1] at hf
      exact h.step_wbSome hf hsrc
  wbNone := by
    intro hnone
    show (exWbN t.pcSrc t.idEx _ _).Idle
    cases hsrc : t.pcSrc with
    | true => exact exWbN_flush_idle _ _ _
    | false =>
      rw [(step_slots hsrc).1] at hnone
      exact exWbN_idle (h.exNone hnone) _ _

/-- The invariant holds in every cycle after a reset. -/
theorem inv_run (env : Env) (s : Pipeline) (n : Nat) : (run env s n).Inv := by
  induction n with
  | zero => exact inv_reset s
  | succ n ih =>
    rw [run_succ]
    exact ih.step

/-! ## 4. Neighbours -/

/-- Behind an occupant the stages are occupied, and each occupant knows the word ahead.
Behind a bubble that word is the bubble's own, which names no register. -/
structure Adjacent (t : Traced) : Prop where
  ex : ∀ f, t.wbSlot = some f → ∃ g, t.exSlot = some g ∧ g.ahead = f.word
  id : ∀ f, t.exSlot = some f → ∃ g, t.idSlot = some g ∧ g.ahead = f.word
  exFirst : ∀ g, t.wbSlot = none → t.exSlot = some g → rd g.ahead = 0#5
  idFirst : ∀ g, t.exSlot = none → t.idSlot = some g → rd g.ahead = 0#5

/-- Bubbles have no neighbours. -/
theorem adjacent_of_bubbles (hwb : t.wbSlot = none) (hex : t.exSlot = none)
    (hid : t.idSlot = none) : t.Adjacent := by
  constructor
  · intro f hf
    rw [hwb] at hf
    cases hf
  · intro f hf
    rw [hex] at hf
    cases hf
  · intro g _ hg
    rw [hex] at hg
    cases hg
  · intro g _ hg
    rw [hid] at hg
    cases hg

theorem adjacent_reset (s : Pipeline) : (reset s).Adjacent := adjacent_of_bubbles rfl rfl rfl

/-- The words of a bubble name no destination register. -/
theorem Inv.bubble_rd (h : t.Inv) (hid : t.idSlot = none) : rd t.ifId.instructionIfP = 0#5 := by
  rcases h.idNone hid with hw | hw
  · rw [hw]
    rfl
  · rw [hw]
    rfl

theorem Adjacent.step (ha : t.Adjacent) (h : t.Inv) : (t.step env).Adjacent := by
  cases hsrc : t.pcSrc with
  | true =>
    obtain ⟨hwb, hex, hid⟩ := step_slots_squash hsrc
    exact adjacent_of_bubbles hwb hex hid
  | false =>
    obtain ⟨hwb, hex, hid⟩ := step_slots hsrc
    constructor
    · rw [hwb, hex]
      exact ha.id
    · rw [hex, hid]
      intro f hf
      obtain ⟨hif, _⟩ := h.idSome f hf
      refine ⟨t.fetched env, rfl, ?_⟩
      show t.ifId.instructionIfP = f.word
      rw [hif]
    · rw [hwb, hex]
      exact ha.idFirst
    · rw [hex, hid]
      intro g hnone hg
      cases hg
      exact h.bubble_rd hnone

theorem adjacent_run (env : Env) (s : Pipeline) (n : Nat) : (run env s n).Adjacent := by
  induction n with
  | zero => exact adjacent_reset s
  | succ n ih =>
    rw [run_succ]
    exact ih.step (inv_run env s n)

end Traced

end MicroRiscv
