import MicroRiscv.PipelineSlots

/-!
# Halting in the 4-stage core

Two properties of `cpu_finish_o`, and for each the states in which the core has it.

* It should be raised for the instruction in WB exactly when that instruction is EBREAK.
  The decoder compares `rd_p`, the rd field of the instruction ahead, in place of the rd
  field of its own word, and an rs1 index that its own `rs1_valid` keeps at zero.
* It should be final. The halt signal holds the PC, but the instructions behind the
  EBREAK are not squashed: they reach WB and take effect, and the signal goes low again.

Results:
1. `halts_iff_ebreak_iff`: the first property in every cycle of every run.
2. `step_halting`, `run_halting`: a halting word that fills the pipeline stays there.
3. `halt_precise_iff`: the second property.
-/

namespace MicroRiscv

open Pipeline Traced

/-! ## 1. The recognition of EBREAK -/

/-- `cpu_finish_o` is raised exactly for an EBREAK word in WB. -/
def Traced.HaltsIffEbreak (t : Traced) : Prop :=
  t.cpuFinishO = true ↔ ∃ f, t.wbSlot = some f ∧ f.word = ebreakWord

/-- Opcode, funct12 and funct3 of EBREAK: what the decoder compares of the word itself. -/
def LooksLikeEbreak (w : Word) : Prop :=
  opcode w = opcSystem ∧ funct12 w = 1#12 ∧ funct3 w = 0#3

/-- For a word that looks like EBREAK, the rd field of the word ahead is zero exactly
when its own fields rs1 and rd are. -/
def Traced.AheadAgrees (t : Traced) : Prop :=
  ∀ f, t.wbSlot = some f → LooksLikeEbreak f.word →
    ((rs1Field f.word = 0#5 ∧ rd f.word = 0#5) ↔ rd f.ahead = 0#5)

theorem looksLike_ebreakWord_iff (w : Word) :
    w = ebreakWord ↔ LooksLikeEbreak w ∧ rs1Field w = 0#5 ∧ rd w = 0#5 := by
  rw [eq_ebreakWord_iff]
  unfold LooksLikeEbreak
  tauto

/-- What the core raises `cpu_finish_o` for. -/
theorem cpuFinishO_iff {t : Traced} (h : t.Inv) :
    t.cpuFinishO = true ↔
      ∃ f, t.wbSlot = some f ∧ LooksLikeEbreak f.word ∧ rd f.ahead = 0#5 := by
  cases hwb : t.wbSlot with
  | none =>
    show t.exWb.cpuHaltExP = true ↔ _
    rw [(h.wbNone hwb).halt]
    simp
  | some f =>
    show t.exWb.cpuHaltExP = true ↔ _
    rw [h.wbSome f hwb]
    show f.ctrl.cpuHalt = true ↔ _
    unfold Fetched.ctrl
    rw [decoder_cpuHalt_iff]
    simp [LooksLikeEbreak, and_assoc]

/-- The word ahead is the one that was in WB in the cycle before; after a bubble there its
rd field is zero. -/
theorem wb_ahead {env : Env} {s : Pipeline} {n : Nat} {f : Fetched}
    (hwb : (run env s (n + 1)).wbSlot = some f) :
    (∃ g, (run env s n).wbSlot = some g ∧ f.ahead = g.word) ∨
      ((run env s n).wbSlot = none ∧ rd f.ahead = 0#5) := by
  have hadj := adjacent_run env s n
  rw [run_succ] at hwb
  cases hsrc : (run env s n).pcSrc with
  | true =>
    obtain ⟨hnone, _, _⟩ := step_slots_squash hsrc
    rw [hnone] at hwb
    cases hwb
  | false =>
    obtain ⟨hex, _, _⟩ := step_slots hsrc
    rw [hex] at hwb
    cases hprev : (run env s n).wbSlot with
    | none => exact .inr ⟨rfl, hadj.exFirst f hprev hwb⟩
    | some g =>
      obtain ⟨g', hg', hahead⟩ := hadj.ex g hprev
      rw [hwb] at hg'
      cases hg'
      exact .inl ⟨g, rfl, hahead⟩

/-- In every cycle of every run: `cpu_finish_o` is right exactly when the word ahead
agrees with the word in WB. -/
theorem halts_iff_ebreak_iff (env : Env) (s : Pipeline) (n : Nat) :
    (run env s n).HaltsIffEbreak ↔ (run env s n).AheadAgrees := by
  have hfin := cpuFinishO_iff (inv_run env s n)
  unfold HaltsIffEbreak AheadAgrees
  rw [hfin]
  cases hwb : (run env s n).wbSlot with
  | none => simp
  | some f =>
    simp only [Option.some.injEq, exists_eq_left', forall_eq', looksLike_ebreakWord_iff]
    tauto

/-- ADDI x1, x0, 1; EBREAK: the word ahead of the EBREAK has a destination register. -/
theorem ebreak_after_addi_ignored :
    ¬ ∀ (env : Env) (s : Pipeline) (n : Nat), (run env s n).HaltsIffEbreak := by
  intro h
  have hn := h Env.zero (Pipeline.ofProgram [0x00100093#32, ebreakWord]) 4
  have hfin : (run Env.zero (Pipeline.ofProgram [0x00100093#32, ebreakWord]) 4).cpuFinishO = true :=
    hn.mpr ⟨⟨4#32, ebreakWord, 0x00100093#32⟩, by decide, rfl⟩
  exact absurd hfin (by decide)

/-! ## 2. What happens after an EBREAK -/

/-- The first cycle in which `cpu_finish_o` is high. -/
def Traced.FirstFinish (env : Env) (s : Pipeline) (n : Nat) : Prop :=
  (run env s n).cpuFinishO = true ∧ ∀ k, k < n → (run env s k).cpuFinishO = false

/-- The instruction in WB writes no register, no memory and no `stdout`, and does not
advance the `stdin` pointer. -/
def Traced.Harmless (env : Env) (t : Traced) : Prop :=
  let e := t.effects env
  (e.regWrite = false ∨ e.rd = 0#5) ∧ (e.dataWe && memSel e.dataAddr) = false ∧
  (e.dataWe && stdoutSel e.dataAddr) = false ∧ (e.dataRe && stdinSel e.dataAddr) = false

/-- From cycle `n` on `cpu_finish_o` stays high and no later occupant of WB has an effect. -/
def Traced.HaltIsPrecise (env : Env) (s : Pipeline) (n : Nat) : Prop :=
  ∀ m, n < m → (run env s m).cpuFinishO = true ∧ (run env s m).Harmless env

/-- A word that the core takes for EBREAK and that names no destination register. -/
def IsHaltWord (w : Word) : Prop := LooksLikeEbreak w ∧ rd w = 0#5

/-- The words in WB, EX, ID and IF are all halting words. -/
structure Traced.HaltsFill (env : Env) (t : Traced) : Prop where
  wb : ∃ f, t.wbSlot = some f ∧ IsHaltWord f.word
  ex : ∃ f, t.exSlot = some f ∧ IsHaltWord f.word
  id : ∃ f, t.idSlot = some f ∧ IsHaltWord f.word
  fetch : IsHaltWord (t.instrRdata env)

/-- EX/WB registers that enable nothing. -/
structure ExWb.Disabled (b : ExWb) : Prop where
  branch : b.aluIsBranchExP = false
  jump : b.aluIsJumpExP = false
  memRead : b.aluMemReadExP = false
  memWrite : b.aluMemWriteExP = false
  regWrite : b.aluRegWriteExP = false

section Halting

variable {env : Env} {t : Traced}

/-- The EX/WB registers of an occupant that halts. -/
theorem disabled_of_ctrl {f : Fetched} (hctrl : f.ctrl = { cpuHalt := true })
    (read : RegIdx → Word) : (f.exWb read).Disabled := by
  constructor
  · show f.ctrl.aluIsBranch = false
    rw [hctrl]
  · show f.ctrl.aluIsJump = false
    rw [hctrl]
  · show f.ctrl.aluMemRead = false
    rw [hctrl]
  · show f.ctrl.aluMemWrite = false
    rw [hctrl]
  · show f.ctrl.aluRegWrite = false
    rw [hctrl]

/-- While `cpu_finish_o` is high the instruction in WB does nothing but halt. -/
theorem disabled_of_finish (h : t.Inv) (hfin : t.cpuFinishO = true) : t.exWb.Disabled := by
  obtain ⟨f, hwb, ⟨ho, h12, h3⟩, hrd⟩ := (cpuFinishO_iff h).mp hfin
  rw [h.wbSome f hwb]
  exact disabled_of_ctrl (decoder_of_cpuHalt (decoder_cpuHalt_iff.mpr ⟨ho, h12, h3, hrd⟩)) _

theorem pcSrc_of_finish (h : t.Inv) (hfin : t.cpuFinishO = true) : t.pcSrc = false := by
  have hoff := disabled_of_finish h hfin
  unfold Pipeline.pcSrc
  rw [hoff.branch, hoff.jump, pcSrc_off]

theorem harmless_of_finish (h : t.Inv) (hfin : t.cpuFinishO = true) : t.Harmless env := by
  have hoff := disabled_of_finish h hfin
  refine ⟨.inl hoff.regWrite, ?_, ?_, ?_⟩
  · show (t.exWb.aluMemWriteExP && _) = false
    rw [hoff.memWrite, Bool.false_and]
  · show (t.exWb.aluMemWriteExP && _) = false
    rw [hoff.memWrite, Bool.false_and]
  · show (t.exWb.aluMemReadExP && _) = false
    rw [hoff.memRead, Bool.false_and]

/-- The fetch is the same one cycle later: the PC is held and memory is not written. -/
theorem fetch_of_finish (h : t.Inv) (hfin : t.cpuFinishO = true) :
    (t.step env).instrRdata env = t.instrRdata env := by
  have hoff := disabled_of_finish h hfin
  have hpc : (t.step env).pcP = t.pcP := by
    show pcMux t.cpuFinishO _ _ _ _ = t.pcP
    rw [hfin]
    rfl
  have hplat : (t.step env).plat = t.plat := by
    show t.plat.tick t.exWb.aluMemReadExP t.exWb.aluMemWriteExP _ _ = t.plat
    rw [hoff.memRead, hoff.memWrite, tick_idle]
  unfold Pipeline.instrRdata
  rw [hpc, hplat]

/-- Halting words that fill the pipeline go on doing so, and `cpu_finish_o` stays high. -/
theorem step_halting (h : t.Inv) (ha : t.Adjacent) (hfin : t.cpuFinishO = true)
    (hfill : t.HaltsFill env) :
    (t.step env).cpuFinishO = true ∧ (t.step env).HaltsFill env := by
  obtain ⟨hwb, hex, hid⟩ := step_slots (pcSrc_of_finish h hfin)
  obtain ⟨f, hf, hfw⟩ := hfill.wb
  obtain ⟨g, hg, hgw⟩ := hfill.ex
  constructor
  · rw [cpuFinishO_iff h.step]
    obtain ⟨g', hg', hahead⟩ := ha.ex f hf
    rw [hg] at hg'
    cases hg'
    exact ⟨g, hwb.trans hg, hgw.1, hahead ▸ hfw.2⟩
  · refine ⟨⟨g, hwb.trans hg, hgw⟩, ?_, ⟨t.fetched env, hid, hfill.fetch⟩, ?_⟩
    · rw [hex]
      exact hfill.id
    · rw [fetch_of_finish h hfin]
      exact hfill.fetch

/-- When `cpu_finish_o` is high in two cycles in a row, the first one is due to a halting
word that names no destination register. -/
theorem wb_isHaltWord (h : t.Inv) (ha : t.Adjacent) (hfin : t.cpuFinishO = true)
    (hnext : (t.step env).cpuFinishO = true) :
    ∃ f, t.wbSlot = some f ∧ IsHaltWord f.word := by
  obtain ⟨f, hf, hlook, _⟩ := (cpuFinishO_iff h).mp hfin
  obtain ⟨g, hg, _, hrd⟩ := (cpuFinishO_iff h.step).mp hnext
  obtain ⟨hwb, _, _⟩ := step_slots (pcSrc_of_finish h hfin)
  obtain ⟨g', hg', hahead⟩ := ha.ex f hf
  rw [hwb, hg'] at hg
  cases hg
  exact ⟨f, hf, hlook, hahead ▸ hrd⟩

/-- A run of halting words. -/
theorem run_halting {s : Pipeline} {n : Nat} (hfin : (run env s n).cpuFinishO = true)
    (hfill : (run env s n).HaltsFill env) (d : Nat) :
    (run env s (n + d)).cpuFinishO = true ∧ (run env s (n + d)).HaltsFill env := by
  induction d with
  | zero => exact ⟨hfin, hfill⟩
  | succ d ih =>
    rw [← Nat.add_assoc, run_succ]
    exact step_halting (inv_run env s (n + d)) (adjacent_run env s (n + d)) ih.1 ih.2

/-- Halting is precise exactly when the three words behind the EBREAK are halting words
too and none of the four names a destination register. -/
theorem halt_precise_iff {s : Pipeline} {n : Nat} (hn : FirstFinish env s n) :
    HaltIsPrecise env s n ↔ (run env s n).HaltsFill env := by
  constructor
  · intro hprec
    have hfin : ∀ d, (run env s (n + d)).cpuFinishO = true := by
      intro d
      cases d with
      | zero => exact hn.1
      | succ d => exact (hprec (n + (d + 1)) (by omega)).1
    have hwb : ∀ d, ∃ f, (run env s (n + d)).wbSlot = some f ∧ IsHaltWord f.word := by
      intro d
      have hnext : ((run env s (n + d)).step env).cpuFinishO = true := by
        rw [← run_succ]
        exact hfin (d + 1)
      exact wb_isHaltWord (inv_run env s (n + d)) (adjacent_run env s (n + d)) (hfin d) hnext
    have hslots : ∀ d, (run env s (n + (d + 1))).wbSlot = (run env s (n + d)).exSlot ∧
        (run env s (n + (d + 1))).exSlot = (run env s (n + d)).idSlot ∧
        (run env s (n + (d + 1))).idSlot = some ((run env s (n + d)).fetched env) := by
      intro d
      rw [← Nat.add_assoc, run_succ]
      exact step_slots (pcSrc_of_finish (inv_run env s (n + d)) (hfin d))
    -- the word in EX, ID or IF at cycle n is the one in WB one, two or three cycles later
    refine ⟨hwb 0, ?_, ?_, ?_⟩
    · obtain ⟨f, hf, hw⟩ := hwb 1
      exact ⟨f, (hslots 0).1.symm.trans hf, hw⟩
    · obtain ⟨f, hf, hw⟩ := hwb 2
      exact ⟨f, (hslots 0).2.1.symm.trans ((hslots 1).1.symm.trans hf), hw⟩
    · obtain ⟨f, hf, hw⟩ := hwb 3
      have hid := (hslots 1).2.1.symm.trans ((hslots 2).1.symm.trans hf)
      rw [(hslots 0).2.2] at hid
      cases hid
      exact hw
  · intro hfill m hm
    obtain ⟨d, rfl⟩ := Nat.exists_eq_add_of_lt hm
    have hrun := run_halting hn.1 hfill (d + 1)
    exact ⟨hrun.1, harmless_of_finish (inv_run env s (n + d + 1)) hrun.1⟩

end Halting

/-- Four EBREAKs in a row fill the pipeline. -/
theorem halt_precise_ebreaks :
    HaltIsPrecise Env.zero (Pipeline.ofProgram (List.replicate 4 ebreakWord)) 3 := by
  have hn : FirstFinish Env.zero (Pipeline.ofProgram (List.replicate 4 ebreakWord)) 3 :=
    ⟨by decide, by decide⟩
  have hword : IsHaltWord ebreakWord := ⟨⟨by decide, by decide, by decide⟩, by decide⟩
  have hfill :
      (run Env.zero (Pipeline.ofProgram (List.replicate 4 ebreakWord)) 3).HaltsFill Env.zero := by
    refine ⟨⟨⟨0#32, ebreakWord, 0#32⟩, by decide, hword⟩,
      ⟨⟨4#32, ebreakWord, ebreakWord⟩, by decide, hword⟩,
      ⟨⟨8#32, ebreakWord, ebreakWord⟩, by decide, hword⟩, ?_⟩
    have hfetch : (run Env.zero (Pipeline.ofProgram (List.replicate 4 ebreakWord)) 3).instrRdata
        Env.zero = ebreakWord := by decide
    rw [hfetch]
    exact hword
  exact (halt_precise_iff hn).mpr hfill

/-- EBREAK; ADDI x1, x0, 5: the addition behind the EBREAK writes x1. -/
theorem addi_after_ebreak_executed :
    ¬ ∀ (env : Env) (s : Pipeline) (n : Nat), FirstFinish env s n → HaltIsPrecise env s n := by
  intro h
  have hn : FirstFinish Env.zero (Pipeline.ofProgram [ebreakWord, 0x00500093#32]) 3 :=
    ⟨by decide, by decide⟩
  obtain ⟨_, hwrite, _⟩ := h _ _ _ hn 4 (by decide)
  exact absurd hwrite (by decide)

end MicroRiscv
