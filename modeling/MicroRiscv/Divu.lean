import MicroRiscv.Decoder

/-!
# DIVU in the single-cycle core

While a division runs the core stalls, but the register file is written in every cycle
of the stall, with the ALU result `rs1 + rs2`. The divider samples the dividend once and
the divisor in every cycle. So the quotient is that of a moving divisor when `rd` is the
register of the divisor, and the right one otherwise.

Results:
1. `step_divu`: one clock edge while a DIVU is fetched.
2. `run_busy`, `run_done`, `run_stuck`: a division as repeated subtraction.
3. `divu_start_exists`: every fetched DIVU was started with an idle divider.
4. `keepsQuotient_doubling_iff`, `keepsQuotient_adding_iff`: what `KeepsQuotient` says for
   `rd = rs1 = rs2`, and for a dividend below the divisor or a small sum of the two.
5. `divu_correct_iff`: a DIVU is right exactly when `KeepsQuotient` holds.
-/

namespace MicroRiscv

open RepeatedSubtraction

namespace SingleCycle

/-! ## 1. One clock edge -/

/-- The word fetched in the state `s`. -/
def instruction (env : Env) (s : SingleCycle) : Word := instrRdata env s.plat s.pcP

def FetchesDivu (env : Env) (s : SingleCycle) : Prop :=
  Mnemonic.divu.IsEncoding (s.instruction env)

/-- The low byte of a register. -/
def lowByte (v : Word) : BitVec 8 := v.extractLsb' 0 8

/-- The byte of rs1 that a fetched DIVU divides. -/
def dividendByte (env : Env) (s : SingleCycle) : BitVec 8 :=
  lowByte (s.xP (rs1Field (s.instruction env)))

/-- The byte of rs2 that a fetched DIVU divides by. -/
def divisorByte (env : Env) (s : SingleCycle) : BitVec 8 :=
  lowByte (s.xP (rs2Field (s.instruction env)))

/-- The register write of a stall cycle. -/
def stallWrite (w : Word) (x : RegIdx → Word) : RegIdx → Word :=
  regFileN x true (rd w) (x (rs1Field w) + x (rs2Field w))

section Step

variable {env : Env} {s : SingleCycle}

theorem signals_divu (h : s.FetchesDivu env) : (s.signals env).ctrl = Mnemonic.divu.ctrl :=
  decoder_of_accepts (m := .divu) ⟨rfl, h⟩

theorem regData1_divu (h : s.FetchesDivu env) :
    (s.signals env).regData1 = s.xP (rs1Field (s.instruction env)) := by
  show s.xP (rs1 (s.signals env).ctrl _) = _
  rw [signals_divu h]
  rfl

theorem regData2_divu (h : s.FetchesDivu env) :
    (s.signals env).regData2 = s.xP (rs2Field (s.instruction env)) := by
  show s.xP (rs2 (s.signals env).ctrl _) = _
  rw [signals_divu h]
  rfl

theorem step_divu_pcP (h : s.FetchesDivu env) :
    (s.step env).pcP = if s.div.finishO then s.pcP + 4#32 else s.pcP := by
  have hsrc : (s.signals env).pcSrc = false := signals_pcSrc_off (signals_divu h) rfl rfl
  show s.pcN env = _
  simp only [pcN, pcStall, signals_divu h, hsrc]
  cases s.div.finishO <;> rfl

theorem step_divu_plat (h : s.FetchesDivu env) : (s.step env).plat = s.plat := by
  show s.plat.tick (s.signals env).ctrl.aluMemRead (s.signals env).ctrl.aluMemWrite _ _ = s.plat
  rw [signals_divu h]
  exact tick_idle _ _ _

theorem step_divu_div (h : s.FetchesDivu env) :
    (s.step env).div = s.div.step true (s.dividendByte env) (s.divisorByte env) := by
  unfold dividendByte divisorByte
  rw [← regData1_divu h, ← regData2_divu h]
  show s.div.step (s.signals env).ctrl.startI _ _ = _
  rw [signals_divu h]
  rfl

/-- The register write: the sum of the operands until the division has finished. -/
theorem step_divu_xP (h : s.FetchesDivu env) :
    (s.step env).xP =
      if s.div.finishO then
        regFileN s.xP true (rd (s.instruction env)) (quotientData s.div.quotientO)
      else stallWrite (s.instruction env) s.xP := by
  have hsum : (s.signals env).regWriteData =
      s.xP (rs1Field (s.instruction env)) + s.xP (rs2Field (s.instruction env)) := by
    rw [← regData1_divu h, ← regData2_divu h]
    show regWriteData (s.signals env).ctrl.memToReg (s.signals env).ctrl.aluIsJump _
      (aluResult (s.signals env).ctrl.aluOperator (s.signals env).regData1
        (aluData2 (s.signals env).ctrl.aluSrc _ (s.signals env).regData2)) _ = _
    rw [signals_divu h]
    rfl
  show regFileN s.xP (s.signals env).ctrl.aluRegWrite (rd (s.instruction env)) (s.writeData env) = _
  simp only [writeData, signals_divu h, hsum]
  cases s.div.finishO <;> rfl

/-- Until the division has finished the same DIVU is fetched again. -/
theorem step_divu_stall (h : s.FetchesDivu env) (hf : s.div.finishO = false) :
    (s.step env).pcP = s.pcP ∧ (s.step env).xP = stallWrite (s.instruction env) s.xP ∧
    (s.step env).instruction env = s.instruction env := by
  have hpc := step_divu_pcP h
  have hx := step_divu_xP h
  rw [hf] at hpc hx
  refine ⟨hpc, hx, ?_⟩
  show instrRdata env (s.step env).plat (s.step env).pcP = _
  rw [step_divu_plat h, hpc]
  rfl

end Step

/-! ## 2. A division from its start -/

/-- The divisor byte that the divider meets in the `k`-th cycle after the start. -/
def divisorAt (w : Word) (x : RegIdx → Word) (k : Nat) : Nat :=
  (lowByte ((stallWrite w)^[k] x (rs2Field w))).toNat

/-- The divisors of the division that starts in the state `s`. -/
def divisors (env : Env) (s : SingleCycle) : Nat → Nat := divisorAt (s.instruction env) s.xP

/-- `k` cycles after its start in `s` the DIVU is still stalled. -/
structure Stalled (env : Env) (s : SingleCycle) (k : Nat) (s' : SingleCycle) : Prop where
  pcP : s'.pcP = s.pcP
  plat : s'.plat = s.plat
  xP : s'.xP = (stallWrite (s.instruction env))^[k] s.xP

section Division

variable {env : Env} {s s' : SingleCycle} {k : Nat}

theorem Stalled.zero (env : Env) (s : SingleCycle) : Stalled env s 0 s := ⟨rfl, rfl, rfl⟩

theorem Stalled.instruction_eq (h : Stalled env s k s') :
    s'.instruction env = s.instruction env := by
  unfold instruction
  rw [h.pcP, h.plat]

theorem Stalled.fetches (h : Stalled env s k s') (hs : s.FetchesDivu env) :
    s'.FetchesDivu env := by
  unfold FetchesDivu
  rw [h.instruction_eq]
  exact hs

/-- One more stall cycle. -/
theorem Stalled.step (h : Stalled env s k s') (hs : s.FetchesDivu env)
    (hf : s'.div.finishO = false) : Stalled env s (k + 1) (s'.step env) := by
  obtain ⟨hpc, hx, _⟩ := step_divu_stall (h.fetches hs) hf
  refine ⟨hpc.trans h.pcP, (step_divu_plat (h.fetches hs)).trans h.plat, ?_⟩
  rw [hx, h.instruction_eq, h.xP, Function.iterate_succ_apply']

/-- The divider's operands in the `k`-th cycle. -/
theorem Stalled.step_div (h : Stalled env s k s') (hs : s.FetchesDivu env) :
    ∃ x y, (s'.step env).div = s'.div.step true x y ∧
      y.toNat = s.divisors env k := by
  have hdiv := step_divu_div (h.fetches hs)
  refine ⟨_, _, hdiv, ?_⟩
  unfold divisorByte
  rw [h.instruction_eq, h.xP]
  rfl

/-- The state after the cycle that starts a division by a nonzero byte. -/
theorem run_start (hs : s.FetchesDivu env) (hi : s.div.stateP = .init)
    (hb : s.divisorByte env ≠ 0#8) :
    Stalled env s 1 (s.step env) ∧
    (s.step env).div.Running (s.divisors env) (s.dividendByte env).toNat 0 := by
  refine ⟨(Stalled.zero env s).step hs (Divider.finishO_of_init hi), ?_⟩
  rw [step_divu_div hs]
  exact Divider.running_start hi _ _ hb

/-- The busy cycles: after `k` of them `k` divisors have been subtracted. -/
theorem run_busy (hs : s.FetchesDivu env) (hi : s.div.stateP = .init)
    (hb : s.divisorByte env ≠ 0#8)
    (hc : ∀ i, 1 ≤ i → i ≤ k → Continues (s.divisors env) (s.dividendByte env).toNat i) :
    Stalled env s (k + 1) ((SingleCycle.step env)^[k + 1] s) ∧
    ((SingleCycle.step env)^[k + 1] s).div.Running (s.divisors env) (s.dividendByte env).toNat k := by
  induction k with
  | zero => exact run_start hs hi hb
  | succ k ih =>
    obtain ⟨hst, hrun⟩ := ih fun i h1 hk => hc i h1 (by omega)
    rw [Function.iterate_succ_apply']
    obtain ⟨x, y, hdiv, hy⟩ := hst.step_div hs
    refine ⟨hst.step hs (Divider.finishO_of_busy hrun.busy), ?_⟩
    rw [hdiv]
    exact hrun.step_continues true x hy (hc (k + 1) (by omega) (Nat.le_refl _))

/-- The last busy cycle. -/
theorem run_finish (hs : s.FetchesDivu env) (hi : s.div.stateP = .init)
    (hb : s.divisorByte env ≠ 0#8)
    (hstop : Stops (s.divisors env) (s.dividendByte env).toNat k) :
    Stalled env s (k + 1) ((SingleCycle.step env)^[k + 1] s) ∧
    ((SingleCycle.step env)^[k + 1] s).div.stateP = .finish ∧
    ((SingleCycle.step env)^[k + 1] s).div.quotientP =
      BitVec.ofNat 9 (count (s.divisors env) (s.dividendByte env).toNat k) := by
  obtain ⟨j, rfl⟩ := Nat.exists_eq_add_of_le' hstop.pos
  obtain ⟨hst, hrun⟩ := run_busy (k := j) hs hi hb fun i h1 hj => hstop.before i h1 (by omega)
  rw [Function.iterate_succ_apply']
  obtain ⟨x, y, hdiv, hy⟩ := hst.step_div hs
  refine ⟨hst.step hs (Divider.finishO_of_busy hrun.busy), ?_⟩
  rw [hdiv]
  exact hrun.step_stops true x hy hstop.last

/-! ## 3. The divisors a division meets -/

/-- A stall cycle writes `rd` only. -/
theorem stallWrite_other {w : Word} {x : RegIdx → Word} {i : RegIdx} (h0 : x 0#5 = 0#32)
    (h : rd w = 0#5 ∨ rd w ≠ i) : stallWrite w x i = x i := by
  unfold stallWrite
  rcases h with hx0 | hne
  · rw [hx0, regFileN_x0 h0]
  · unfold regFileN
    split
    · next hi => rw [hi, h0]
    · rw [if_neg fun hw => hne hw.1]

theorem stallWrite_rd {w : Word} (x : RegIdx → Word) (h : rd w ≠ 0#5) :
    stallWrite w x (rd w) = x (rs1Field w) + x (rs2Field w) := by
  unfold stallWrite regFileN
  rw [if_neg h, if_pos ⟨rfl, rfl⟩]

theorem stallWrite_x0 (w : Word) (x : RegIdx → Word) : stallWrite w x 0#5 = 0#32 :=
  regFileN_zero _ _ _ _

/-- Nor do several. -/
theorem stallWrite_iterate_other {w : Word} {x : RegIdx → Word} {i : RegIdx}
    (h0 : x 0#5 = 0#32) (h : rd w = 0#5 ∨ rd w ≠ i) (k : Nat) :
    (stallWrite w)^[k] x i = x i ∧ (stallWrite w)^[k] x 0#5 = 0#32 := by
  induction k with
  | zero => exact ⟨rfl, h0⟩
  | succ k ih =>
    rw [Function.iterate_succ_apply']
    exact ⟨(stallWrite_other ih.2 h).trans ih.1, stallWrite_x0 _ _⟩

theorem lowByte_add (u v : Word) :
    (lowByte (u + v)).toNat = ((lowByte u).toNat + (lowByte v).toNat) % 256 := by
  simp only [lowByte, BitVec.extractLsb'_toNat, BitVec.toNat_add, Nat.shiftRight_zero]
  omega

/-- The divisor of a division whose destination is the divisor's register: every stall
cycle adds the dividend to it, or doubles it when the dividend is the same register. -/
def movingDivisor (w : Word) (a b k : Nat) : Nat :=
  if rs1Field w = rs2Field w then 2 ^ k * b % 256 else (b + k * a) % 256

section Divisors

variable {w : Word} {x : RegIdx → Word}

theorem divisorAt_fixed (h0 : x 0#5 = 0#32) (h : rd w = 0#5 ∨ rd w ≠ rs2Field w) :
    divisorAt w x = fun _ => (lowByte (x (rs2Field w))).toNat := by
  funext k
  unfold divisorAt
  rw [(stallWrite_iterate_other h0 h k).1]

theorem divisorAt_moving (h0 : x 0#5 = 0#32) (hrd : rd w ≠ 0#5) (h2 : rd w = rs2Field w) :
    divisorAt w x =
      movingDivisor w (lowByte (x (rs1Field w))).toNat (lowByte (x (rs2Field w))).toNat := by
  have hlt : (lowByte (x (rs2Field w))).toNat < 256 := (lowByte (x (rs2Field w))).isLt
  funext k
  induction k with
  | zero =>
    unfold divisorAt movingDivisor
    split
    · simp [Nat.mod_eq_of_lt hlt]
    · simp [Nat.mod_eq_of_lt hlt]
  | succ k ih =>
    have hnext : divisorAt w x (k + 1) =
        ((lowByte ((stallWrite w)^[k] x (rs1Field w))).toNat + divisorAt w x k) % 256 := by
      unfold divisorAt
      rw [Function.iterate_succ_apply', ← h2, stallWrite_rd _ hrd, lowByte_add, h2]
    rw [hnext]
    by_cases h12 : rs1Field w = rs2Field w
    · have hdouble : (lowByte ((stallWrite w)^[k] x (rs1Field w))).toNat = divisorAt w x k := by
        rw [h12]
        rfl
      rw [hdouble, ih]
      unfold movingDivisor
      rw [if_pos h12, if_pos h12, Nat.pow_succ', Nat.mul_assoc]
      omega
    · have hother : rd w ≠ rs1Field w := by
        rw [h2]
        exact fun he => h12 he.symm
      rw [(stallWrite_iterate_other h0 (.inr hother) k).1, ih]
      unfold movingDivisor
      rw [if_neg h12, if_neg h12, Nat.succ_mul]
      omega

/-- The 9-bit quotient does not wrap around. A moving divisor is zero in at most every
second cycle when it is the sum with another register, and a doubled one is zero from the
eighth cycle on, where the division would no longer end. -/
theorem count_lt (h0 : x 0#5 = 0#32) (hb : lowByte (x (rs2Field w)) ≠ 0#8) {k : Nat}
    (hs : Stops (divisorAt w x) (lowByte (x (rs1Field w))).toNat k) :
    count (divisorAt w x) (lowByte (x (rs1Field w))).toNat k < 512 := by
  have ha : (lowByte (x (rs1Field w))).toNat < 256 := (lowByte (x (rs1Field w))).isLt
  have hpos : 0 < (lowByte (x (rs2Field w))).toNat := by
    rw [Nat.pos_iff_ne_zero]
    exact fun hzero => hb (BitVec.eq_of_toNat_eq hzero)
  by_cases hfix : rd w = 0#5 ∨ rd w ≠ rs2Field w
  · apply hs.count_lt_of_pairs (m := 256) _ ha
    intro i _
    rw [divisorAt_fixed h0 hfix]
    exact Nat.le_add_right_of_le hpos
  · rw [not_or, Decidable.not_not] at hfix
    have hmoving := divisorAt_moving (x := x) h0 hfix.1 hfix.2
    by_cases h12 : rs1Field w = rs2Field w
    · have hd := hs.divisor_pos
      rw [hmoving, movingDivisor, if_pos h12] at hd
      have hk : k < 8 := by
        by_contra hge
        obtain ⟨j, rfl⟩ := Nat.exists_eq_add_of_le (Nat.le_of_not_lt hge)
        rw [Nat.pow_add, Nat.mul_assoc] at hd
        omega
      have := count_le (divisorAt w x) (lowByte (x (rs1Field w))).toNat k
      omega
    · apply hs.count_lt_of_pairs (m := 256) _ ha
      intro i _
      have hlt : (lowByte (x (rs2Field w))).toNat < 256 := (lowByte (x (rs2Field w))).isLt
      rw [hmoving]
      unfold movingDivisor
      rw [if_neg h12, if_neg h12, Nat.succ_mul]
      -- two zeros in a row would make the dividend, and with it every divisor, zero
      rcases Nat.eq_zero_or_pos (lowByte (x (rs1Field w))).toNat with hzero | hpos
      · rw [hzero]
        omega
      · omega

end Divisors

/-! ## 4. When a DIVU is right -/

/-- What DIVU leaves in `rd`. -/
def divuValue (a b : BitVec 8) : Word :=
  if b = 0#8 then 0xffffffff#32 else (a / b).setWidth 32

/-- The instruction whose start is the state `s` ends in the state `s'`. -/
structure DivuDone (env : Env) (s s' : SingleCycle) : Prop where
  pcP : s'.pcP = s.pcP + 4#32
  xP : s'.xP =
    regFileN s.xP true (rd (s.instruction env)) (divuValue (s.dividendByte env) (s.divisorByte env))
  plat : s'.plat = s.plat
  init : s'.div.stateP = .init

/-- The core stays on the DIVU for finitely many cycles and is then done with it. -/
def DivuCorrect (env : Env) (s : SingleCycle) : Prop :=
  ∃ m, (∀ j, j < m → ((SingleCycle.step env)^[j] s).pcP = s.pcP) ∧
    DivuDone env s ((SingleCycle.step env)^[m] s)

/-- The operands for which the quotient is that of the registers the DIVU started with:
`rd` is not the divisor's register, the divisor is zero, or the moving divisor fits into
the dividend exactly as often as the first one. -/
def KeepsQuotient (env : Env) (s : SingleCycle) : Prop :=
  let w := s.instruction env
  let a := (s.dividendByte env).toNat
  let b := (s.divisorByte env).toNat
  rd w = 0#5 ∨ rd w ≠ rs2Field w ∨ b = 0 ∨ Counts (movingDivisor w a b) a (a / b)

theorem quotientData_eq_iff {a b : BitVec 8} (hb : b ≠ 0#8) {q : Nat} (hq : q < 512) :
    quotientData (BitVec.ofNat 9 q) = divuValue a b ↔ q = a.toNat / b.toNat := by
  have hle : a.toNat / b.toNat < 256 := Nat.lt_of_le_of_lt (Nat.div_le_self _ _) a.isLt
  have hvalue : (divuValue a b).toNat = a.toNat / b.toNat := by
    unfold divuValue
    rw [if_neg hb, BitVec.toNat_setWidth, BitVec.toNat_udiv]
    exact Nat.mod_eq_of_lt (Nat.lt_trans hle (by decide))
  have hquot : (quotientData (BitVec.ofNat 9 q)).toNat = if q = 511 then 0xffffffff else q := by
    unfold quotientData
    by_cases h511 : q = 511
    · subst h511
      rfl
    · have hne : BitVec.ofNat 9 q ≠ 0x1ff#9 := by
        intro he
        have := congrArg BitVec.toNat he
        simp only [BitVec.toNat_ofNat] at this
        omega
      rw [if_neg hne, if_neg h511, BitVec.toNat_append]
      simp [Nat.mod_eq_of_lt hq]
  rw [← BitVec.toNat_inj, hvalue, hquot]
  split
  · omega
  · exact Iff.rfl

/-- The state after the cycle in which the divider has finished. -/
theorem run_done (h0 : s.xP 0#5 = 0#32) (hs : s.FetchesDivu env) (hst : Stalled env s k s')
    (hf : s'.div.stateP = .finish) :
    (s'.step env).pcP = s.pcP + 4#32 ∧ (s'.step env).plat = s.plat ∧
    (s'.step env).div.stateP = .init ∧
    (s'.step env).xP =
      regFileN s.xP true (rd (s.instruction env)) (quotientData s'.div.quotientP) := by
  have hdone : s'.div.finishO = true := Divider.finishO_of_finish hf
  have hs' := hst.fetches hs
  refine ⟨?_, (step_divu_plat hs').trans hst.plat, ?_, ?_⟩
  · rw [step_divu_pcP hs', hdone, hst.pcP]
    rfl
  · rw [step_divu_div hs']
    exact Divider.step_finish_stateP hf _ _ _
  · rw [step_divu_xP hs', hdone, hst.instruction_eq, hst.xP]
    -- the sums written during the stall are overwritten by the quotient
    funext i
    show regFileN _ true _ _ i = _
    unfold regFileN
    split
    · rfl
    · split
      · rfl
      · next hi =>
        have hne : rd (s.instruction env) ≠ i := fun he => hi ⟨he, rfl⟩
        exact (stallWrite_iterate_other h0 (.inr hne) k).1

theorem pcP_add_four_ne (pc : Word) : pc + 4#32 ≠ pc := by
  rw [Ne, add_eq_left]
  decide

/-- While no round ends the division the PC stays. -/
theorem run_stays (hs : s.FetchesDivu env) (hi : s.div.stateP = .init)
    (hb : s.divisorByte env ≠ 0#8)
    (hc : ∀ i, 1 ≤ i → i < k → Continues (s.divisors env) (s.dividendByte env).toNat i) :
    ((SingleCycle.step env)^[k] s).pcP = s.pcP := by
  cases k with
  | zero => rfl
  | succ k => exact (run_busy hs hi hb fun i h1 hle => hc i h1 (Nat.lt_succ_of_le hle)).1.pcP

/-- When round `k` ends the division, the instruction ends two cycles later, and it has
then done the right thing exactly when the count is the quotient or nobody sees it. -/
theorem run_stops (h0 : s.xP 0#5 = 0#32) (hs : s.FetchesDivu env) (hi : s.div.stateP = .init)
    (hb : s.divisorByte env ≠ 0#8)
    (hstop : Stops (s.divisors env) (s.dividendByte env).toNat k) :
    (∀ j, j < k + 2 → ((SingleCycle.step env)^[j] s).pcP = s.pcP) ∧
    ((SingleCycle.step env)^[k + 2] s).pcP = s.pcP + 4#32 ∧
    (DivuDone env s ((SingleCycle.step env)^[k + 2] s) ↔ rd (s.instruction env) = 0#5 ∨
      count (s.divisors env) (s.dividendByte env).toNat k =
        (s.dividendByte env).toNat / (s.divisorByte env).toNat) := by
  obtain ⟨hst, hfin, hquot⟩ := run_finish hs hi hb hstop
  obtain ⟨hpc, hplat, hinit, hx⟩ := run_done h0 hs hst hfin
  rw [hquot] at hx
  have hlt : count (s.divisors env) (s.dividendByte env).toNat k < 512 :=
    count_lt h0 hb hstop
  rw [Function.iterate_succ_apply']
  refine ⟨?_, hpc, ?_⟩
  · intro j hj
    rcases Nat.lt_succ_iff_lt_or_eq.mp hj with hlt | rfl
    · exact run_stays hs hi hb fun i h1 hij =>
        hstop.before i h1 (Nat.lt_of_lt_of_le hij (Nat.le_of_lt_succ hlt))
    · exact hst.pcP
  · rw [← quotientData_eq_iff hb hlt, ← regFileN_eq_iff s.xP]
    exact ⟨fun hd => hx.symm.trans hd.xP, fun he => ⟨hpc, hx.trans he, hplat, hinit⟩⟩

/-- A division by a nonzero byte is right exactly when it ends with the right count. -/
theorem divuCorrect_iff_stops (h0 : s.xP 0#5 = 0#32) (hs : s.FetchesDivu env)
    (hi : s.div.stateP = .init) (hb : s.divisorByte env ≠ 0#8) :
    DivuCorrect env s ↔
      ∃ k, Stops (s.divisors env) (s.dividendByte env).toNat k ∧
        (rd (s.instruction env) = 0#5 ∨
          count (s.divisors env) (s.dividendByte env).toNat k =
            (s.dividendByte env).toNat / (s.divisorByte env).toNat) := by
  constructor
  · rintro ⟨m, hstays, hdone⟩
    rcases stops_or_continues (s.divisors env) (s.dividendByte env).toNat with ⟨k, hstop⟩ | hall
    · obtain ⟨hbefore, hpc, hiff⟩ := run_stops h0 hs hi hb hstop
      -- the PC moves in cycle k + 2 and in cycle m, and not before either
      have hm : m = k + 2 := by
        rcases Nat.lt_trichotomy m (k + 2) with hlt | heq | hgt
        · exact absurd (hdone.pcP.symm.trans (hbefore m hlt)) (pcP_add_four_ne _)
        · exact heq
        · exact absurd (hpc.symm.trans (hstays (k + 2) hgt)) (pcP_add_four_ne _)
      subst hm
      exact ⟨k, hstop, hiff.mp hdone⟩
    · have hstay := run_stays (k := m) hs hi hb fun i h1 _ => hall i h1
      exact absurd (hdone.pcP.symm.trans hstay) (pcP_add_four_ne _)
  · rintro ⟨k, hstop, hq⟩
    obtain ⟨hbefore, _, hiff⟩ := run_stops h0 hs hi hb hstop
    exact ⟨k + 2, hbefore, hiff.mpr hq⟩

/-- A division by zero is done after two cycles. -/
theorem divuDone_of_zero (h0 : s.xP 0#5 = 0#32) (hs : s.FetchesDivu env)
    (hi : s.div.stateP = .init) (hb : s.divisorByte env = 0#8) :
    (∀ j, j < 2 → ((SingleCycle.step env)^[j] s).pcP = s.pcP) ∧
    DivuDone env s ((SingleCycle.step env)^[2] s) := by
  have hst : Stalled env s 1 (s.step env) :=
    (Stalled.zero env s).step hs (Divider.finishO_of_init hi)
  have hdiv := step_divu_div hs
  rw [hb] at hdiv
  obtain ⟨hfin, hquot⟩ := Divider.step_start_zero hi (s.dividendByte env)
  rw [← hdiv] at hfin hquot
  obtain ⟨hpc, hplat, hinit, hx⟩ := run_done h0 hs hst hfin
  refine ⟨fun j hj => ?_, hpc, ?_, hplat, hinit⟩
  · match j with
    | 0 => rfl
    | 1 => exact hst.pcP
  · show ((s.step env).step env).xP = _
    rw [hx, hquot, hb]
    rfl

/-- A division by zero is right for all registers. -/
theorem divuCorrect_of_zero (h0 : s.xP 0#5 = 0#32) (hs : s.FetchesDivu env)
    (hi : s.div.stateP = .init) (hb : s.divisorByte env = 0#8) : DivuCorrect env s :=
  ⟨2, divuDone_of_zero h0 hs hi hb⟩

/-- From its start a DIVU is right exactly for the operands that keep the quotient. -/
theorem divuCorrect_iff (h0 : s.xP 0#5 = 0#32) (hs : s.FetchesDivu env)
    (hi : s.div.stateP = .init) : DivuCorrect env s ↔ KeepsQuotient env s := by
  have hbyte : (s.divisorByte env).toNat = 0 ↔ s.divisorByte env = 0#8 := by
    rw [← BitVec.toNat_inj]
    rfl
  unfold KeepsQuotient
  by_cases hb : s.divisorByte env = 0#8
  · exact iff_of_true (divuCorrect_of_zero h0 hs hi hb) (.inr (.inr (.inl (hbyte.mpr hb))))
  · rw [divuCorrect_iff_stops h0 hs hi hb]
    by_cases hfix : rd (s.instruction env) = 0#5 ∨
        rd (s.instruction env) ≠ rs2Field (s.instruction env)
    · have hpos : 0 < (s.divisorByte env).toNat :=
        Nat.pos_of_ne_zero fun hzero => hb (hbyte.mp hzero)
      have hfixed : s.divisors env = fun _ => (s.divisorByte env).toNat := divisorAt_fixed h0 hfix
      rw [hfixed]
      obtain ⟨k, hstop, hcount⟩ :=
        exists_stops_count_iff.mpr (counts_const hpos (s.dividendByte env).toNat)
      refine iff_of_true ⟨k, hstop, .inr hcount⟩ ?_
      rcases hfix with hx0 | hne
      · exact .inl hx0
      · exact .inr (.inl hne)
    · obtain ⟨hrd, h2⟩ := not_or.mp hfix
      rw [Decidable.not_not] at h2
      have hmoving : s.divisors env = movingDivisor (s.instruction env)
          (s.dividendByte env).toNat (s.divisorByte env).toNat := divisorAt_moving h0 hrd h2
      rw [hmoving]
      simp only [hrd, false_or, exists_stops_count_iff]
      constructor
      · exact fun hcounts => .inr (.inr hcounts)
      · rintro (hne | hzero | hcounts)
        · exact absurd h2 hne
        · exact absurd (hbyte.mp hzero) hb
        · exact hcounts

/-- The same register thrice: the doubled divisors end the division after one subtraction only
from 154 on. -/
theorem keepsQuotient_doubling_iff (hrd : rd (s.instruction env) ≠ 0#5)
    (h1 : rs1Field (s.instruction env) = rd (s.instruction env))
    (h2 : rs2Field (s.instruction env) = rd (s.instruction env)) :
    KeepsQuotient env s ↔ (s.divisorByte env).toNat = 0 ∨ 154 ≤ (s.divisorByte env).toNat := by
  have hsame : s.dividendByte env = s.divisorByte env := by
    unfold dividendByte divisorByte
    rw [h1, h2]
  have hlt := (s.divisorByte env).isLt
  have hmoving : movingDivisor (s.instruction env) (s.divisorByte env).toNat
      (s.divisorByte env).toNat = fun k => 2 ^ k * (s.divisorByte env).toNat % 256 := by
    funext k
    exact if_pos (h1.trans h2.symm)
  simp only [KeepsQuotient, hsame, hrd, ne_eq, h2, not_true_eq_false, false_or, hmoving]
  by_cases hzero : (s.divisorByte env).toNat = 0
  · exact iff_of_true (.inl hzero) (.inl hzero)
  · rw [Nat.div_self (Nat.pos_of_ne_zero hzero)]
    simp only [Counts, total_succ, total_zero]
    constructor
    · rintro (hz | ⟨-, hfit, hend⟩) <;> omega
    · rintro (hz | hle)
      · exact .inl hz
      · exact .inr ⟨fun i h1 hi => by omega, by omega, by omega⟩

/-- A dividend below the divisor keeps its quotient exactly if their sum, the first divisor that
is met, does not wrap around; no other dividend keeps it if the sum does not. -/
theorem keepsQuotient_adding_iff (hrd : rd (s.instruction env) ≠ 0#5)
    (h1 : rs1Field (s.instruction env) ≠ rd (s.instruction env))
    (h2 : rs2Field (s.instruction env) = rd (s.instruction env))
    (hsmall : (s.dividendByte env).toNat < (s.divisorByte env).toNat ∨
      (s.dividendByte env).toNat + (s.divisorByte env).toNat < 256) :
    KeepsQuotient env s ↔ (s.divisorByte env).toNat = 0 ∨
      ((s.dividendByte env).toNat < (s.divisorByte env).toNat ∧
        (s.dividendByte env).toNat + (s.divisorByte env).toNat < 256) := by
  have hlta := (s.dividendByte env).isLt
  have hltb := (s.divisorByte env).isLt
  have hmoving : movingDivisor (s.instruction env) (s.dividendByte env).toNat
      (s.divisorByte env).toNat =
      fun k => ((s.divisorByte env).toNat + k * (s.dividendByte env).toNat) % 256 := by
    funext k
    exact if_neg fun h12 => h1 (h12.trans h2)
  simp only [KeepsQuotient, hrd, ne_eq, h2, not_true_eq_false, false_or, hmoving]
  generalize (s.dividendByte env).toNat = a at *
  generalize (s.divisorByte env).toNat = b at *
  rcases Nat.eq_zero_or_pos b with hzero | hpos
  · exact iff_of_true (.inl hzero) (.inl hzero)
  · rw [or_iff_right hpos.ne', or_iff_right hpos.ne']
    rcases Nat.lt_or_ge a b with hlt | hge
    · rw [Nat.div_eq_of_lt hlt]
      simp only [Counts, total_succ, total_zero]
      constructor
      · rintro ⟨-, -, hend⟩
        omega
      · intro h
        exact ⟨fun i _ hi => absurd hi (Nat.not_lt_zero i), by omega, by omega⟩
    · -- the first sum alone exceeds the dividend
      refine iff_of_false (fun hcounts => ?_) fun h => absurd h.1 (Nat.not_lt.mpr hge)
      have hfit := Nat.le_trans (total_mono _ (Nat.div_pos hge hpos)) hcounts.2.1
      simp only [total_succ, total_zero] at hfit
      omega

end Division

/-! ## 5. Every DIVU has a start -/

theorem ctrl_startI_iff {env : Env} {s : SingleCycle} :
    (s.signals env).ctrl.startI = true ↔ s.FetchesDivu env := by
  constructor
  · intro hstart
    rcases decoder_spec true (rd (s.instruction env)) (s.instruction env) with
      ⟨m, hm, hctrl⟩ | ⟨_, hctrl⟩
    · have hdec : (s.signals env).ctrl = m.ctrl := hctrl
      rw [hdec] at hstart
      cases m <;> cases hstart
      exact hm.2
    · have hdec : (s.signals env).ctrl = { illegalInsn := true } := hctrl
      rw [hdec] at hstart
      cases hstart
  · intro h
    rw [signals_divu h]
    rfl

/-- The divider is only left running by a stalled DIVU. -/
theorem stalled_of_not_init {env : Env} {s : SingleCycle}
    (hnext : (s.step env).div.stateP ≠ .init)
    (hs : s.div.stateP ≠ .init → s.FetchesDivu env) :
    s.FetchesDivu env ∧ Stalled env s 1 (s.step env) := by
  have hfetch : s.FetchesDivu env := by
    by_cases hi : s.div.stateP = .init
    · rw [← ctrl_startI_iff]
      by_contra hoff
      rw [Bool.not_eq_true] at hoff
      apply hnext
      show (s.div.step (s.signals env).ctrl.startI _ _).stateP = .init
      rw [hoff]
      exact Divider.step_init_stateP hi _ _
    · exact hs hi
  have hfin : s.div.finishO = false := by
    rw [← Bool.not_eq_true]
    intro hfin
    apply hnext
    rw [step_divu_div hfetch]
    exact Divider.step_finish_stateP (of_decide_eq_true hfin) _ _ _
  exact ⟨hfetch, (Stalled.zero env s).step hfetch hfin⟩

/-- The DIVU in progress in cycle `n` was started in cycle `n0`: the divider was idle
then, and since then it is not and the PC has stayed. -/
structure StartOf (env : Env) (plat : Platform) (n0 n : Nat) : Prop where
  le : n0 ≤ n
  idle : (run env plat n0).div.stateP = .init
  fetches : (run env plat n0).FetchesDivu env
  stays : ∀ m, n0 < m → m ≤ n →
    (run env plat m).div.stateP ≠ .init ∧ (run env plat m).pcP = (run env plat n0).pcP

/-- In every cycle the divider is idle or works for the DIVU that is fetched. -/
theorem divu_start_exists (env : Env) (plat : Platform) (n : Nat) :
    (run env plat n).div.stateP = .init ∨
      ∃ n0, StartOf env plat n0 n ∧ (run env plat n).plat = (run env plat n0).plat := by
  induction n with
  | zero => exact .inl rfl
  | succ n ih =>
    by_cases hinit : (run env plat (n + 1)).div.stateP = .init
    · exact .inl hinit
    · right
      have hnext := hinit
      rw [run_succ] at hnext
      have hfetches : (run env plat n).div.stateP ≠ .init → (run env plat n).FetchesDivu env := by
        intro hrunning
        obtain ⟨n0, hstart, hplat⟩ := ih.resolve_left hrunning
        unfold FetchesDivu instruction
        rcases Nat.lt_or_eq_of_le hstart.le with hlt | rfl
        · rw [(hstart.stays n hlt (Nat.le_refl n)).2, hplat]
          exact hstart.fetches
        · exact hstart.fetches
      obtain ⟨hfetch, hst⟩ := stalled_of_not_init hnext hfetches
      rw [← run_succ] at hst
      rcases ih with hidle | ⟨n0, hstart, hplat⟩
      · refine ⟨n, ⟨Nat.le_succ n, hidle, hfetch, fun m h1 h2 => ?_⟩, hst.plat⟩
        obtain rfl : m = n + 1 := Nat.le_antisymm h2 h1
        exact ⟨hinit, hst.pcP⟩
      · refine ⟨n0, ⟨Nat.le_succ_of_le hstart.le, hstart.idle, hstart.fetches, fun m h1 h2 => ?_⟩,
          hst.plat.trans hplat⟩
        rcases Nat.lt_or_eq_of_le h2 with hlt | rfl
        · exact hstart.stays m h1 (Nat.le_of_lt_succ hlt)
        · refine ⟨hinit, hst.pcP.trans ?_⟩
          rcases Nat.lt_or_eq_of_le hstart.le with hlt | rfl
          · exact (hstart.stays n hlt (Nat.le_refl n)).2
          · rfl

end SingleCycle

open SingleCycle

/-- Every fetched DIVU has a start, and from its start it is right exactly for the
operands that keep the quotient. -/
theorem divu_correct_iff {env : Env} {plat : Platform} {n : Nat}
    (h : (run env plat n).FetchesDivu env) :
    (∃ n0, StartOf env plat n0 n) ∧
    ∀ n0, StartOf env plat n0 n →
      (DivuCorrect env (run env plat n0) ↔ KeepsQuotient env (run env plat n0)) := by
  constructor
  · rcases divu_start_exists env plat n with hidle | ⟨n0, hstart, _⟩
    · exact ⟨n, Nat.le_refl n, hidle, h, fun m h1 h2 => absurd h1 (Nat.not_lt.mpr h2)⟩
    · exact ⟨n0, hstart⟩
  · intro n0 hstart
    exact divuCorrect_iff (run_x0 env plat n0) hstart.fetches hstart.idle

/-- ADDI x1, x0, 7; ADDI x2, x0, 2; DIVU x3, x1, x2: the third register is neither
operand. -/
theorem divu_correct_distinct :
    DivuCorrect Env.zero
      (run Env.zero (Platform.ofProgram [0x00700093#32, 0x00200113#32, 0x0220d1b3#32]) 2) := by
  have hfetch : (run Env.zero (Platform.ofProgram [0x00700093#32, 0x00200113#32, 0x0220d1b3#32])
      2).FetchesDivu Env.zero := ⟨by decide, by decide, by decide⟩
  have hstart : StartOf Env.zero
      (Platform.ofProgram [0x00700093#32, 0x00200113#32, 0x0220d1b3#32]) 2 2 :=
    ⟨by decide, by decide, hfetch, fun m h1 h2 => absurd h1 (Nat.not_lt.mpr h2)⟩
  exact ((divu_correct_iff hfetch).2 2 hstart).mpr (.inr (.inl (by decide)))

/-- ADDI x1, x0, 7; ADDI x2, x0, 2; DIVU x2, x1, x2: the first stall cycle makes the
divisor 9, and the quotient becomes 0. -/
theorem divu_into_divisor_wrong :
    ¬ ∀ (env : Env) (plat : Platform) (n : Nat), (run env plat n).FetchesDivu env →
      ∃ n0, StartOf env plat n0 n ∧ DivuCorrect env (run env plat n0) := by
  intro h
  obtain ⟨n0, hstart, m, hstays, hdone⟩ := h Env.zero
    (Platform.ofProgram [0x00700093#32, 0x00200113#32, 0x0220d133#32]) 2
    ⟨by decide, by decide, by decide⟩
  obtain rfl : n0 = 2 := by
    rcases Nat.lt_or_eq_of_le hstart.le with hlt | heq
    · exact absurd (by decide) (hstart.stays 2 hlt (Nat.le_refl 2)).1
    · exact heq
  -- the instruction takes three cycles
  rcases Nat.lt_trichotomy m 3 with hlt | rfl | hgt
  · obtain rfl | rfl | rfl : m = 0 ∨ m = 1 ∨ m = 2 := by omega
    · exact absurd hdone.pcP (by decide)
    · exact absurd hdone.pcP (by decide)
    · exact absurd hdone.pcP (by decide)
  · exact absurd (congrFun hdone.xP 2#5) (by decide)
  · exact absurd (hstays 3 hgt) (by decide)

end MicroRiscv
