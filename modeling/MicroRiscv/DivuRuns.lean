import MicroRiscv.Divu
import MicroRiscv.Finish
import MicroRiscv.Lib.Stuttering
import MicroRiscv.Machine
import MicroRiscv.Rv32i

/-!
# Runs of the single-cycle core with divisions

`SequentialDivu` executes one instruction per step, DIVU included: the quotient of the low bytes
is in `rd` after the step. The core takes as many cycles for a DIVU as its divider needs and
writes sums to `rd` meanwhile. Block `k` of a run of the core is the cycles of instruction `k`.

Results:
1. `singleCycle_refines_divu_iff`: the core shows this machine block by block exactly if every
   DIVU on the path keeps its quotient.
2. `singleCycle_on_time`: with DIVUs that keep their divisors the length of each block is a
   function of the two operands, and `cpu_finish_o` rises with the first finishing word.
-/

namespace MicroRiscv

open Stuttering RepeatedSubtraction

/-! ## 1. One instruction per step -/

namespace SequentialDivu

variable (env : Env) (S : Arch)

def instruction : Word := instrRdata env S.plat S.pcP

def FetchesDivu : Prop := Mnemonic.divu.IsEncoding (instruction env S)

instance : Decidable (FetchesDivu env S) :=
  inferInstanceAs (Decidable (Mnemonic.divu.IsEncoding (instruction env S)))

def dividendByte : BitVec 8 := SingleCycle.lowByte (S.xP (rs1Field (instruction env S)))

def divisorByte : BitVec 8 := SingleCycle.lowByte (S.xP (rs2Field (instruction env S)))

def step : Arch :=
  if FetchesDivu env S then
    { pcP := S.pcP + 4#32
      xP := regFileN S.xP true (rd (instruction env S))
        (SingleCycle.divuValue (dividendByte env S) (divisorByte env S))
      plat := S.plat }
  else Sequential.step env S

/-- The state after `k` instructions. -/
def run (plat : Platform) (k : Nat) : Arch := (step env)^[k] (Sequential.reset plat)

theorem run_succ (plat : Platform) (k : Nat) : run env plat (k + 1) = step env (run env plat k) :=
  Function.iterate_succ_apply' _ _ _

/-- The DIVU keeps its quotient. -/
def KeepsQuotient : Prop := SingleCycle.KeepsQuotient env ⟨S, Divider.reset⟩

/-- The DIVU does not overwrite a divisor that is still needed. -/
def KeepsDivisor : Prop :=
  rd (instruction env S) = 0#5 ∨ rd (instruction env S) ≠ rs2Field (instruction env S) ∨
    divisorByte env S = 0#8

instance : Decidable (KeepsDivisor env S) := inferInstanceAs (Decidable (_ ∨ _ ∨ _))

/-- The cycles of an instruction: the divider needs one to start, one for each subtraction and
one to finish, and subtracts at least once if the divisor is not zero. -/
def cycles : Nat :=
  if FetchesDivu env S then
    if divisorByte env S = 0#8 then 2
    else max 1 ((dividendByte env S).toNat / (divisorByte env S).toNat) + 2
  else 1

/-- The word in the state raises `cpu_finish_o`. -/
def Finishes : Prop :=
  let c := SingleCycle.decode (instruction env S)
  (c.illegalInsn || c.cpuHalt) = true

instance : Decidable (Finishes env S) := inferInstanceAs (Decidable (_ = true))

end SequentialDivu

/-! ## 2. The cycles of one instruction -/

namespace SingleCycle

/-- A cycle of the instruction fetched in `S`. -/
structure During (env : Env) (S : Arch) (s : SingleCycle) : Prop where
  pcP : s.pcP = S.pcP
  plat : s.plat = S.plat
  xP : ∀ i, i ≠ rd (SequentialDivu.instruction env S) → s.xP i = S.xP i

/-- The first cycle of the instruction fetched in `S`. -/
structure Begins (S : Arch) (s : SingleCycle) : Prop where
  arch : s.toArch = S
  idle : s.div.stateP = .init
  x0 : s.xP 0#5 = 0#32

variable {env : Env} {S : Arch} {s : SingleCycle}

theorem accepts_congr {m : Mnemonic} {r : RegIdx} {w : Word}
    (h : ¬ Mnemonic.divu.IsEncoding w) : m.Accepts true r w ↔ m.Accepts false r w := by
  cases m with
  | divu => exact ⟨fun hm => absurd hm.2 h, fun hm => absurd hm.1 Bool.false_ne_true⟩
  | _ => exact Iff.rfl

/-- The two decoders differ in DIVU only. -/
theorem decode_of_not_divu {w : Word} (h : ¬ Mnemonic.divu.IsEncoding w) :
    decode w = Sequential.decode w := by
  rcases decoder_spec true (rd w) w with ⟨m, hm, hctrl⟩ | ⟨hnone, hctrl⟩
  · exact hctrl.trans (decoder_of_accepts ((accepts_congr h).mp hm)).symm
  · exact hctrl.trans
      (decoder_of_not_accepts fun m hm => hnone m ((accepts_congr h).mpr hm)).symm

/-- An instruction other than DIVU takes one cycle. -/
theorem Begins.step_plain (h : Begins S s) (hs : ¬ SequentialDivu.FetchesDivu env S) :
    Begins (SequentialDivu.step env S) (s.step env) := by
  obtain ⟨rfl, hidle, -⟩ := h
  have hstart : (s.signals env).ctrl.startI = false := by
    rw [← Bool.not_eq_true, ctrl_startI_iff]
    exact hs
  refine ⟨?_, ?_, edge_x0 _ _ _ _⟩
  · have hsig : s.signals env = Sequential.signals env s.toArch :=
      signals_congr (decode_of_not_divu hs)
    rw [step_of_not_startI hstart, hsig, SequentialDivu.step, if_neg hs]
    rfl
  · show (s.div.step (s.signals env).ctrl.startI _ _).stateP = .init
    rw [hstart]
    exact Divider.step_init_stateP hidle _ _

/-- As long as the PC stays the DIVU is stalled. -/
theorem stalled_of_stays (hs : s.FetchesDivu env) {m : Nat}
    (hstays : ∀ j, j < m → ((SingleCycle.step env)^[j] s).pcP = s.pcP) :
    ∀ j, j < m → Stalled env s j ((SingleCycle.step env)^[j] s) := by
  intro j hj
  induction j with
  | zero => exact Stalled.zero env s
  | succ j ih =>
    have hst := ih (Nat.lt_of_succ_lt hj)
    have hpc := hstays (j + 1) hj
    rw [Function.iterate_succ_apply'] at hpc ⊢
    refine hst.step hs ?_
    -- the PC leaves the DIVU in the finish cycle of the divider
    cases hfin : ((SingleCycle.step env)^[j] s).div.finishO with
    | false => rfl
    | true =>
      rw [step_divu_pcP (hst.fetches hs), if_pos hfin, hst.pcP] at hpc
      exact absurd hpc (pcP_add_four_ne _)

theorem Stalled.during {s' : SingleCycle} {k : Nat} (h : Stalled env s k s')
    (h0 : s.xP 0#5 = 0#32) : During env s.toArch s' where
  pcP := h.pcP
  plat := h.plat
  xP := by
    intro i hi
    rw [h.xP]
    exact (stallWrite_iterate_other h0 (.inr fun he => hi he.symm) k).1

/-- The cycles of a DIVU, if the PC leaves it with the right result. -/
theorem Begins.divu_cycles (h : Begins S s) (hs : SequentialDivu.FetchesDivu env S) {m : Nat}
    (hstays : ∀ j, j < m → ((SingleCycle.step env)^[j] s).pcP = s.pcP)
    (hdone : DivuDone env s ((SingleCycle.step env)^[m] s)) :
    (∀ j, j < m → During env S ((SingleCycle.step env)^[j] s)) ∧
    Begins (SequentialDivu.step env S) ((SingleCycle.step env)^[m] s) := by
  obtain ⟨rfl, -, h0⟩ := h
  refine ⟨fun j hj => (stalled_of_stays hs hstays j hj).during h0, ?_, hdone.init, ?_⟩
  · obtain ⟨hpc, hx, hplat, -⟩ := hdone
    rw [SequentialDivu.step, if_pos hs]
    show Arch.mk _ _ _ = _
    rw [hpc, hx, hplat]
    rfl
  · rw [hdone.xP]
    exact regFileN_zero _ _ _ _

/-- A DIVU that keeps its divisor is done after `cycles`. -/
theorem Begins.divuDone (h : Begins S s) (hs : SequentialDivu.FetchesDivu env S)
    (hkeeps : SequentialDivu.KeepsDivisor env S) :
    (∀ j, j < SequentialDivu.cycles env S → ((SingleCycle.step env)^[j] s).pcP = s.pcP) ∧
    DivuDone env s ((SingleCycle.step env)^[SequentialDivu.cycles env S] s) := by
  obtain ⟨rfl, hidle, h0⟩ := h
  unfold SequentialDivu.cycles
  rw [if_pos hs]
  split
  · next hb => exact divuDone_of_zero h0 hs hidle hb
  · next hb =>
    have hfix : rd (s.instruction env) = 0#5 ∨
        rd (s.instruction env) ≠ rs2Field (s.instruction env) :=
      (or_assoc.mpr hkeeps).resolve_right hb
    have hpos : 0 < (s.divisorByte env).toNat :=
      Nat.pos_of_ne_zero fun hzero => hb (BitVec.eq_of_toNat_eq hzero)
    have hdivisors : s.divisors env = fun _ => (s.divisorByte env).toNat :=
      divisorAt_fixed h0 hfix
    have hstop : Stops (s.divisors env) (s.dividendByte env).toNat
        (max 1 ((s.dividendByte env).toNat / (s.divisorByte env).toNat)) := by
      rw [hdivisors]
      exact stops_const hpos _
    obtain ⟨hstays, -, hiff⟩ := run_stops h0 hs hidle hb hstop
    refine ⟨hstays, hiff.mpr (.inr ?_)⟩
    rw [hdivisors]
    exact count_const hpos _

theorem Begins.during (h : Begins S s) : During env S s := by
  obtain ⟨rfl, -, -⟩ := h
  exact ⟨rfl, rfl, fun _ _ => rfl⟩

/-- In a cycle of an instruction the core raises `cpu_finish_o` if its word does. -/
theorem During.cpuFinishO_iff (h : During env S s) :
    s.cpuFinishO env = true ↔ SequentialDivu.Finishes env S := by
  have hw : s.instruction env = SequentialDivu.instruction env S := by
    show instrRdata env s.plat s.pcP = _
    rw [h.pcP, h.plat]
    rfl
  show ((decode (s.instruction env)).illegalInsn || (decode (s.instruction env)).cpuHalt) = true ↔ _
  rw [hw]
  exact Iff.rfl

end SingleCycle

/-! ## 3. Runs -/

namespace SequentialDivu

open SingleCycle (Begins During)

variable (env : Env) (plat : Platform)

/-- The core executes the first `K` instructions, instruction `k` in `cost k` cycles. -/
def RunsIn (cost : Nat → Nat) (K : Nat) : Prop :=
  Stuttering.RunsIn (SingleCycle.step env) (fun k => Begins (run env plat k))
    (fun k => During env (run env plat k)) cost K (SingleCycle.reset plat)

/-- Only a DIVU takes more than a cycle. -/
def OneCycle (cost : Nat → Nat) (K : Nat) : Prop :=
  ∀ k, k < K → ¬ FetchesDivu env (run env plat k) → cost k = 1

variable {env plat} {cost : Nat → Nat} {K k : Nat}

theorem begins_reset : Begins (run env plat 0) (SingleCycle.reset plat) := ⟨rfl, rfl, rfl⟩

/-- The block of an instruction other than DIVU. -/
theorem block_plain {s : SingleCycle} (h : Begins (run env plat k) s)
    (hs : ¬ FetchesDivu env (run env plat k)) :
    Block (SingleCycle.step env) (fun k => Begins (run env plat k))
      (fun k => During env (run env plat k)) k 1 s where
  during j hj := by
    obtain rfl := Nat.lt_one_iff.mp hj
    exact h.during
  next := by
    rw [run_succ]
    exact h.step_plain hs

/-- The block of a DIVU. -/
theorem block_divu {s : SingleCycle} (h : Begins (run env plat k) s)
    (hs : FetchesDivu env (run env plat k)) {m : Nat}
    (hstays : ∀ j, j < m → ((SingleCycle.step env)^[j] s).pcP = s.pcP)
    (hdone : SingleCycle.DivuDone env s ((SingleCycle.step env)^[m] s)) :
    Block (SingleCycle.step env) (fun k => Begins (run env plat k))
      (fun k => During env (run env plat k)) k m s := by
  obtain ⟨hduring, hnext⟩ := h.divu_cycles hs hstays hdone
  refine ⟨hduring, ?_⟩
  rw [run_succ]
  exact hnext

/-- A block that begins with a DIVU ends with its result. -/
theorem divuCorrect_of_block {s : SingleCycle} (h : Begins (run env plat k) s)
    (hs : FetchesDivu env (run env plat k)) {m : Nat}
    (hb : Block (SingleCycle.step env) (fun k => Begins (run env plat k))
      (fun k => During env (run env plat k)) k m s) : SingleCycle.DivuCorrect env s := by
  have hnext : Begins (step env (run env plat k)) ((SingleCycle.step env)^[m] s) := by
    rw [← run_succ]
    exact hb.next
  rw [step, if_pos hs] at hnext
  obtain ⟨harch, hidle, -⟩ := hnext
  have hduring : ∀ j, j < m → During env (run env plat k) ((SingleCycle.step env)^[j] s) := hb.during
  rw [← h.arch] at hduring harch
  have hpc := congrArg Arch.pcP harch
  have hx := congrArg Arch.xP harch
  have hplat := congrArg Arch.plat harch
  exact ⟨m, fun j hj => (hduring j hj).pcP, hpc, hx, hplat, hidle⟩

/-- `cpu_finish_o` rises with the block of the first finishing word. -/
theorem RunsIn.firstFinish (h : RunsIn env plat cost K)
    (hrun : ∀ k, k < K → ¬ Finishes env (run env plat k)) (hfin : Finishes env (run env plat K)) :
    SingleCycle.FirstFinish env plat (clock cost K) := by
  refine ⟨(h.begins K le_rfl).during.cpuFinishO_iff.mpr hfin, fun n hn => ?_⟩
  obtain ⟨k, hk, hduring⟩ := h.before hn
  rw [← Bool.not_eq_true]
  exact fun hcore => hrun k hk (hduring.cpuFinishO_iff.mp hcore)

theorem runsIn_cycles (h : ∀ k, k < K → FetchesDivu env (run env plat k) →
      KeepsDivisor env (run env plat k)) :
    RunsIn env plat (fun k => cycles env (run env plat k)) K := by
  refine runsIn_of_blocks begins_reset fun k hk s hs => ?_
  by_cases hdivu : FetchesDivu env (run env plat k)
  · obtain ⟨hstays, hdone⟩ := hs.divuDone hdivu (h k hk hdivu)
    exact block_divu hs hdivu hstays hdone
  · show Block _ _ _ k (cycles env (run env plat k)) s
    rw [cycles, if_neg hdivu]
    exact block_plain hs hdivu

end SequentialDivu

section Runs

open SequentialDivu
open SingleCycle (Begins During)

variable {env : Env} {plat : Platform} {K : Nat}

/-- The core executes a program with divisions instruction by instruction exactly if each DIVU on
the path keeps its quotient. -/
theorem singleCycle_refines_divu_iff :
    (∃ cost, OneCycle env plat cost K ∧ RunsIn env plat cost K) ↔
      ∀ k, k < K → FetchesDivu env (SequentialDivu.run env plat k) →
        SequentialDivu.KeepsQuotient env (SequentialDivu.run env plat k) := by
  constructor
  · rintro ⟨cost, -, h⟩ k hk hdivu
    have hbegins : Begins _ _ := h.begins k (Nat.le_of_lt hk)
    have hcorrect := divuCorrect_of_block hbegins hdivu (h.block hk)
    obtain ⟨harch, hidle, hx0⟩ := hbegins
    rw [← harch] at hdivu ⊢
    exact (SingleCycle.divuCorrect_iff hx0 hdivu hidle).mp hcorrect
  · intro h
    refine exists_runsIn (C := fun k m => ¬ FetchesDivu env (SequentialDivu.run env plat k) → m = 1)
      begins_reset fun k hk s hs => ?_
    by_cases hdivu : FetchesDivu env (SequentialDivu.run env plat k)
    · have hcorrect : SingleCycle.DivuCorrect env s := by
        have hkeeps := h k hk hdivu
        rw [← hs.arch] at hdivu hkeeps
        exact (SingleCycle.divuCorrect_iff hs.x0 hdivu hs.idle).mpr hkeeps
      obtain ⟨m, hstays, hdone⟩ := hcorrect
      exact ⟨m, fun hnot => absurd hdivu hnot, block_divu hs hdivu hstays hdone⟩
    · exact ⟨1, fun _ => rfl, block_plain hs hdivu⟩

/-- DIVUs that keep their divisors: instruction `k` takes `cycles`, and the first finishing word,
if it is instruction `K`, raises `cpu_finish_o` when the instructions in front of it are done. -/
theorem singleCycle_on_time (h : ∀ k, k < K → FetchesDivu env (SequentialDivu.run env plat k) →
      KeepsDivisor env (SequentialDivu.run env plat k)) :
    let cost (k : Nat) : Nat := cycles env (SequentialDivu.run env plat k)
    RunsIn env plat cost K ∧
      ((∀ k, k < K → ¬ Finishes env (SequentialDivu.run env plat k)) →
        Finishes env (SequentialDivu.run env plat K) →
        SingleCycle.FirstFinish env plat (clock cost K)) :=
  ⟨runsIn_cycles h, (runsIn_cycles h).firstFinish⟩

/-- `simple-div.asm`: 48 / 32, 32 / 0 and 32 / 48, printed. -/
def simpleDiv : Platform :=
  Platform.ofProgram [0x02000093#32, 0x03000113#32, 0x021152b3#32, 0x0200d333#32, 0x0220d3b3#32,
    0x7e502e23#32, 0x7e602e23#32, 0x7e702e23#32, ebreakWord]

example : (SequentialDivu.run Env.zero simpleDiv 8).plat.stdout = [1#32, 0xffffffff#32, 0#32] := by
  decide +kernel

/-- The three divisions take 3, 2 and 3 cycles, the other instructions 5. -/
theorem singleCycle_on_time_simpleDiv : SingleCycle.FirstFinish Env.zero simpleDiv 13 := by
  have hkeeps : ∀ k, k < 8 → FetchesDivu Env.zero (SequentialDivu.run Env.zero simpleDiv k) →
      KeepsDivisor Env.zero (SequentialDivu.run Env.zero simpleDiv k) := by
    decide +kernel
  have hclock : clock (fun k => cycles Env.zero (SequentialDivu.run Env.zero simpleDiv k)) 8 = 13 := by
    decide +kernel
  have hfirst := (singleCycle_on_time hkeeps).2 (by decide +kernel) (by decide +kernel)
  rw [hclock] at hfirst
  exact hfirst

end Runs

end MicroRiscv
