import MicroRiscv.Divider
import MicroRiscv.Lib.Handshake

/-!
# The handshake of the 8-bit divider

The divider is driven by arbitrary inputs, new ones in every cycle. What its user has to
keep is the divisor, from the cycle in which a start is accepted until the pulse. An
accepted start then runs as a repeated subtraction with a constant divisor, and the rules
of the handshake say which pulse answers it.

Results:
1. `lawful`: the divider keeps the rules of the handshake.
2. `serves_zero`, `serves_div`: the latency and the quotient of an accepted start.
3. `divider_protocol`: the protocol over input sequences of any length.
-/

namespace MicroRiscv

/-- The inputs of one cycle. -/
structure DividerInput where
  startI : Bool
  dividendI : BitVec 8
  divisorI : BitVec 8
deriving DecidableEq, Repr

namespace Divider

/-! ## Definitions -/

/-- The state in cycle `n` after reset. -/
def runInputs (inp : Nat → DividerInput) : Nat → Divider :=
  Handshake.run (fun d i => d.step i.startI i.dividendI i.divisorI) reset inp

/-- The divider is neither busy nor finishing. -/
def Idle (d : Divider) : Prop := d.busyO = false ∧ d.finishO = false

/-- `start_i` is high while the divider is neither busy nor finishing. -/
def Accepted (inp : Nat → DividerInput) (n : Nat) : Prop :=
  Handshake.Accepts (fun i => (runInputs inp i).Idle) (fun i => (inp i).startI = true) n

/-- The divisor of cycle `n` is held until the next pulse. -/
def HoldsDivisor (inp : Nat → DividerInput) (n : Nat) : Prop :=
  ∀ j, n ≤ j → (∀ i, n < i → i ≤ j → (runInputs inp i).finishO = false) →
    (inp j).divisorI = (inp n).divisorI

/-- Cycle `m` has the pulse that answers the start of cycle `n`. -/
def Ends (inp : Nat → DividerInput) (n m : Nat) : Prop :=
  Handshake.Ends (fun i => (runInputs inp i).Idle)
    (fun i => (runInputs inp i).finishO = true) (fun i => (inp i).startI = true) n m

/-- The cycles from an accepted start to its pulse. -/
def latency (a b : BitVec 8) : Nat :=
  if b = 0#8 then 1 else 1 + max 1 (a.toNat / b.toNat)

/-- What the divider reports: nine set bits for a division by zero. -/
def quotient (a b : BitVec 8) : BitVec 9 :=
  if b = 0#8 then 0x1ff#9 else BitVec.ofNat 9 (a.toNat / b.toNat)

/-- The start of cycle `n` is answered by exactly one pulse, at the stated latency and with
the quotient, and the divider is neither busy nor finishing right after it. -/
structure Answered (inp : Nat → DividerInput) (n : Nat) : Prop where
  ends_iff : ∀ m, Ends inp n m ↔ m = n + latency (inp n).dividendI (inp n).divisorI
  quotientO : ∀ m, Ends inp n m →
    (runInputs inp m).quotientO = quotient (inp n).dividendI (inp n).divisorI
  returns : ∀ m, Ends inp n m → (runInputs inp (m + 1)).Idle

variable {inp : Nat → DividerInput} {n : Nat}

theorem runInputs_succ (inp : Nat → DividerInput) (n : Nat) :
    runInputs inp (n + 1) =
      (runInputs inp n).step (inp n).startI (inp n).dividendI (inp n).divisorI := rfl

/-! ## 1. The rules of the handshake -/

theorem finishO_iff {d : Divider} : d.finishO = true ↔ d.stateP = .finish := by
  simp [finishO]

/-- The two outputs tell the state `INIT` from the others. -/
theorem idle_iff {d : Divider} : d.Idle ↔ d.stateP = .init := by
  unfold Idle busyO finishO
  cases d.stateP <;> simp

theorem lawful (inp : Nat → DividerInput) :
    Handshake.Lawful (fun i => (runInputs inp i).Idle)
      (fun i => (runInputs inp i).finishO = true) (fun i => (inp i).startI = true) where
  waits n hidle hstart := by
    have hs : (inp n).startI = false := Bool.eq_false_iff.mpr hstart
    rw [runInputs_succ, hs, idle_iff]
    exact step_init_stateP (idle_iff.mp hidle) _ _
  returns n hfin := by
    rw [runInputs_succ, idle_iff]
    exact step_finish_stateP (finishO_iff.mp hfin) _ _ _
  not_finish n hidle hfin := by
    rw [hidle.2] at hfin
    cases hfin

/-- Outside `INIT` the start and the dividend are not looked at. -/
theorem step_of_not_init {d : Divider} (h : d.stateP ≠ .init) (s s' : Bool) (x x' b : BitVec 8) :
    d.step s x b = d.step s' x' b := by
  cases hs : d.stateP with
  | init => exact absurd hs h
  | busy | finish => simp [step, stateN, subtrahendN, quotientN, hs]

/-! ## 2. An accepted start -/

open RepeatedSubtraction

/-- A division by zero is answered in the next cycle. -/
theorem serves_zero (hacc : Accepted inp n) (hb : (inp n).divisorI = 0#8) :
    (runInputs inp (n + 1)).stateP = .finish ∧
    (runInputs inp (n + 1)).quotientP = 0x1ff#9 := by
  have hstart : (inp n).startI = true := hacc.2
  rw [runInputs_succ, hstart, hb]
  exact step_start_zero (idle_iff.mp hacc.1) _

/-- While the divisor is held the divider subtracts it, and no pulse comes before the
subtraction has ended. -/
theorem running_of_held (hacc : Accepted inp n) (hhold : HoldsDivisor inp n)
    (hb : (inp n).divisorI ≠ 0#8) {k : Nat}
    (hk : k < max 1 ((inp n).dividendI.toNat / (inp n).divisorI.toNat)) :
    (runInputs inp (n + 1 + k)).Running (fun _ => (inp n).divisorI.toNat)
        (inp n).dividendI.toNat k ∧
      (∀ i, n < i → i ≤ n + 1 + k → (runInputs inp i).stateP = .busy) := by
  have hstart : (inp n).startI = true := hacc.2
  have hpos : 0 < (inp n).divisorI.toNat := BitVec.toNat_pos_of_ne_zero hb
  induction k with
  | zero =>
    have hrun : (runInputs inp (n + 1)).Running (fun _ => (inp n).divisorI.toNat)
        (inp n).dividendI.toNat 0 := by
      rw [runInputs_succ, hstart]
      exact running_start (idle_iff.mp hacc.1) _ _ hb
    refine ⟨hrun, fun i hi hle => ?_⟩
    obtain rfl : i = n + 1 := by omega
    exact hrun.busy
  | succ k ih =>
    obtain ⟨hrun, hbusy⟩ := ih (by omega)
    have hheld : (inp (n + 1 + k)).divisorI = (inp n).divisorI :=
      hhold _ (by omega) fun i hi hle => finishO_of_busy (hbusy i hi hle)
    have hnext := hrun.step_continues (inp (n + 1 + k)).startI (inp (n + 1 + k)).dividendI
      (congrArg BitVec.toNat hheld) ((stops_const hpos _).before (k + 1) (by omega) hk)
    refine ⟨hnext, fun i hi hle => ?_⟩
    rcases Nat.lt_or_ge i (n + 1 + (k + 1)) with hlt | hge
    · exact hbusy i hi (by omega)
    · obtain rfl : i = n + 1 + (k + 1) := by omega
      exact hnext.busy

theorem serves (hacc : Accepted inp n) (hhold : HoldsDivisor inp n) :
    let l := latency (inp n).dividendI (inp n).divisorI
    Handshake.Serves (fun i => (runInputs inp i).Idle)
        (fun i => (runInputs inp i).finishO = true) n l ∧
      (runInputs inp (n + l)).quotientP = quotient (inp n).dividendI (inp n).divisorI := by
  intro l
  by_cases hb : (inp n).divisorI = 0#8
  · have hl : l = 1 := if_pos hb
    obtain ⟨hfin, hq⟩ := serves_zero hacc hb
    rw [hl]
    refine ⟨⟨Nat.le_refl 1, fun i hi hlt => absurd hlt (by omega), finishO_iff.mpr hfin⟩, ?_⟩
    rw [hq, quotient, if_pos hb]
  · have hl : l = 1 + max 1 ((inp n).dividendI.toNat / (inp n).divisorI.toNat) := if_neg hb
    have hpos : 0 < (inp n).divisorI.toNat := BitVec.toNat_pos_of_ne_zero hb
    have hstop := stops_const hpos (inp n).dividendI.toNat
    obtain ⟨k, hk⟩ := Nat.exists_eq_add_of_le' hstop.pos
    -- cycle n + 1 + k is the last busy one
    obtain ⟨hrun, hbusy⟩ := running_of_held hacc hhold hb (show k < _ by omega)
    have hheld : (inp (n + 1 + k)).divisorI = (inp n).divisorI :=
      hhold _ (by omega) fun i hi hle => finishO_of_busy (hbusy i hi hle)
    have hlast := hrun.step_stops (inp (n + 1 + k)).startI (inp (n + 1 + k)).dividendI
      (congrArg BitVec.toNat hheld) (hk ▸ hstop.last)
    rw [← runInputs_succ, ← hk, count_const hpos] at hlast
    have hend : n + 1 + k + 1 = n + l := by omega
    rw [hend] at hlast
    refine ⟨⟨by omega, fun i hi hlt => ?_, finishO_iff.mpr hlast.1⟩, ?_⟩
    · have hi := hbusy i hi (by omega)
      rw [idle_iff, hi, finishO_of_busy hi]
      exact ⟨by decide, by decide⟩
    · rw [hlast.2, quotient, if_neg hb]

/-! ## 3. The protocol -/

/-- The protocol of the divider after reset. Every accepted start whose divisor is held is
answered by exactly one pulse with the quotient; `busy_o` and `finish_o` exclude each
other; and neither a start nor a dividend has an effect outside the idle cycles. -/
theorem divider_protocol (inp : Nat → DividerInput)
    (hhold : ∀ n, Accepted inp n → HoldsDivisor inp n) :
    (∀ n, Accepted inp n → Answered inp n) ∧
    (∀ n, ¬ ((runInputs inp n).busyO = true ∧ (runInputs inp n).finishO = true)) ∧
    ∀ inp' : Nat → DividerInput,
      (∀ n, (inp' n).divisorI = (inp n).divisorI ∧
        ((runInputs inp n).Idle → inp' n = inp n)) →
      runInputs inp' = runInputs inp := by
  refine ⟨fun n hacc => ?_, fun n => ?_, fun inp' hinp => ?_⟩
  · obtain ⟨hserves, hq⟩ := serves hacc (hhold n hacc)
    have hends (m : Nat) : Ends inp n m ↔ _ := (lawful inp).ends_iff hserves (m := m)
    refine ⟨hends, fun m hm => ?_, fun m hm => ?_⟩
    · rw [(hends m).mp hm]
      exact hq
    · exact (lawful inp).returns m hm.2.1
  · rintro ⟨hbusy, hfin⟩
    have hb : (runInputs inp n).stateP = .busy := by simpa [busyO] using hbusy
    rw [finishO_of_busy hb] at hfin
    cases hfin
  · funext n
    refine Handshake.run_congr (fun k => ?_) n
    obtain ⟨hdiv, hsame⟩ := hinp k
    by_cases hidle : (runInputs inp k).Idle
    · rw [hsame hidle]
    · rw [hdiv]
      exact step_of_not_init (fun hinit => hidle (idle_iff.mpr hinit)) _ _ _ _ _

/-- 7 / 2 with the start held high and another dividend from the second cycle on: the pulse
comes in cycle 4 with the quotient 3, and the next start is accepted in cycle 5. -/
theorem divider_protocol_seven_by_two :
    let inp : Nat → DividerInput := fun n => ⟨true, if n = 0 then 7#8 else 9#8, 2#8⟩
    Ends inp 0 4 ∧ (runInputs inp 4).quotientO = 3#9 ∧ Accepted inp 5 := by
  intro inp
  obtain ⟨hans, _⟩ := divider_protocol inp fun _ _ _ _ _ => rfl
  have h0 := hans 0 ⟨⟨rfl, rfl⟩, rfl⟩
  have h4 : Ends inp 0 4 := (h0.ends_iff 4).mpr (by decide)
  exact ⟨h4, (h0.quotientO 4 h4).trans (by decide), h0.returns 4 h4, rfl⟩

end Divider

end MicroRiscv
