import Mathlib.Data.BitVec
import MicroRiscv.Lib.Handshake

/-!
# The 4-bit divider

The first divider of the repository is a netlist: a next-state logic in gates, two
comparators, a subtractor, an adder and multiplexers around three registers. The wires
keep their numbers. Two traits set it apart from the 8-bit divider: `quotient_o` is the
value in front of the quotient register, and the value of a division by zero is selected
in the finish state, by a gate that looks at `start_i` and `divisor_i` of that cycle.

Results:
1. `step_init`, `step_busy`, `step_finish`: what the gates compute, state by state.
2. `serves`: latency of an accepted start, and the quotient register at its end.
3. `answered_iff`: when the reported quotient is right.
4. `gates_correct_iff`: the handshake over input sequences of any length.
-/

namespace MicroRiscv

namespace DividerGates

/-! ## Components -/

/-- `CompUnsigned`: the outputs `>`, `=`, `<`. -/
def compUnsigned {n : Nat} (a b : BitVec n) : Bool × Bool × Bool := (b.ult a, a == b, a.ult b)

/-- `DIG_Sub`, the difference `s`. -/
def digSub {n : Nat} (a b : BitVec n) (c : Bool) : BitVec n :=
  (a.setWidth (n + 1) - b.setWidth (n + 1) - (BitVec.ofBool c).setWidth (n + 1)).setWidth n

/-- `DIG_Add`, the sum `s`. -/
def digAdd {n : Nat} (a b : BitVec n) (c : Bool) : BitVec n :=
  (a.setWidth (n + 1) + b.setWidth (n + 1) + (BitVec.ofBool c).setWidth (n + 1)).setWidth n

/-- `Mux_2x1_NBits`. -/
def mux2x1 {n : Nat} (sel : Bool) (in0 in1 : BitVec n) : BitVec n := if sel then in1 else in0

/-- `Mux_4x1_NBits`. -/
def mux4x1 {n : Nat} (sel : BitVec 2) (in0 in1 in2 in3 : BitVec n) : BitVec n :=
  if sel = 0#2 then in0 else if sel = 1#2 then in1 else if sel = 2#2 then in2 else in3

/-- `ns_logic`: `Q0next` and `Q1next`. -/
def nsLogic (q0 q1 start divisorNot0 subtrahendGeDivisor : Bool) : Bool × Bool :=
  let s0 := !q0
  let s1 := !q1
  ((s0 && s1 && !divisorNot0 && start) || (q1 && !subtrahendGeDivisor),
    (s0 && s1 && divisorNot0 && start) || (q1 && subtrahendGeDivisor))

@[simp] theorem digAdd_false {n : Nat} (a b : BitVec n) : digAdd a b false = a + b := by
  simp [digAdd, BitVec.setWidth_add]

@[simp] theorem digSub_false {n : Nat} (a b : BitVec n) : digSub a b false = a - b := by
  have hcancel := congrArg (BitVec.setWidth n)
    (BitVec.sub_add_cancel (a.setWidth (n + 1)) (b.setWidth (n + 1)))
  rw [BitVec.setWidth_add _ _ (Nat.le_succ n)] at hcancel
  simp only [BitVec.setWidth_setWidth_of_le _ (Nat.le_succ n), BitVec.setWidth_eq] at hcancel
  rw [BitVec.eq_sub_iff_add_eq]
  simpa [digSub] using hcancel

end DividerGates

/-! ## The netlist -/

/-- The registers: the state (`Init`, `Busy`, `Finish` are 0, 1, 2), the subtrahend and the
quotient. -/
structure DividerGates where
  s7 : BitVec 2
  s9 : BitVec 4
  s12 : BitVec 5
deriving DecidableEq, Repr

/-- The inputs of one cycle. -/
structure GatesInput where
  startI : Bool
  dividendI : BitVec 4
  divisorI : BitVec 4
deriving DecidableEq, Repr

namespace DividerGates

variable (d : DividerGates) (i : GatesInput)

/-- The state after reset. -/
def reset : DividerGates := ⟨0#2, 0#4, 0#5⟩

def busyO : Bool := d.s7.getLsbD 0
def finishO : Bool := d.s7.getLsbD 1

/-- The divisor is not zero. -/
def s2 : Bool := !(compUnsigned i.divisorI 0#4).2.1

/-- Low when a division by zero is started. -/
def s18 : Bool := !(!s2 i && i.startI)

/-- The divisor fits. -/
def s3 : Bool :=
  let c := compUnsigned d.s9 i.divisorI
  c.1 || c.2.1

def s8 : BitVec 4 := digSub d.s9 i.divisorI false
def s10 : BitVec 4 := mux4x1 d.s7 i.dividendI (d.s8 i) d.s9 0#4
def s17 : BitVec 5 := digAdd d.s12 1#5 false
def s13 : BitVec 5 := mux2x1 (d.s3 i) d.s12 d.s17
def s14 : BitVec 5 := mux2x1 (s18 i) 0b11111#5 d.s12

/-- `quotient_o`, in front of the quotient register. -/
def quotientO : BitVec 5 := mux4x1 d.s7 0#5 (d.s13 i) (d.s14 i) 0#5

/-- The next state: `Q0next` is the upper bit. -/
def s6 : BitVec 2 :=
  let q := nsLogic (d.s7.getLsbD 1) (d.s7.getLsbD 0) i.startI (s2 i) (d.s3 i)
  BitVec.ofBool q.1 ++ BitVec.ofBool q.2

/-- One clock edge. -/
def step : DividerGates := ⟨d.s6 i, d.s10 i, d.quotientO i⟩

/-! ## 1. What the gates compute -/

@[simp] theorem s2_eq : s2 i = !decide (i.divisorI = 0#4) := rfl

@[simp] theorem s3_eq : d.s3 i = decide (i.divisorI ≤ d.s9) := by
  simp only [s3, compUnsigned, BitVec.ult, BitVec.le_def]
  rw [Bool.eq_iff_iff]
  simp [← BitVec.toNat_inj]
  omega

variable {d i}

theorem step_init (h : d.s7 = 0#2) :
    d.step i = ⟨if i.startI = true then if i.divisorI = 0#4 then 2#2 else 1#2 else 0#2,
      i.dividendI, 0#5⟩ := by
  simp only [step, s6, nsLogic, s10, quotientO, mux4x1, s2_eq, s3_eq, h]
  cases i.startI <;> by_cases hb : i.divisorI = 0#4 <;> simp [hb]

theorem step_busy (h : d.s7 = 1#2) :
    d.step i = if i.divisorI ≤ d.s9 then ⟨1#2, d.s9 - i.divisorI, d.s12 + 1#5⟩
      else ⟨2#2, d.s9 - i.divisorI, d.s12⟩ := by
  simp only [step, s6, nsLogic, s10, s8, quotientO, s13, s17, mux4x1, mux2x1, s2_eq, s3_eq, h]
  by_cases hb : i.divisorI ≤ d.s9 <;> simp [hb]

theorem quotientO_finish (h : d.s7 = 2#2) :
    d.quotientO i = if i.startI = true ∧ i.divisorI = 0#4 then 31#5 else d.s12 := by
  simp only [quotientO, s14, s18, mux4x1, mux2x1, s2_eq, h]
  by_cases hs : i.startI = true <;> by_cases hb : i.divisorI = 0#4 <;> simp [hs, hb]

theorem step_finish (h : d.s7 = 2#2) : d.step i = ⟨0#2, d.s9, d.quotientO i⟩ := by
  simp only [step, s6, nsLogic, s10, mux4x1, s2_eq, s3_eq, h]
  simp

/-! ## Definitions of the handshake -/

/-- The state in cycle `n` after reset. -/
def runInputs (inp : Nat → GatesInput) : Nat → DividerGates := Handshake.run step reset inp

/-- `start_i` is high in the state `Init`. -/
def Accepted (inp : Nat → GatesInput) (n : Nat) : Prop :=
  Handshake.Accepts (fun k => (runInputs inp k).s7 = 0#2) (fun k => (inp k).startI = true) n

/-- The divisor of cycle `n` is held until the next pulse. -/
def HoldsDivisor (inp : Nat → GatesInput) (n : Nat) : Prop :=
  ∀ j, n ≤ j → (∀ k, n < k → k ≤ j → (runInputs inp k).finishO = false) →
    (inp j).divisorI = (inp n).divisorI

/-- Cycle `m` has the pulse that answers the start of cycle `n`. -/
def Ends (inp : Nat → GatesInput) (n m : Nat) : Prop :=
  Handshake.Ends (fun k => (runInputs inp k).s7 = 0#2)
    (fun k => (runInputs inp k).finishO = true) (fun k => (inp k).startI = true) n m

/-- The right quotient: five set bits for a division by zero. -/
def quotient (a b : BitVec 4) : BitVec 5 :=
  if b = 0#4 then 31#5 else BitVec.ofNat 5 (a.toNat / b.toNat)

/-- The start of cycle `n` leads to exactly one pulse, with the right quotient. -/
def Answered (inp : Nat → GatesInput) (n : Nat) : Prop :=
  (∃ m, Ends inp n m ∧ ∀ m', Ends inp n m' → m' = m) ∧
  ∀ m, Ends inp n m →
    (runInputs inp m).quotientO (inp m) = quotient (inp n).dividendI (inp n).divisorI

/-- The divider is right on the inputs `inp`. -/
structure Correct (inp : Nat → GatesInput) : Prop where
  answered : ∀ n, Accepted inp n → Answered inp n
  exclusive : ∀ n, ¬ ((runInputs inp n).busyO = true ∧ (runInputs inp n).finishO = true)
  encoding : ∀ n, (runInputs inp n).s7 ≠ 3#2

/-- The cycles from an accepted start to its pulse. -/
def latency (a b : BitVec 4) : Nat := if b = 0#4 then 1 else a.toNat / b.toNat + 2

/-- In the cycle of the pulse `start_i` is high beside a divisor of zero exactly if the
accepted divisor was zero. -/
def SelectsQuotient (inp : Nat → GatesInput) (n : Nat) : Prop :=
  let m := n + latency (inp n).dividendI (inp n).divisorI
  ((inp m).startI = true ∧ (inp m).divisorI = 0#4) ↔ (inp n).divisorI = 0#4

variable {inp : Nat → GatesInput} {n : Nat}

theorem runInputs_succ (inp : Nat → GatesInput) (n : Nat) :
    runInputs inp (n + 1) = (runInputs inp n).step (inp n) := rfl

/-! ## 2. Accepted starts -/

/-- A state other than the fourth encoding. -/
def Encoded (d : DividerGates) : Prop := d.s7 = 0#2 ∨ d.s7 = 1#2 ∨ d.s7 = 2#2

theorem Encoded.step {d : DividerGates} (hd : d.Encoded) (i : GatesInput) :
    (d.step i).Encoded := by
  unfold Encoded
  rcases hd with h | h | h
  · rw [step_init h]
    by_cases hs : i.startI = true <;> by_cases hb : i.divisorI = 0#4 <;> simp [hs, hb]
  · rw [step_busy h]
    split <;> simp
  · rw [step_finish h]
    exact .inl rfl

/-- The fourth encoding is never entered. -/
theorem runInputs_encoded (inp : Nat → GatesInput) (n : Nat) : (runInputs inp n).Encoded :=
  Handshake.run_invariant (.inl rfl) (fun _ i hd => hd.step i) inp n

theorem finishO_iff (inp : Nat → GatesInput) (n : Nat) :
    (runInputs inp n).finishO = true ↔ (runInputs inp n).s7 = 2#2 := by
  rcases runInputs_encoded inp n with h | h | h <;> rw [finishO, h] <;> decide

theorem lawful (inp : Nat → GatesInput) :
    Handshake.Lawful (fun k => (runInputs inp k).s7 = 0#2)
      (fun k => (runInputs inp k).finishO = true) (fun k => (inp k).startI = true) where
  waits n hidle hstart := by
    rw [runInputs_succ, step_init hidle]
    exact if_neg hstart
  returns n hfin := by
    rw [runInputs_succ, step_finish ((finishO_iff inp n).mp hfin)]
  not_finish n hidle hfin := by
    rw [finishO, hidle] at hfin
    cases hfin

/-- The divisor `b` was subtracted `k` times from `a`. -/
structure Running (d : DividerGates) (a b : BitVec 4) (k : Nat) : Prop where
  busy : d.s7 = 1#2
  subtrahend : d.s9.toNat + k * b.toNat = a.toNat
  quotient : d.s12 = BitVec.ofNat 5 k

theorem Running.finishO {d : DividerGates} {a b : BitVec 4} {k : Nat} (h : d.Running a b k) :
    d.finishO = false := by
  rw [DividerGates.finishO, h.busy]
  rfl

/-- The divisor is held as long as the division runs. -/
theorem divisor_of_running {a b : BitVec 4} {k : Nat} (hhold : HoldsDivisor inp n)
    (hrun : ∀ j, j ≤ k → (runInputs inp (n + 1 + j)).Running a b j) :
    (inp (n + 1 + k)).divisorI = (inp n).divisorI := by
  refine hhold _ (by omega) fun i hi hle => ?_
  obtain ⟨j, rfl⟩ := Nat.exists_eq_add_of_le hi
  exact (hrun j (by omega)).finishO

/-- While the divisor is held it is subtracted as often as it fits. -/
theorem running_of_held (hacc : Accepted inp n) (hhold : HoldsDivisor inp n)
    (hb : (inp n).divisorI ≠ 0#4) {k : Nat}
    (hk : k ≤ (inp n).dividendI.toNat / (inp n).divisorI.toNat) :
    ∀ j, j ≤ k → (runInputs inp (n + 1 + j)).Running (inp n).dividendI (inp n).divisorI j := by
  have hstart : (inp n).startI = true := hacc.2
  have hpos : 0 < (inp n).divisorI.toNat := BitVec.toNat_pos_of_ne_zero hb
  induction k with
  | zero =>
    intro j hj
    obtain rfl : j = 0 := Nat.le_zero.mp hj
    rw [Nat.add_zero, runInputs_succ, step_init hacc.1, if_pos hstart, if_neg hb]
    exact ⟨rfl, by simp, rfl⟩
  | succ k ih =>
    have hrun := ih (Nat.le_of_succ_le hk)
    have hlast := hrun k (Nat.le_refl k)
    have hheld := divisor_of_running hhold hrun
    have hfits : (inp n).divisorI ≤ (runInputs inp (n + 1 + k)).s9 := by
      have hle := (Nat.le_div_iff_mul_le hpos).mp hk
      have hsub := hlast.subtrahend
      rw [Nat.succ_mul] at hle
      rw [BitVec.le_def]
      omega
    intro j hj
    rcases Nat.lt_or_eq_of_le hj with hlt | rfl
    · exact hrun j (Nat.le_of_lt_succ hlt)
    · rw [← Nat.add_assoc, runInputs_succ, step_busy hlast.busy, hheld, if_pos hfits]
      refine ⟨rfl, ?_, ?_⟩
      · have hsub := hlast.subtrahend
        rw [BitVec.toNat_sub_of_le hfits, Nat.succ_mul]
        rw [BitVec.le_def] at hfits
        omega
      · rw [hlast.quotient, BitVec.ofNat_add]

/-- A division by zero ends at once. -/
theorem serves_zero (hacc : Accepted inp n) (hb : (inp n).divisorI = 0#4) :
    (runInputs inp (n + 1)).s7 = 2#2 ∧ (runInputs inp (n + 1)).s12 = 0#5 := by
  have hnext := step_init (i := inp n) hacc.1
  rw [if_pos hacc.2, if_pos hb, ← runInputs_succ] at hnext
  rw [hnext]
  exact ⟨rfl, rfl⟩

/-- The last busy cycle: the divisor fits no more. -/
theorem step_last {q : Nat} (hacc : Accepted inp n) (hhold : HoldsDivisor inp n)
    (hb : (inp n).divisorI ≠ 0#4)
    (hq : (inp n).dividendI.toNat / (inp n).divisorI.toNat = q) :
    (runInputs inp (n + 1 + q + 1)).s7 = 2#2 ∧
      (runInputs inp (n + 1 + q + 1)).s12 = BitVec.ofNat 5 q := by
  have hpos : 0 < (inp n).divisorI.toNat := BitVec.toNat_pos_of_ne_zero hb
  have hrun := running_of_held hacc hhold hb (Nat.le_of_eq hq.symm)
  have hlast := hrun q (Nat.le_refl q)
  have hheld := divisor_of_running hhold hrun
  have hover : ¬ (inp n).divisorI ≤ (runInputs inp (n + 1 + q)).s9 := by
    have hlt := Nat.lt_mul_div_succ (inp n).dividendI.toNat hpos
    have hsub := hlast.subtrahend
    rw [hq, Nat.mul_comm, Nat.succ_mul] at hlt
    rw [BitVec.le_def]
    omega
  have hnext := step_busy (i := inp (n + 1 + q)) hlast.busy
  rw [hheld, if_neg hover, ← runInputs_succ] at hnext
  rw [hnext]
  exact ⟨rfl, hlast.quotient⟩

/-- The latency of an accepted start, and the quotient register at its end. -/
theorem serves (hacc : Accepted inp n) (hhold : HoldsDivisor inp n) :
    let l := latency (inp n).dividendI (inp n).divisorI
    Handshake.Serves (fun k => (runInputs inp k).s7 = 0#2)
        (fun k => (runInputs inp k).finishO = true) n l ∧
      (runInputs inp (n + l)).s12 =
        if (inp n).divisorI = 0#4 then 0#5
        else BitVec.ofNat 5 ((inp n).dividendI.toNat / (inp n).divisorI.toNat) := by
  intro l
  by_cases hb : (inp n).divisorI = 0#4
  · have hl : l = 1 := if_pos hb
    obtain ⟨hstate, hquotient⟩ := serves_zero hacc hb
    rw [hl, if_pos hb]
    refine ⟨⟨Nat.le_refl 1, fun i hi hlt => absurd hlt (by omega), ?_⟩, hquotient⟩
    rw [finishO_iff, hstate]
  · have hl : l = (inp n).dividendI.toNat / (inp n).divisorI.toNat + 2 := if_neg hb
    have hrun := running_of_held hacc hhold hb (Nat.le_refl _)
    generalize hq : (inp n).dividendI.toNat / (inp n).divisorI.toNat = q at hl hrun
    obtain ⟨hstate, hquotient⟩ := step_last hacc hhold hb hq
    have hend : n + l = n + 1 + q + 1 := by omega
    rw [hend, if_neg hb]
    refine ⟨⟨by omega, fun i hi hlt => ?_, ?_⟩, hquotient⟩
    · obtain ⟨j, rfl⟩ := Nat.exists_eq_add_of_le hi
      have hj := hrun j (by omega)
      rw [hj.busy, hj.finishO]
      exact ⟨by decide, by decide⟩
    · show (runInputs inp (n + l)).finishO = true
      rw [hend, finishO_iff, hstate]

/-! ## 3. The reported quotient -/

/-- Dividing by a number from 1 on never gives 31. -/
theorem ofNat_div_ne (a b : BitVec 4) : BitVec.ofNat 5 (a.toNat / b.toNat) ≠ 31#5 := by
  intro h
  have hle : a.toNat / b.toNat ≤ a.toNat := Nat.div_le_self _ _
  have hval := congrArg BitVec.toNat h
  rw [BitVec.toNat_ofNat, Nat.mod_eq_of_lt (by omega)] at hval
  have : (31#5 : BitVec 5).toNat = 31 := rfl
  omega

/-- The start is answered rightly exactly if the gate in the finish state sees what it saw
when the start was accepted. -/
theorem answered_of_held (hacc : Accepted inp n) (hhold : HoldsDivisor inp n) :
    Answered inp n ↔ SelectsQuotient inp n := by
  obtain ⟨hserves, hreg⟩ := serves hacc hhold
  have hends (m : Nat) : Ends inp n m ↔ m = _ := (lawful inp).ends_iff hserves (m := m)
  have hfin := (finishO_iff inp _).mp hserves.ends
  unfold Answered SelectsQuotient
  simp only [hends, forall_eq, exists_eq_left, true_and]
  rw [quotientO_finish hfin, hreg, quotient]
  by_cases hb : (inp n).divisorI = 0#4
  · simp only [hb, if_true, iff_true]
    split <;> simp_all
  · have hne := ofNat_div_ne (inp n).dividendI (inp n).divisorI
    rw [if_neg hb]
    split
    · next hsel => exact ⟨fun h => absurd h.symm hne, fun h => absurd (h.mp hsel) hb⟩
    · next hsel => exact ⟨fun _ => ⟨fun h => absurd h hsel, fun h => absurd h hb⟩, fun _ => rfl⟩

/-! ## 4. The handshake -/

/-- After reset, on inputs that hold the divisor of every accepted start, the divider is
right exactly if the finish state selects the quotient of every accepted start. -/
theorem gates_correct_iff (inp : Nat → GatesInput)
    (hhold : ∀ n, Accepted inp n → HoldsDivisor inp n) :
    Correct inp ↔ ∀ n, Accepted inp n → SelectsQuotient inp n := by
  constructor
  · intro h n hacc
    exact (answered_of_held hacc (hhold n hacc)).mp (h.answered n hacc)
  · intro h
    refine ⟨fun n hacc => (answered_of_held hacc (hhold n hacc)).mpr (h n hacc), fun n => ?_,
      fun n heq => ?_⟩
    · rintro ⟨hbusy, hfin⟩
      rw [busyO, (finishO_iff inp n).mp hfin] at hbusy
      cases hbusy
    · have henc := runInputs_encoded inp n
      unfold Encoded at henc
      rw [heq] at henc
      exact absurd henc (by decide)

/-- 8 / 0 with the start held high: the gate still sees it one cycle later. -/
theorem gates_correct_iff_held_start :
    let inp : Nat → GatesInput := fun _ => ⟨true, 8#4, 0#4⟩
    Correct inp := by
  intro inp
  exact (gates_correct_iff inp fun _ _ _ _ _ => rfl).mpr fun _ _ =>
    ⟨fun _ => rfl, fun _ => ⟨rfl, rfl⟩⟩

/-- 8 / 0 with a start of one cycle reports 0 in the cycle of the pulse. -/
theorem gates_not_correct :
    ¬ ∀ inp : Nat → GatesInput, (∀ n, Accepted inp n → HoldsDivisor inp n) → Correct inp := by
  intro h
  let inp : Nat → GatesInput := fun n => ⟨decide (n = 0), 8#4, 0#4⟩
  have hc := h inp fun _ _ _ _ _ => rfl
  have hends : Ends inp 0 1 :=
    ⟨by decide, by decide, fun i hi hlt => absurd hlt (by omega)⟩
  exact absurd ((hc.answered 0 ⟨rfl, rfl⟩).2 1 hends) (by decide)

end DividerGates

end MicroRiscv
