import MicroRiscv.Lib.SlotsTiming
import MicroRiscv.PipelineHalt
import MicroRiscv.ThreeStageRefinement
import MicroRiscv.TwoStage

/-!
# Programs that end: the cycle of every instruction, and of EBREAK

The pipelined cores on a path that is known up to its `K`-th instruction only, as for a program
that runs into an EBREAK. The words behind the EBREAK are fetched and decoded while it moves up,
and the results hold whatever they are.

Results:
1. `pipelines_on_time`: on each of the three cores the cycle in which instruction `k` is in the
   last stage, from the number of transfers in front of it.
2. `pipelines_finish`: the three cores have the registers and devices of the sequential machine
   when the first word that looks like EBREAK is in the last stage, and `cpu_finish_o` is low
   before. There the 2-stage core raises it when the word has no destination register, the
   other two when the word in front of it transfers or has none.
-/

namespace MicroRiscv

namespace Sequential

instance (env : Env) (plat : Platform) : DecidablePred (Transfers env plat) :=
  fun _ => inferInstanceAs (Decidable (_ = true))

/-- The cycle of instruction `k` in a core that resolves transfers `d` cycles after the fetch. -/
def cycleOf (env : Env) (plat : Platform) (d k : Nat) : Nat :=
  Slots.cycleOf d (Transfers env plat) k

/-- What `rd_p` is compared with when instruction `k` is decoded: the rd field of the
instruction in front of it, and zero behind a bubble. -/
def AheadNamesX0 (env : Env) (plat : Platform) (k : Nat) : Prop :=
  ∀ j, k = j + 1 → Transfers env plat j ∨ rd (instruction env plat j) = 0#5

end Sequential

/-! ## 1. Cores that compare `rd_p` -/

open Traced (insn pathInsn) in
/-- With `q` the occupants of the stages and `last` that of the last one, `finish` is raised for a
word that looks like EBREAK and has a word ahead without destination register: the one that was
in the last stage in the cycle before, if there was one. -/
structure ComparesRdP (q : Nat → List (Option (Word × Word))) (last : Nat → Option Fetched)
    (finish : Nat → Bool) : Prop where
  head : ∀ n, (q n)[0]? = some ((last n).map insn)
  finish : ∀ n, finish n = true ↔
    ∃ f, last n = some f ∧ LooksLikeEbreak f.word ∧ rd f.ahead = 0#5
  ahead : ∀ n f, last (n + 1) = some f →
    (∃ g, last n = some g ∧ f.ahead = g.word) ∨ (last n = none ∧ rd f.ahead = 0#5)

namespace ComparesRdP

open Traced (insn pathInsn)

variable {env : Env} {plat : Platform} {d K n : Nat} {q : Nat → List (Option (Word × Word))}
  {kill : Nat → Bool} {new : Nat → Word × Word} {agree front : Nat → Nat → Prop}
  {last : Nat → Option Fetched} {finish : Nat → Bool}

theorem head_some_iff (hc : ComparesRdP q last finish) {x : Word × Word} :
    (q n)[0]? = some (some x) ↔ ∃ f, last n = some f ∧ insn f = x := by
  rw [hc.head, Option.some.injEq, Option.map_eq_some_iff]

/-- Before the `K`-th instruction nothing finishes. -/
theorem low (hc : ComparesRdP q last finish) (hp : Sequential.PipelinableTo env plat K)
    (hstep : Slots.InStepTo K q kill new (pathInsn env plat) (Sequential.Transfers env plat) agree
      front)
    (hrun : Slots.Run d q kill new) (hk : ∀ n, kill n = true → Slots.occupied (q n) = true)
    (hn : n < Sequential.cycleOf env plat d K) : finish n = false := by
  rw [← Bool.not_eq_true]
  intro hfin
  obtain ⟨f, hlast, ⟨hop, -, -⟩, -⟩ := (hc.finish n).mp hfin
  have hhead := hc.head_some_iff.mpr ⟨f, hlast, rfl⟩
  have hlt := hstep.retired_lt hrun hk hn (Slots.occupied_iff_head.mpr ⟨_, hhead⟩)
  obtain ⟨-, hword⟩ := Prod.mk.inj (hstep.head hrun hlt.le hhead)
  exact hp.noSystem _ hlt (hword ▸ hop)

/-- The word ahead of the `K`-th instruction when that one is in the last stage. -/
theorem rd_ahead_iff (hc : ComparesRdP q last finish)
    (hstep : Slots.InStepTo K q kill new (pathInsn env plat) (Sequential.Transfers env plat) agree
      front)
    (hrun : Slots.Run d q kill new) (hk : ∀ n, kill n = true → Slots.occupied (q n) = true)
    {f : Fetched} (hlast : last (Sequential.cycleOf env plat d K) = some f) :
    rd f.ahead = 0#5 ↔ Sequential.AheadNamesX0 env plat K := by
  obtain ⟨n, hn⟩ : ∃ n, Sequential.cycleOf env plat d K = n + 1 :=
    Nat.exists_eq_succ_of_ne_zero fun h0 => by
      have hpos := hrun.pos
      unfold Sequential.cycleOf Slots.cycleOf at h0
      omega
  rw [hn] at hlast
  refine hstep.ahead_iff hrun hk hn (P := fun x => rd x.2 = 0#5) ?_ ?_
  · intro x hx
    obtain ⟨g, hg, rfl⟩ := hc.head_some_iff.mp hx
    rcases hc.ahead n f hlast with ⟨g', hg', hahead⟩ | ⟨hnone, -⟩
    · rw [hg] at hg'
      cases hg'
      rw [hahead]
      rfl
    · rw [hg] at hnone
      cases hnone
  · intro hfree
    rcases hc.ahead n f hlast with ⟨g, hg, -⟩ | ⟨-, hrd⟩
    · have hocc := Slots.occupied_iff_head.mpr ⟨_, hc.head_some_iff.mpr ⟨g, hg, rfl⟩⟩
      rw [hfree] at hocc
      cases hocc
    · exact hrd

/-- The first word that looks like EBREAK. -/
theorem high_iff (hc : ComparesRdP q last finish)
    (hstep : Slots.InStepTo K q kill new (pathInsn env plat) (Sequential.Transfers env plat) agree
      front)
    (hrun : Slots.Run d q kill new) (hk : ∀ n, kill n = true → Slots.occupied (q n) = true)
    (hw : LooksLikeEbreak (Sequential.instruction env plat K)) :
    finish (Sequential.cycleOf env plat d K) = true ↔ Sequential.AheadNamesX0 env plat K := by
  obtain ⟨hhead, -⟩ := hstep.at_cycleOf hrun hk le_rfl
  obtain ⟨f, hlast, hf⟩ := hc.head_some_iff.mp hhead
  obtain ⟨-, hword⟩ := Prod.mk.inj hf
  rw [hc.finish, ← hc.rd_ahead_iff hstep hrun hk hlast]
  constructor
  · rintro ⟨g, hg, -, hrd⟩
    rw [show last (Sequential.cycleOf env plat d K) = some f from hlast] at hg
    cases hg
    exact hrd
  · intro hrd
    exact ⟨f, hlast, hword ▸ hw, hrd⟩

end ComparesRdP

/-! ## 2. The 4-stage core -/

namespace Traced

open Pipeline

variable {env : Env} {s : Pipeline} {K : Nat}

theorem wb_iff_cycleOf (hp : Sequential.PipelinableTo env s.plat K) {k : Nat} (hk : k ≤ K)
    (n : Nat) : (run env s n).wbSlot.isSome = true ∧ retired env s n = k ↔
      n = Sequential.cycleOf env s.plat 3 k := by
  rw [← occupied_stages, retired_eq]
  exact (inStepTo hp).occupied_iff_cycleOf (slots_run env s) occupied_of_pcSrc hk n

/-- Instruction `k` in WB, and the state in front of it. -/
theorem wb_at_cycleOf (hp : Sequential.PipelinableTo env s.plat K) {k : Nat} (hk : k ≤ K) :
    (∃ f, (run env s (Sequential.cycleOf env s.plat 3 k)).wbSlot = some f ∧
      insn f = pathInsn env s.plat k) ∧
    (run env s (Sequential.cycleOf env s.plat 3 k)).toArch.Agrees (Sequential.run env s.plat k) := by
  obtain ⟨hhead, hagree⟩ := (inStepTo hp).at_cycleOf (slots_run env s) occupied_of_pcSrc hk
  exact ⟨stages_head_some_iff.mp hhead, hagree⟩

theorem comparesRdP (env : Env) (s : Pipeline) :
    ComparesRdP (fun n => (run env s n).stages) (fun n => (run env s n).wbSlot)
      fun n => (run env s n).cpuFinishO where
  head := fun n => stages_head (run env s n)
  finish := fun n => cpuFinishO_iff (inv_run env s n)
  ahead := fun _ _ => wb_ahead

end Traced

/-! ## 3. The 3-stage core -/

namespace ThreeStage.Traced

open MicroRiscv.Traced (insn pathInsn)

variable {env : Env} {s : ThreeStage} {t : Traced} {K : Nat}

/-- What the core raises `cpu_finish_o` for. -/
theorem cpuFinishO_iff (h : t.Inv) :
    t.cpuFinishO = true ↔
      ∃ f, t.exSlot = some f ∧ LooksLikeEbreak f.word ∧ rd f.ahead = 0#5 := by
  show t.idEx.cpuHaltP = true ↔ _
  cases hex : t.exSlot with
  | none =>
    rw [(h.exNone hex).halt]
    simp
  | some f =>
    rw [h.exSome f hex]
    show (decoder false (rd f.ahead) f.word).cpuHalt = true ↔ _
    rw [decoder_cpuHalt_iff]
    simp [LooksLikeEbreak, and_assoc]

/-- The occupant of ID knows the word ahead; behind a bubble that word names no register. -/
structure Adjacent (t : Traced) : Prop where
  id : ∀ f, t.exSlot = some f → ∃ g, t.idSlot = some g ∧ g.ahead = f.word
  idFirst : ∀ g, t.exSlot = none → t.idSlot = some g → rd g.ahead = 0#5

/-- The words of a bubble name no destination register. -/
theorem Inv.bubble_rd (h : t.Inv) (hid : t.idSlot = none) : rd t.ifId.instructionIfP = 0#5 := by
  rcases h.idNone hid with hw | hw
  · rw [hw]
    rfl
  · rw [hw]
    rfl

theorem Inv.adjacent_step (h : t.Inv) : (t.step env).Adjacent := by
  cases hsrc : t.pcSrc with
  | true =>
    -- a transfer leaves two bubbles
    obtain ⟨hex, hid⟩ := step_slots_squash hsrc
    constructor
    · rw [hex]
      exact fun _ hf => nomatch hf
    · rw [hid]
      exact fun _ _ hg => nomatch hg
  | false =>
    obtain ⟨hex, hid⟩ := step_slots hsrc
    constructor
    · rw [hex, hid]
      intro f hf
      refine ⟨t.fetched env, rfl, ?_⟩
      show t.ifId.instructionIfP = f.word
      rw [(h.idSome f hf).1]
    · rw [hex, hid]
      intro g hnone hg
      cases hg
      exact h.bubble_rd hnone

theorem adjacent_run (env : Env) (s : ThreeStage) (n : Nat) : (run env s n).Adjacent := by
  cases n with
  | zero => exact ⟨fun _ hf => (nomatch hf), fun _ _ hg => nomatch hg⟩
  | succ n =>
    rw [run_succ]
    exact (inv_run env s n).adjacent_step

/-- The word ahead is the one that was in EX in the cycle before; after a bubble there its
rd field is zero. -/
theorem ex_ahead {n : Nat} {f : Fetched} (hex : (run env s (n + 1)).exSlot = some f) :
    (∃ g, (run env s n).exSlot = some g ∧ f.ahead = g.word) ∨
      ((run env s n).exSlot = none ∧ rd f.ahead = 0#5) := by
  have hadj := adjacent_run env s n
  rw [run_succ] at hex
  cases hsrc : (run env s n).pcSrc with
  | true =>
    rw [(step_slots_squash hsrc).1] at hex
    cases hex
  | false =>
    rw [(step_slots hsrc).1] at hex
    cases hprev : (run env s n).exSlot with
    | none => exact .inr ⟨rfl, hadj.idFirst f hprev hex⟩
    | some g =>
      obtain ⟨g', hg', hahead⟩ := hadj.id g hprev
      rw [hex] at hg'
      cases hg'
      exact .inl ⟨g, rfl, hahead⟩

theorem ex_iff_cycleOf (hp : Sequential.PipelinableTo env s.plat K) {k : Nat} (hk : k ≤ K)
    (n : Nat) : (run env s n).exSlot.isSome = true ∧ retired env s n = k ↔
      n = Sequential.cycleOf env s.plat 2 k := by
  rw [← occupied_stages]
  exact (inStepTo hp).occupied_iff_cycleOf (slots_run env s) occupied_of_pcSrc hk n

/-- Instruction `k` in EX, and the state in front of it. -/
theorem ex_at_cycleOf (hp : Sequential.PipelinableTo env s.plat K) {k : Nat} (hk : k ≤ K) :
    (∃ f, (run env s (Sequential.cycleOf env s.plat 2 k)).exSlot = some f ∧
      insn f = pathInsn env s.plat k) ∧
    (run env s (Sequential.cycleOf env s.plat 2 k)).toArch.Agrees (Sequential.run env s.plat k) := by
  obtain ⟨hhead, hagree⟩ := (inStepTo hp).at_cycleOf (slots_run env s) occupied_of_pcSrc hk
  exact ⟨stages_head_some_iff.mp hhead, hagree⟩

theorem comparesRdP (env : Env) (s : ThreeStage) :
    ComparesRdP (fun n => (run env s n).stages) (fun n => (run env s n).exSlot)
      fun n => (run env s n).cpuFinishO where
  head := fun n => stages_head (run env s n)
  finish := fun n => cpuFinishO_iff (inv_run env s n)
  ahead := fun _ _ => ex_ahead

end ThreeStage.Traced

/-! ## 4. The 2-stage core -/

namespace TwoStage.Traced

open MicroRiscv.Traced (pathInsn)

variable {env : Env} {s : TwoStage} {K : Nat}

theorem slot_iff_cycleOf (hp : Sequential.HaltFreeTo env s.plat K) {k : Nat} (hk : k ≤ K)
    (n : Nat) : (run env s n).slot.isSome = true ∧ retired env s n = k ↔
      n = Sequential.cycleOf env s.plat 1 k := by
  rw [← occupied_stages]
  exact (inStepTo hp).occupied_iff_cycleOf (slots_run env s) occupied_of_pcSrc hk n

/-- Instruction `k` in the second stage, and the state in front of it. -/
theorem slot_at_cycleOf (hp : Sequential.HaltFreeTo env s.plat K) {k : Nat} (hk : k ≤ K) :
    (run env s (Sequential.cycleOf env s.plat 1 k)).slot = some (pathInsn env s.plat k) ∧
    (run env s (Sequential.cycleOf env s.plat 1 k)).toArch.Agrees (Sequential.run env s.plat k) := by
  obtain ⟨hhead, hagree⟩ := (inStepTo hp).at_cycleOf (slots_run env s) occupied_of_pcSrc hk
  exact ⟨stages_head_some_iff.mp hhead, hagree⟩

theorem not_finish_before (hp : Sequential.HaltFreeTo env s.plat K) {n : Nat}
    (hn : n < Sequential.cycleOf env s.plat 1 K) : (run env s n).cpuFinishO env = false := by
  show ((run env s n).signals env).ctrl.cpuHalt = false
  cases hslot : (run env s n).slot with
  | none => exact ((inv_run env s n).idle hslot).halt
  | some x =>
    have hocc : Slots.occupied (run env s n).stages = true := by
      rw [occupied_stages, hslot]
      rfl
    have hlt := (inStepTo hp).retired_lt (slots_run env s) occupied_of_pcSrc hn hocc
    obtain ⟨-, hsig⟩ := occupant_run hp hlt.le hslot
    rw [hsig]
    exact hp.noHalt _ hlt

/-- The second stage looks at the word itself only. -/
theorem finish_iff_of_path (hp : Sequential.HaltFreeTo env s.plat K) :
    (run env s (Sequential.cycleOf env s.plat 1 K)).cpuFinishO env = true ↔
      IsHaltWord (Sequential.instruction env s.plat K) := by
  obtain ⟨hslot, -⟩ := slot_at_cycleOf hp le_rfl
  rw [cpuFinishO_iff, (inv_run env s _).occupant _ _ hslot]

end TwoStage.Traced

/-! ## 5. The three cores together -/

/-- What a run of a pipelined core shows: whether the last stage is occupied, how many
instructions have been there before, registers and devices, and `cpu_finish_o`. -/
structure CoreRun where
  occupied : Nat → Bool
  retired : Nat → Nat
  arch : Nat → Arch
  finish : Nat → Bool

def TwoStage.coreRun (env : Env) (s : TwoStage) : CoreRun where
  occupied := fun n => (Traced.run env s n).slot.isSome
  retired := Traced.retired env s
  arch := fun n => (Traced.run env s n).toArch
  finish := fun n => (Traced.run env s n).cpuFinishO env

def ThreeStage.coreRun (env : Env) (s : ThreeStage) : CoreRun where
  occupied := fun n => (Traced.run env s n).exSlot.isSome
  retired := Traced.retired env s
  arch := fun n => (Traced.run env s n).toArch
  finish := fun n => (Traced.run env s n).cpuFinishO

def Pipeline.coreRun (env : Env) (s : Pipeline) : CoreRun where
  occupied := fun n => (Traced.run env s n).wbSlot.isSome
  retired := Traced.retired env s
  arch := fun n => (Traced.run env s n).toArch
  finish := fun n => (Traced.run env s n).cpuFinishO

namespace CoreRun

variable (c : CoreRun) (env : Env) (plat : Platform) (d K : Nat)

/-- Each of the first instructions is in the last stage in its own cycle and in no other, on the
registers and devices of the sequential machine. -/
structure OnTime : Prop where
  cycle : ∀ k, k ≤ K → ∀ n, c.occupied n = true ∧ c.retired n = k ↔
    n = Sequential.cycleOf env plat d k
  state : ∀ k, k ≤ K →
    (c.arch (Sequential.cycleOf env plat d k)).Agrees (Sequential.run env plat k)

/-- `cpu_finish_o` is low until instruction `K` is in the last stage, and then high exactly
under the condition `raised`. -/
structure FinishesAt (raised : Prop) : Prop where
  low : ∀ n, n < Sequential.cycleOf env plat d K → c.finish n = false
  high : c.finish (Sequential.cycleOf env plat d K) = true ↔ raised

end CoreRun

section Cores

variable {env : Env} {two : TwoStage} {three : ThreeStage} {four : Pipeline} {K : Nat}

theorem TwoStage.onTime (hp : Sequential.HaltFreeTo env two.plat K) :
    (two.coreRun env).OnTime env two.plat 1 K :=
  ⟨fun _ hk => Traced.slot_iff_cycleOf hp hk, fun _ hk => (Traced.slot_at_cycleOf hp hk).2⟩

theorem ThreeStage.onTime (hp : Sequential.PipelinableTo env three.plat K) :
    (three.coreRun env).OnTime env three.plat 2 K :=
  ⟨fun _ hk => Traced.ex_iff_cycleOf hp hk, fun _ hk => (Traced.ex_at_cycleOf hp hk).2⟩

theorem Pipeline.onTime (hp : Sequential.PipelinableTo env four.plat K) :
    (four.coreRun env).OnTime env four.plat 3 K :=
  ⟨fun _ hk => Traced.wb_iff_cycleOf hp hk, fun _ hk => (Traced.wb_at_cycleOf hp hk).2⟩

/-- With `t` transfers in front of it, instruction `k` is in the last stage of the 2-, 3- and
4-stage core in cycle `1 + k + t`, `2 + k + 2 t` and `3 + k + 3 t`. -/
theorem pipelines_on_time {plat : Platform} (hp : Sequential.PipelinableTo env plat K)
    (h2 : two.plat = plat) (h3 : three.plat = plat) (h4 : four.plat = plat) :
    (two.coreRun env).OnTime env plat 1 K ∧ (three.coreRun env).OnTime env plat 2 K ∧
      (four.coreRun env).OnTime env plat 3 K := by
  refine ⟨?_, ?_, ?_⟩
  · rw [← h2] at hp ⊢
    exact TwoStage.onTime hp.haltFree
  · rw [← h3] at hp ⊢
    exact ThreeStage.onTime hp
  · rw [← h4] at hp ⊢
    exact Pipeline.onTime hp

theorem TwoStage.finishesAt (hp : Sequential.HaltFreeTo env two.plat K) :
    (two.coreRun env).FinishesAt env two.plat 1 K
      (IsHaltWord (Sequential.instruction env two.plat K)) :=
  ⟨fun _ => Traced.not_finish_before hp, Traced.finish_iff_of_path hp⟩

theorem ThreeStage.finishesAt (hp : Sequential.PipelinableTo env three.plat K)
    (hw : LooksLikeEbreak (Sequential.instruction env three.plat K)) :
    (three.coreRun env).FinishesAt env three.plat 2 K (Sequential.AheadNamesX0 env three.plat K) :=
  have hc := Traced.comparesRdP env three
  have hrun := Traced.slots_run env three
  ⟨fun _ => hc.low hp (Traced.inStepTo hp) hrun Traced.occupied_of_pcSrc,
    hc.high_iff (Traced.inStepTo hp) hrun Traced.occupied_of_pcSrc hw⟩

theorem Pipeline.finishesAt (hp : Sequential.PipelinableTo env four.plat K)
    (hw : LooksLikeEbreak (Sequential.instruction env four.plat K)) :
    (four.coreRun env).FinishesAt env four.plat 3 K (Sequential.AheadNamesX0 env four.plat K) :=
  have hc := Traced.comparesRdP env four
  have hrun := Traced.slots_run env four
  ⟨fun _ => hc.low hp (Traced.inStepTo hp) hrun Traced.occupied_of_pcSrc,
    hc.high_iff (Traced.inStepTo hp) hrun Traced.occupied_of_pcSrc hw⟩

end Cores

/-! ## 6. A program that ends -/

/-- ADDI x1, x0, 1; BEQ x0, x0, 8; ADDI x1, x0, 2; SW x1, 64(x0); EBREAK: the second ADDI is
skipped, and the store in front of the EBREAK has a zero in the bits of rd. -/
def branchAndHalt : Platform :=
  Platform.ofProgram [0x00100093#32, 0x00000463#32, 0x00200093#32, 0x04102023#32, ebreakWord]

/-- The store goes to the bytes from 64 on, every fetch is below 20. -/
theorem branchAndHalt_pipelinable : Sequential.PipelinableTo Env.zero branchAndHalt 3 where
  noSystem := by decide
  noSelfModification := by
    intro j k x hj hk hst hf
    have hpcs : ∀ k, k ≤ 3 → (Sequential.run Env.zero branchAndHalt k).pcP ≤ 16#32 := by decide
    have haddrs : ∀ j, j < 3 →
        (Sequential.effects Env.zero (Sequential.run Env.zero branchAndHalt j)).dataWe = true →
        (Sequential.effects Env.zero (Sequential.run Env.zero branchAndHalt j)).dataAddr = 64#32 := by
      decide
    have hpc := hpcs k hk
    have haddr := haddrs j hj
    have hlow : x < 20#32 := by
      rcases hf.2 with rfl | rfl | rfl | rfl <;> bv_omega
    obtain ⟨hwe, _, hin, _⟩ := hst
    rcases hin with rfl | rfl | rfl | rfl <;> rw [haddr hwe] at hlow <;>
      exact absurd hlow (by decide)

/-- With the branch in front of it, the EBREAK is in the last stage of the 4-stage core in cycle
`3 + 3 + 3 * 1`. -/
theorem pipelines_on_time_branchAndHalt :
    Sequential.cycleOf Env.zero branchAndHalt 3 3 = 9 ∧
    (TwoStage.coreRun Env.zero (TwoStage.ofPlatform branchAndHalt)).OnTime Env.zero
      branchAndHalt 1 3 ∧
    (ThreeStage.coreRun Env.zero (ThreeStage.ofPlatform branchAndHalt)).OnTime Env.zero
      branchAndHalt 2 3 ∧
    (Pipeline.coreRun Env.zero { Pipeline.ofProgram [] with plat := branchAndHalt }).OnTime
      Env.zero branchAndHalt 3 3 :=
  ⟨by decide, pipelines_on_time branchAndHalt_pipelinable rfl rfl rfl⟩

end MicroRiscv
