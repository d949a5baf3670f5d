import MicroRiscv.QsortAsm

/-!
# The stack frame of the assembly sort program

The whole program, from `_start` to the EBREAK, for any words on `stdin`. `main` has the 64
bytes from 0x7AC on as its frame: the size at 0x7B4, the array `A` at 0x7B8, the saved `s0`
at 0x7E4 and the saved `ra` at 0x7E8. The run is cut at the call of `main`, at its entry,
behind its prologue and before its epilogue.

Results:
1. `start_spec`, `prologue_spec`, `body_spec`, `epilogue_spec`: the pieces.
2. `saved_step`: no store of the body meets the saved registers.
3. `exists_frameSafe`: the program keeps to its frame and restores the registers.
-/

namespace MicroRiscv

namespace QsortAsm

/-! ## The frame -/

/-- A word of the frame of `main`. -/
def InFrame (a : Word) : Prop := 0x7ac ≤ a.toNat ∧ a.toNat + 4 ≤ 0x7ec

/-- A word of the array `A`. -/
def InArray (a : Word) : Prop := 0x7b8 ≤ a.toNat ∧ a.toNat + 4 ≤ 0x7e0

/-- An instruction of `input`. -/
def InInput (pc : Word) : Prop := addressOf source .input ≤ pc ∧ pc < addressOf source .output

def savedS0 : Word := 0x7e4#32
def savedRa : Word := 0x7e8#32
def sizeSlot : Word := 0x7b4#32
def arrayA : Word := 0x7b8#32

/-- `sp`, `s0` and `s1..s11`. -/
def preserved : List RegIdx := [sp, s0, s1, s2, s3, s4, s5, s6, s7, s8, s9, s10, s11]

/-- The state after `i` instructions. -/
def run (s : Machine) (i : Nat) : Machine := Machine.step^[i] s

/-- The run from `s` calls `main` after `c` instructions, enters it after `m`, is behind its
prologue after `p`, before its epilogue after `e` and at the EBREAK after `n`. -/
structure FrameSafe (s : Machine) (c m p e n : Nat) : Prop where
  order : c < m ∧ m < p ∧ p < e ∧ e < n
  call : (run s c).pc = pcOf 14 ∧ ∀ i, i < c → (run s i).pc ≠ pcOf 14
  entry : (run s m).pc = addressOf source .main ∧
    ∀ i, i < m → (run s i).pc ≠ addressOf source .main
  prologue : (run s p).pc = pcOf 40 ∧ ∀ i, i < p → (run s i).pc ≠ pcOf 40
  epilogue : (run s e).pc = pcOf 51 ∧ ∀ i, i < e → (run s i).pc ≠ pcOf 51
  ends : (run s n).pc = pcOf 15 ∧ (∀ i, i < n → (run s i).pc ≠ pcOf 15) ∧
    ∀ i, n ≤ i → run s i = run s n
  stores : ∀ i a, (run s i).storeAddr = some a → a = stdoutStart ∨ InFrame a
  input : ∀ i a, (run s i).storeAddr = some a → InInput (run s i).pc → InArray a
  saved : ∀ i, p ≤ i → i ≤ e →
    readWord (run s i).mem savedRa = (run s m).regs.x ra ∧
    readWord (run s i).mem savedS0 = (run s m).regs.x s0
  restores : ∀ i, i ∈ preserved → (run s n).regs.x i = (run s c).regs.x i

/-! ## 1. Pieces -/

/-- The machine is at one of the lines `lo..hi`, and its store, if it makes one, is as it
should be. -/
structure Phase (lo hi : Nat) (s : Machine) : Prop where
  line : ∃ k, lo ≤ k ∧ k ≤ hi ∧ s.pc = pcOf k
  stores : ∀ a, s.storeAddr = some a → a = stdoutStart ∨ InFrame a
  input : ∀ a, s.storeAddr = some a → InInput s.pc → InArray a

/-- The next store leaves the saved registers alone. -/
def Spares (s : Machine) : Prop :=
  ∀ a, s.storeAddr = some a → a.toNat % 4 = 0 ∧ a ≠ savedRa ∧ a ≠ savedS0

theorem toNat_pcOf {k : Nat} (hk : k < 55) : (pcOf k).toNat = 4 * k := by
  rw [pcOf, BitVec.toNat_ofNat]
  omega

theorem inInput_pcOf {k : Nat} (hk : k < 55) : InInput (pcOf k) ↔ 17 ≤ k ∧ k ≤ 28 := by
  have hin : (addressOf source .input).toNat = 68 := rfl
  have hout : (addressOf source .output).toNat = 116 := rfl
  rw [InInput, BitVec.le_def, BitVec.lt_def, toNat_pcOf hk, hin, hout]
  omega

section Regions

def nowhere : program.Region where
  has _ := False
  behind _ h := h.elim

def saveArea : program.Region where
  has a := a = savedRa ∨ a = savedS0
  behind := by
    rintro a (rfl | rfl) <;>
    · unfold Program.Behind
      decide

def sizeArea : program.Region where
  has a := a = sizeSlot
  behind := by
    rintro a rfl
    unfold Program.Behind
    decide

theorem arrayAt_arrayA : ArrayAt arrayA := by
  constructor <;> decide

theorem inArray_of_has {a : Word} (h : arrayAt_arrayA.region.has a) : InArray a := by
  obtain ⟨i, hi, rfl⟩ := h
  have hbase : arrayA.toNat = 0x7b8 := rfl
  rw [InArray, arrayAt_arrayA.toNat_element hi, hbase]
  omega

theorem InArray.inFrame {a : Word} (h : InArray a) : InFrame a := by
  unfold InArray at h
  unfold InFrame
  omega

end Regions

section Phases

variable {lo hi lo' hi' : Nat} {A : program.Region} {s : Machine}

theorem phase_of_within (h : program.Within lo hi A s) (hlo : lo' ≤ lo) (hhi : hi ≤ hi')
    (hend : hi' < 55) (hst : ∀ a, A.has a → a = stdoutStart ∨ InFrame a)
    (hin : hi < 17 ∨ 28 < lo ∨ ∀ a, A.has a → InArray a) : Phase lo' hi' s := by
  obtain ⟨⟨k, hk, hk', hpc⟩, hstores⟩ := h
  refine ⟨⟨k, by omega, by omega, hpc⟩, fun a ha => hst a (hstores a ha), fun a ha hinput => ?_⟩
  rcases hin with hbefore | hafter | harray
  · rw [hpc, inInput_pcOf (by omega)] at hinput
    omega
  · rw [hpc, inInput_pcOf (by omega)] at hinput
    omega
  · exact harray a (hstores a ha)

end Phases

/-- After the startup code. -/
structure Started (t : Machine) : Prop where
  pc : t.pc = pcOf 14
  sp : t.regs.x sp = 0x7ec#32
  s0 : t.regs.x s0 = 0x7ec#32
  held : program.HeldBy t.mem

theorem start_spec {s : Machine} (hheld : program.HeldBy s.mem) (hpc : s.pc = pcOf 0) :
    program.Runs 0 13 nowhere Started s := by
  obtain ⟨r, pc, mem, stdin, noise, stdout⟩ := s
  obtain rfl : pc = pcOf 0 := hpc
  refine .addi hheld rfl ?_
  refine .addi hheld rfl ?_
  refine .lui hheld rfl ?_
  refine .addi hheld rfl ?_
  refine .add hheld rfl ?_
  refine .add hheld rfl ?_
  refine .add hheld rfl ?_
  refine .add hheld rfl ?_
  refine .add hheld rfl ?_
  refine .add hheld rfl ?_
  refine .add hheld rfl ?_
  refine .add hheld rfl ?_
  refine .add hheld rfl ?_
  refine .add hheld rfl ?_
  refine .done ⟨rfl, ?_, ?_, hheld⟩
  · simp +decide [r.x0]
  · simp +decide [r.x0]

/-- At the first line of `main`, called in `c`. -/
structure Entered (c t : Machine) : Prop where
  pc : t.pc = pcOf 36
  link : t.regs.x ra = pcOf 15
  sp : t.regs.x sp = 0x7ec#32
  s0 : t.regs.x s0 = 0x7ec#32
  keeps : Keeps [ra] c.regs t.regs
  held : program.HeldBy t.mem

theorem call_spec {c : Machine} (h : Started c) : program.Runs 14 14 nowhere (Entered c) c := by
  obtain ⟨r, pc, mem, stdin, noise, stdout⟩ := c
  obtain rfl : pc = pcOf 14 := h.pc
  have hsp : r.x sp = 0x7ec#32 := h.sp
  have hs0 : r.x s0 = 0x7ec#32 := h.s0
  refine .jal h.held rfl ?_
  refine .done ⟨rfl, ?_, ?_, ?_, (Keeps.refl _ _).set (by decide) _, h.held⟩
  · simp +decide
  · simp +decide [hsp]
  · simp +decide [hs0]

/-- The registers that `main` and the routines it calls use. -/
def clobbered : List RegIdx := [ra, sp, s0, a0, a1, a2, t0, t1, t2, t3]

/-- At line `k` of the body of `main`, which was entered in `m`. -/
structure InBody (m : Machine) (k : Nat) (t : Machine) : Prop where
  pc : t.pc = pcOf k
  sp : t.regs.x sp = 0x7ac#32
  s0 : t.regs.x s0 = 0x7ec#32
  keeps : Keeps clobbered m.regs t.regs
  held : program.HeldBy t.mem

/-- The words of the saved registers. -/
def Saved (m t : Machine) : Prop :=
  readWord t.mem savedRa = m.regs.x ra ∧ readWord t.mem savedS0 = m.regs.x s0

theorem prologue_spec {c m : Machine} (h : Entered c m) :
    program.Runs 36 39 saveArea (fun t => InBody m 40 t ∧ Saved m t) m := by
  obtain ⟨r, pc, mem, stdin, noise, stdout⟩ := m
  obtain rfl : pc = pcOf 36 := h.pc
  have hsp : r.x sp = 0x7ec#32 := h.sp
  have hra : (r.set sp (r.x sp + BitVec.ofInt 32 (-64))).x sp + BitVec.ofInt 32 60 = savedRa := by
    simp +decide [hsp]
  have hs0 : (r.set sp (r.x sp + BitVec.ofInt 32 (-64))).x sp + BitVec.ofInt 32 56 = savedS0 := by
    simp +decide [hsp]
  refine .addi h.held rfl ?_
  refine .sw_mem h.held rfl hra (by decide) (.inl rfl) fun hheld => ?_
  refine .sw_mem hheld rfl hs0 (by decide) (.inr rfl) fun hheld => ?_
  refine .addi hheld rfl ?_
  refine .done ⟨⟨rfl, ?_, ?_, ?_, hheld⟩, ?_, ?_⟩
  · simp +decide [hsp]
  · simp +decide [hsp]
  · exact ((Keeps.refl _ _).set (by decide) _).set (by decide) _
  · rw [readWord_writeWord _ (by decide) (by decide) (by decide), if_neg (by decide),
      readWord_writeWord _ (by decide) (by decide) (by decide), if_pos rfl]
    simp +decide
  · rw [readWord_writeWord _ (by decide) (by decide) (by decide), if_pos rfl]
    simp +decide

/-! ### The body -/

/-- The body stores to the frame and to `stdout`, but not to the saved registers. -/
structure BodyArea (A : program.Region) : Prop where
  stores : ∀ a, A.has a → a = stdoutStart ∨ InFrame a
  spares : ∀ a, A.has a → a ≠ savedRa ∧ a ≠ savedS0

theorem bodyArea_nowhere : BodyArea nowhere := ⟨fun _ h => h.elim, fun _ h => h.elim⟩

theorem bodyArea_port : BodyArea port := by
  constructor
  · exact fun a ha => .inl ha
  · rintro a rfl
    decide

theorem bodyArea_sizeArea : BodyArea sizeArea := by
  constructor
  · rintro a rfl
    unfold InFrame
    decide
  · rintro a rfl
    decide

theorem bodyArea_array : BodyArea arrayAt_arrayA.region := by
  constructor
  · exact fun a ha => .inr (inArray_of_has ha).inFrame
  · intro a ha
    obtain ⟨-, hend⟩ := inArray_of_has ha
    constructor <;>
    · rintro rfl
      exact absurd hend (by decide)

/-- A step of the body. -/
def Body (s : Machine) : Prop := Phase 16 50 s ∧ Spares s

section BodyOfRuns

variable {lo hi : Nat} {A : program.Region} {Q : Machine → Prop} {s : Machine}

theorem body_of_runs (hlines : 16 ≤ lo ∧ hi ≤ 50) (hA : BodyArea A)
    (hin : hi < 17 ∨ 28 < lo ∨ ∀ a, A.has a → InArray a) (h : program.Runs lo hi A Q s) :
    Until Machine.step Body Q s := by
  refine Until.mono h (fun t ht => ⟨?_, fun a ha => ?_⟩) fun _ hq => hq
  · exact phase_of_within ht hlines.1 hlines.2 (by decide) hA.stores hin
  · have hhas := ht.stores a ha
    exact ⟨(A.behind a hhas).1, hA.spares a hhas⟩

theorem body_of_runs_outside (hlines : 16 ≤ lo ∧ hi ≤ 50) (hA : BodyArea A)
    (hin : hi < 17 ∨ 28 < lo) (h : program.Runs lo hi A Q s) : Until Machine.step Body Q s :=
  body_of_runs hlines hA (by tauto) h

end BodyOfRuns

section Body

variable {m t u : Machine} {k k' : Nat}

theorem inBody_after {rs : List RegIdx} (h : InBody m k t) (hkeeps : Keeps rs t.regs u.regs)
    (hsub : rs ⊆ clobbered) (hsp : sp ∉ rs) (hs0 : s0 ∉ rs) (hpc : u.pc = pcOf k')
    (hheld : program.HeldBy u.mem) : InBody m k' u :=
  ⟨hpc, (hkeeps sp hsp).trans h.sp, (hkeeps s0 hs0).trans h.s0, h.keeps.trans hkeeps hsub, hheld⟩

theorem callInput_spec (h : InBody m 40 t) : program.Runs 40 41 nowhere
    (fun u => InBody m 17 u ∧ u.regs.x a0 = arrayA ∧ u.regs.x ra = pcOf 42) t := by
  obtain ⟨r, pc, mem, stdin, noise, stdout⟩ := t
  obtain rfl : pc = pcOf 40 := h.pc
  have hs0 : r.x s0 = 0x7ec#32 := h.s0
  have hkeeps := Keeps.refl [a0, ra] r
  refine .addi h.held rfl ?_
  refine .jal h.held rfl ?_
  refine .done ⟨inBody_after h ((hkeeps.set (by decide) _).set (by decide) _) (by decide)
    (by decide) (by decide) rfl h.held, ?_, ?_⟩
  · simp +decide [hs0, arrayA]
  · simp +decide

theorem inputInBody_spec (h : InBody m 17 t) (harg : t.regs.x a0 = arrayA)
    (hra : t.regs.x ra = pcOf 42) :
    program.Runs 17 28 arrayAt_arrayA.region (InBody m 42) t := by
  have hret : t.regs.x ra &&& ~~~1#32 = t.regs.x ra := by
    rw [hra]
    decide
  refine (input_spec arrayAt_arrayA h.held h.pc harg hret).mono fun u hu => ?_
  exact inBody_after h hu.keeps (by decide) (by decide) (by decide) (hu.pc.trans hra) hu.held

theorem callQsort_spec (h : InBody m 42 t) : program.Runs 42 46 sizeArea
    (fun u => InBody m 16 u ∧ u.regs.x ra = pcOf 47) t := by
  obtain ⟨r, pc, mem, stdin, noise, stdout⟩ := t
  obtain rfl : pc = pcOf 42 := h.pc
  have hslot : r.x s0 + BitVec.ofInt 32 (-56) = sizeSlot := by
    rw [show r.x s0 = 0x7ec#32 from h.s0]
    rfl
  have hkeeps := Keeps.refl [a0, a1, a2, ra] r
  refine .sw_mem h.held rfl hslot (by decide) rfl fun hheld => ?_
  refine .addi hheld rfl ?_
  refine .addi hheld rfl ?_
  refine .addi hheld rfl ?_
  refine .jal hheld rfl ?_
  refine .done ⟨inBody_after h ((((hkeeps.set (by decide) _).set (by decide) _).set (by decide)
    _).set (by decide) _) (by decide) (by decide) (by decide) rfl hheld, ?_⟩
  simp +decide

/-- `qsort` does nothing yet. -/
theorem qsort_spec (h : InBody m 16 t) (hra : t.regs.x ra = pcOf 47) :
    program.Runs 16 16 nowhere (InBody m 47) t := by
  obtain ⟨r, pc, mem, stdin, noise, stdout⟩ := t
  obtain rfl : pc = pcOf 16 := h.pc
  have hlink : r.x ra = pcOf 47 := hra
  have hret : r.x ra &&& ~~~1#32 = r.x ra := by
    rw [hlink]
    decide
  refine .jalr h.held rfl hret ?_
  exact .done ⟨hlink, h.sp, h.s0, h.keeps, h.held⟩

theorem callOutput_spec (h : InBody m 47 t) : program.Runs 47 49 nowhere
    (fun u => InBody m 29 u ∧ u.regs.x ra = pcOf 50) t := by
  obtain ⟨r, pc, mem, stdin, noise, stdout⟩ := t
  obtain rfl : pc = pcOf 47 := h.pc
  have hkeeps := Keeps.refl [a0, a1, ra] r
  refine .lw h.held rfl fun size stdin' noise' _ => ?_
  refine .addi h.held rfl ?_
  refine .jal h.held rfl ?_
  refine .done ⟨inBody_after h (((hkeeps.set (by decide) _).set (by decide) _).set (by decide) _)
    (by decide) (by decide) (by decide) rfl h.held, ?_⟩
  simp +decide

theorem outputInBody_spec (h : InBody m 29 t) (hra : t.regs.x ra = pcOf 50) :
    program.Runs 29 35 port (InBody m 50) t := by
  have hret : t.regs.x ra &&& ~~~1#32 = t.regs.x ra := by
    rw [hra]
    decide
  refine (output_spec h.held h.pc hret).mono fun u hu => ?_
  have hheld : program.HeldBy u.mem := by
    rw [hu.mem]
    exact h.held
  exact inBody_after h hu.keeps (by decide) (by decide) (by decide) (hu.pc.trans hra) hheld

theorem result_spec (h : InBody m 50 t) : program.Runs 50 50 nowhere (InBody m 51) t := by
  obtain ⟨r, pc, mem, stdin, noise, stdout⟩ := t
  obtain rfl : pc = pcOf 50 := h.pc
  refine .addi h.held rfl ?_
  exact .done (inBody_after h ((Keeps.refl [a0] r).set (by decide) _) (by decide) (by decide)
    (by decide) rfl h.held)

theorem body_spec (h : InBody m 40 t) : Until Machine.step Body (InBody m 51) t := by
  have hnowhere := bodyArea_nowhere
  refine (body_of_runs_outside (by decide) hnowhere (by decide) (callInput_spec h)).bind ?_
  rintro t ⟨h, harg, hra⟩
  have hinput := inputInBody_spec h harg hra
  refine (body_of_runs (by decide) bodyArea_array (.inr (.inr fun _ => inArray_of_has))
    hinput).bind ?_
  intro t h
  refine (body_of_runs_outside (by decide) bodyArea_sizeArea (by decide) (callQsort_spec h)).bind ?_
  rintro t ⟨h, hra⟩
  refine (body_of_runs_outside (by decide) hnowhere (by decide) (qsort_spec h hra)).bind ?_
  intro t h
  refine (body_of_runs_outside (by decide) hnowhere (by decide) (callOutput_spec h)).bind ?_
  rintro t ⟨h, hra⟩
  have houtput := outputInBody_spec h hra
  refine (body_of_runs_outside (by decide) bodyArea_port (by decide) houtput).bind ?_
  intro t h
  exact body_of_runs_outside (by decide) hnowhere (by decide) (result_spec h)

end Body

/-! ### The epilogue -/

/-- Back in the startup code. -/
structure Returned (m t : Machine) : Prop where
  pc : t.pc = m.regs.x ra
  sp : t.regs.x sp = 0x7ec#32
  s0 : t.regs.x s0 = m.regs.x s0
  keeps : Keeps clobbered m.regs t.regs
  held : program.HeldBy t.mem

theorem epilogue_spec {c m t : Machine} (hm : Entered c m) (h : InBody m 51 t)
    (hsaved : Saved m t) : program.Runs 51 54 nowhere (Returned m) t := by
  obtain ⟨r, pc, mem, stdin, noise, stdout⟩ := t
  obtain rfl : pc = pcOf 51 := h.pc
  obtain ⟨hsavedRa, hsavedS0⟩ : readWord mem savedRa = m.regs.x ra ∧
    readWord mem savedS0 = m.regs.x s0 := hsaved
  have hsp : r.x sp = 0x7ac#32 := h.sp
  have hslotS0 : r.x sp + BitVec.ofInt 32 56 = savedS0 := by
    rw [hsp]
    rfl
  have hslotRa : (r.set s0 (readWord mem savedS0)).x sp + BitVec.ofInt 32 60 = savedRa := by
    simp +decide [hsp]
  refine .lw_mem h.held rfl hslotS0 (by decide) ?_
  refine .lw_mem h.held rfl hslotRa (by decide) ?_
  refine .addi h.held rfl ?_
  refine .jalr h.held rfl ?_ ?_
  · simp +decide [hsavedRa, hm.link]
  · refine .done ⟨?_, ?_, ?_, ?_, h.held⟩
    · simp +decide [hsavedRa]
    · simp +decide [hsp]
    · simp +decide [hsavedS0]
    · exact ((h.keeps.set (by decide) _).set (by decide) _).set (by decide) _

/-! ## 2. The saved registers -/

theorem saved_step {m t : Machine} (hbody : Body t) (h : Saved m t) : Saved m t.step := by
  obtain ⟨-, hspares⟩ := hbody
  obtain ⟨hra, hs0⟩ := h
  constructor
  · rw [Machine.readWord_step (by decide) fun a ha => ⟨(hspares a ha).1, (hspares a ha).2.1⟩]
    exact hra
  · rw [Machine.readWord_step (by decide) fun a ha => ⟨(hspares a ha).1, (hspares a ha).2.2⟩]
    exact hs0

/-! ## 3. The run -/

/-- The run from `s`, cut into its pieces. -/
structure Cuts (s : Machine) (c m p e n : Nat) : Prop where
  order : c ≤ m ∧ m ≤ p ∧ p ≤ e ∧ e ≤ n
  started : Started (run s c)
  entered : Entered (run s c) (run s m)
  inBody : InBody (run s m) 40 (run s p)
  leaves : InBody (run s m) 51 (run s e) ∧ Saved (run s m) (run s e)
  returned : Returned (run s m) (run s n)
  start : ∀ i, i < c → Phase 0 13 (run s i)
  call : ∀ i, c ≤ i → i < m → Phase 14 14 (run s i)
  prologue : ∀ i, m ≤ i → i < p → Phase 36 39 (run s i)
  body : ∀ i, p ≤ i → i < e → Phase 16 50 (run s i) ∧ Saved (run s m) (run s i)
  epilogue : ∀ i, e ≤ i → i < n → Phase 51 54 (run s i)

/-- A piece outside of `input`. -/
theorem phase_of_runs {lo hi : Nat} {A : program.Region} {Q : Machine → Prop} {s : Machine}
    (hst : ∀ a, A.has a → a = stdoutStart ∨ InFrame a) (hin : hi < 17 ∨ 28 < lo) (hend : hi < 55)
    (h : program.Runs lo hi A Q s) : Until Machine.step (Phase lo hi) Q s :=
  Until.mono h (fun _ ht => phase_of_within ht le_rfl le_rfl hend hst (by tauto)) fun _ hq => hq

theorem exists_cuts {s : Machine} (hheld : program.HeldBy s.mem) (hpc : s.pc = pcOf 0) :
    ∃ c m p e n, Cuts s c m p e n := by
  have hnowhere : ∀ a, nowhere.has a → a = stdoutStart ∨ InFrame a := fun _ h => h.elim
  have hsave : ∀ a, saveArea.has a → a = stdoutStart ∨ InFrame a := by
    rintro a (rfl | rfl) <;>
    · unfold InFrame
      decide
  have hstart := phase_of_runs hnowhere (by decide) (by decide) (start_spec hheld hpc)
  obtain ⟨c, -, hc, hbeforeC⟩ := Until.exists_later (c := 0) hstart
  have hcall := phase_of_runs hnowhere (by decide) (by decide) (call_spec hc)
  obtain ⟨m, hcm, hm, hbeforeM⟩ := hcall.exists_later
  have hprologue := phase_of_runs hsave (by decide) (by decide) (prologue_spec hm)
  obtain ⟨p, hmp, ⟨hp, hsaved⟩, hbeforeP⟩ := hprologue.exists_later
  have hbody := (body_spec hp).invariant hsaved fun t ht => saved_step ht
  obtain ⟨e, hpe, he, hbeforeE⟩ := hbody.exists_later
  have hepilogue := phase_of_runs hnowhere (by decide) (by decide) (epilogue_spec hm he.1 he.2)
  obtain ⟨n, hen, hn, hbeforeN⟩ := hepilogue.exists_later
  exact ⟨c, m, p, e, n, ⟨hcm, hmp, hpe, hen⟩, hc, hm, hp, he, hn,
    fun i hi => hbeforeC i (Nat.zero_le i) hi, hbeforeM, hbeforeP,
    fun i hi hi' => ⟨(hbeforeE i hi hi').1.1, (hbeforeE i hi hi').2⟩, hbeforeN⟩

section Cuts

variable {s : Machine} {c m p e n i k : Nat}

theorem pcOf_inj {j : Nat} (hj : j < 55) (hk : k < 55) (h : pcOf j = pcOf k) : j = k := by
  have hnat := congrArg BitVec.toNat h
  rw [toNat_pcOf hj, toNat_pcOf hk] at hnat
  omega

/-- The piece that a step belongs to. -/
theorem phase_of_cuts (h : Cuts s c m p e n) (hi : i < n) : ∃ lo hi, Phase lo hi (run s i) ∧
    hi < 55 ∧ (i < c → hi < 14) ∧ (c ≤ i → i < m → lo = 14 ∧ hi = 14) ∧
    (m ≤ i → i < p → 36 ≤ lo ∧ hi < 40) ∧ (p ≤ i → i < e → 16 ≤ lo ∧ hi < 51) ∧
    (e ≤ i → 51 ≤ lo) := by
  obtain ⟨hcm, hmp, hpe, -⟩ := h.order
  rcases Nat.lt_or_ge i c with hc | hc
  · exact ⟨0, 13, h.start i hc, by omega⟩
  rcases Nat.lt_or_ge i m with hm | hm
  · exact ⟨14, 14, h.call i hc hm, by omega⟩
  rcases Nat.lt_or_ge i p with hp | hp
  · exact ⟨36, 39, h.prologue i hm hp, by omega⟩
  rcases Nat.lt_or_ge i e with he | he
  · exact ⟨16, 50, (h.body i hp he).1, by omega⟩
  · exact ⟨51, 54, h.epilogue i he hi, by omega⟩

/-- A step is at no line outside of its piece. -/
theorem pc_ne_of_cuts (h : Cuts s c m p e n) (hi : i < n) (hk : k < 55) (hstart : i < c → 14 ≤ k)
    (hcall : c ≤ i → i < m → k ≠ 14) (hprologue : m ≤ i → i < p → k < 36 ∨ 40 ≤ k)
    (hbody : p ≤ i → i < e → k < 16 ∨ 51 ≤ k) (hepilogue : e ≤ i → k < 51) :
    (run s i).pc ≠ pcOf k := by
  intro hpc
  obtain ⟨lo, hi, ⟨⟨j, hlo, hhi, hpc'⟩, -, -⟩, hend, hpieces⟩ := phase_of_cuts h hi
  obtain rfl := pcOf_inj (by omega) hk (hpc'.symm.trans hpc)
  omega

/-- The EBREAK makes no store and keeps the state. -/
theorem ebreak_of_cuts (h : Cuts s c m p e n) : (run s n).pc = pcOf 15 ∧
    (run s n).storeAddr = none ∧ ∀ i, n ≤ i → run s i = run s n := by
  have hpc : (run s n).pc = pcOf 15 := h.returned.pc.trans h.entered.link
  obtain ⟨hstep, haddr⟩ := step_of_loaded (i := .ebreak) program.assembles h.returned.held rfl hpc
  refine ⟨hpc, haddr, fun i hi => ?_⟩
  obtain ⟨d, rfl⟩ := Nat.exists_eq_add_of_le' hi
  unfold run at *
  rw [Function.iterate_add_apply]
  exact Function.iterate_fixed hstep d

theorem restores_of_cuts (h : Cuts s c m p e n) :
    ∀ i, i ∈ preserved → (run s n).regs.x i = (run s c).regs.x i := by
  have hcases : ∀ i : RegIdx, i ∈ preserved → i = sp ∨ i = s0 ∨ i ∉ clobbered ∧ i ∉ [ra] := by
    decide
  intro i hi
  rcases hcases i hi with rfl | rfl | ⟨hmain, hcall⟩
  · rw [h.returned.sp, h.started.sp]
  · rw [h.returned.s0, h.entered.s0, h.started.s0]
  · rw [h.returned.keeps i hmain, h.entered.keeps i hcall]

theorem frameSafe_of_cuts (h : Cuts s c m p e n) : FrameSafe s c m p e n := by
  obtain ⟨hcm, hmp, hpe, hen⟩ := h.order
  obtain ⟨hend, hnone, hstop⟩ := ebreak_of_cuts h
  have hne : ∀ {i j k l : Nat}, (run s i).pc = pcOf k → (run s j).pc = pcOf l → pcOf k ≠ pcOf l →
      i ≠ j := by
    rintro i j k l hi hj hkl rfl
    exact hkl (hi.symm.trans hj)
  have hcm' := hne h.started.pc h.entered.pc (by decide)
  have hmp' := hne h.entered.pc h.inBody.pc (by decide)
  have hpe' := hne h.inBody.pc h.leaves.1.pc (by decide)
  have hen' := hne h.leaves.1.pc hend (by decide)
  have hstores : ∀ i a, (run s i).storeAddr = some a →
      (a = stdoutStart ∨ InFrame a) ∧ (InInput (run s i).pc → InArray a) := by
    intro i a ha
    rcases Nat.lt_or_ge i n with hi | hi
    · obtain ⟨lo, hi, hphase, -⟩ := phase_of_cuts h hi
      exact ⟨hphase.stores a ha, hphase.input a ha⟩
    · rw [hstop i hi, hnone] at ha
      cases ha
  constructor
  case order => omega
  case call => exact ⟨h.started.pc, fun i hi => by apply pc_ne_of_cuts h <;> omega⟩
  case entry => exact ⟨h.entered.pc, fun i hi => by apply pc_ne_of_cuts h (k := 36) <;> omega⟩
  case prologue => exact ⟨h.inBody.pc, fun i hi => by apply pc_ne_of_cuts h <;> omega⟩
  case epilogue => exact ⟨h.leaves.1.pc, fun i hi => by apply pc_ne_of_cuts h <;> omega⟩
  case ends => exact ⟨hend, fun i hi => by apply pc_ne_of_cuts h <;> omega, hstop⟩
  case stores => exact fun i a ha => (hstores i a ha).1
  case input => exact fun i a ha => (hstores i a ha).2
  case saved =>
    intro i hp he
    rcases Nat.lt_or_eq_of_le he with hlt | rfl
    · exact (h.body i hp hlt).2
    · exact h.leaves.2
  case restores => exact restores_of_cuts h

end Cuts

/-- For any words on `stdin`, any registers and any memory behind the program. -/
theorem exists_frameSafe {s : Machine} (hheld : program.HeldBy s.mem)
    (hpc : s.pc = addressOf source .start) : ∃ c m p e n, FrameSafe s c m p e n := by
  obtain ⟨c, m, p, e, n, h⟩ := exists_cuts hheld hpc
  exact ⟨c, m, p, e, n, frameSafe_of_cuts h⟩

theorem exists_frameSafe_minus_one : ∃ c m p e n,
    FrameSafe (Machine.boot (assemble source) [0xffffffff#32]) c m p e n :=
  exists_frameSafe Program.heldBy_image rfl

end QsortAsm

end MicroRiscv
