import MicroRiscv.PipelineSlots
import MicroRiscv.Lib.ByteMemory

/-!
# The devices as a word memory with an output log

A core sees the devices through its two ports, one access at a time. Behind them is a
memory of bytes, with a region comparison for each device; what they amount to is
`WordStore`: a word for each aligned address and the log of the printed words.
`Represents` relates the two.

Results:
1. `writeWord_eq_store`: the byte lanes store a little-endian word.
2. `Represents.edge`, `represents_run`: the devices refine the word store.
3. `WordStore.run_word`: in the word store a read gives the latest write.
4. `memory_refines`: both, and what an access leaves alone.
5. `SingleCycle.run_reads_latest`, `Traced.run_reads_latest`: in a run of a core a fetch or a
   load gives the latest word that the run has stored there.
-/

namespace MicroRiscv

/-! ## Accesses -/

/-- An access through the ports of a core: an instruction fetch, a data read or a data
write. -/
inductive BusAccess
  | fetch (addr : Word)
  | read (addr : Word)
  | write (addr data : Word)
deriving DecidableEq, Repr

namespace BusAccess

def addr : BusAccess → Word
  | fetch a => a
  | read a => a
  | write a _ => a

/-- The accesses a program may make: aligned, fetches from the memory, data accesses below
the end of the memory map. -/
def Allowed : BusAccess → Prop
  | fetch a => a.toNat % 4 = 0 ∧ a < memSize
  | read a => a.toNat % 4 = 0 ∧ a < 0x800#32
  | write a _ => a.toNat % 4 = 0 ∧ a < 0x800#32

/-- The devices after the cycle of the access. -/
def edge (p : Platform) : BusAccess → Platform
  | fetch _ => p.tick false false 0#32 0#32
  | read a => p.tick true false a 0#32
  | write a v => p.tick false true a v

/-- The word that comes back. -/
def response (env : Env) (p : Platform) : BusAccess → Option Word
  | fetch a => some (instrRdata env p a)
  | read a => some (dataRdata env p a)
  | write _ _ => none

/-- What the access writes to the word at `a`. -/
def writes (a : Word) : BusAccess → Option Word
  | write b v => if b = a then some v else none
  | _ => none

end BusAccess

/-- The devices after a sequence of accesses. -/
def Platform.runAccesses (p : Platform) (accs : List BusAccess) : Platform :=
  accs.foldl BusAccess.edge p

/-- The data port of a core in one cycle: it reads, writes or is idle. -/
def dataAccesses (re we : Bool) (addr wdata : Word) : List BusAccess :=
  if re then [.read addr] else if we then [.write addr wdata] else []

/-- The accesses of the first `n` cycles. -/
def accessesOf (cycle : Nat → List BusAccess) (n : Nat) : List BusAccess :=
  (List.range n).flatMap cycle

/-- The latest write to the word at `a`. -/
def latestWrite (a : Word) (accs : List BusAccess) : Option Word :=
  (accs.reverse.filterMap (BusAccess.writes a)).head?

/-- The words written to `stdout`, in order. -/
def printed (accs : List BusAccess) : List Word :=
  accs.filterMap (BusAccess.writes stdoutStart)

/-! ## The word store -/

/-- A word for each address, and the printed words. -/
structure WordStore where
  word : Word → Word
  log : List Word

namespace WordStore

/-- A write goes to the memory, to the log or nowhere. -/
def edge (s : WordStore) : BusAccess → WordStore
  | .write a v =>
    if a < memSize then { s with word := Function.update s.word a v }
    else if a = stdoutStart then { s with log := s.log ++ [v] }
    else s
  | _ => s

def run (s : WordStore) (accs : List BusAccess) : WordStore := accs.foldl edge s

end WordStore

/-- The platform `p` holds the words of the store at the aligned addresses of the memory,
and its output. -/
structure Represents (p : Platform) (s : WordStore) : Prop where
  word : ∀ a : Word, a.toNat % 4 = 0 → a < memSize → readWord p.mem a = s.word a
  log : p.stdout = s.log

/-! ## 1. Byte lanes -/

theorem readWord_eq_load (mem : Word → Byte) (a : Word) :
    readWord mem a = ByteMemory.load mem a := rfl

theorem lt_memSize {a : Word} : a < memSize ↔ a.toNat < 2028 := Iff.rfl

theorem toNat_add_small {a : Word} (ha : a.toNat < 2048) {k : Nat} (hk : k < 4) :
    (a + BitVec.ofNat 32 k).toNat = a.toNat + k := by
  rw [BitVec.toNat_add, BitVec.toNat_ofNat]
  omega

/-- An aligned address of the memory has its whole word in the array. -/
theorem inWord_lt_memSize {a x : Word} (ha : a.toNat % 4 = 0) (hlt : a < memSize)
    (hx : inWord a x) : x < memSize := by
  rw [lt_memSize] at *
  have hsmall : a.toNat < 2048 := by omega
  rcases hx with rfl | rfl | rfl | rfl
  · exact hlt
  · have := toNat_add_small hsmall (show 1 < 4 by decide)
    omega
  · have := toNat_add_small hsmall (show 2 < 4 by decide)
    omega
  · have := toNat_add_small hsmall (show 3 < 4 by decide)
    omega

/-- The four byte writes of `memory` store a little-endian word. -/
theorem writeWord_eq_store (mem : Word → Byte) {a : Word} (ha : a.toNat % 4 = 0)
    (hlt : a < memSize) (v : Word) : writeWord mem a v = ByteMemory.store mem a v := by
  have h1 := inWord_lt_memSize ha hlt (.inr (.inl rfl))
  have h2 := inWord_lt_memSize ha hlt (.inr (.inr (.inl rfl)))
  have h3 := inWord_lt_memSize ha hlt (.inr (.inr (.inr rfl)))
  funext x
  have hlane0 : x = a ↔ (x - a).toNat = 0 := by bv_omega
  have hlane : ∀ k : Word, x = a + k ↔ (x - a).toNat = k.toNat := by
    intro k
    bv_omega
  unfold writeWord setByte ByteMemory.store
  simp only [hlt, h1, h2, h3, and_true, hlane, hlane0, BitVec.toNat_ofNat]
  -- the lane of x decides
  generalize (x - a).toNat = d
  match d with
  | 0 | 1 | 2 | 3 => rfl
  | d + 4 => simp

theorem apart_of_aligned {a b : Word} (ha : a.toNat % 4 = 0) (hb : b.toNat % 4 = 0)
    (hne : a ≠ b) : ByteMemory.Apart a b := by
  have hnat : a.toNat ≠ b.toNat := fun h => hne (BitVec.eq_of_toNat_eq h)
  have hlt := a.isLt
  have hlt' := b.isLt
  intro k hk
  rw [BitVec.toNat_sub, BitVec.toNat_add, BitVec.toNat_ofNat]
  omega

theorem readWord_writeWord (mem : Word → Byte) {a b : Word} (ha : a.toNat % 4 = 0)
    (hlt : a < memSize) (hb : b.toNat % 4 = 0) (v : Word) :
    readWord (writeWord mem a v) b = if a = b then v else readWord mem b := by
  rw [writeWord_eq_store mem ha hlt, readWord_eq_load, readWord_eq_load]
  split
  · next h =>
    subst h
    exact ByteMemory.load_store (by decide) mem a v
  · next h => exact ByteMemory.load_store_of_apart mem v (apart_of_aligned ha hb h)

/-! ## 2. The devices refine the word store -/

section Regions

variable {a : Word}

theorem memSel_iff : memSel a = true ↔ a < memSize := by
  have hstart : memStart ≤ a := BitVec.le_def.mpr (Nat.zero_le _)
  have hend : memStart + memSize = memSize := rfl
  rw [memSel, inRegion, decide_eq_true_iff, hend]
  exact and_iff_right hstart

theorem instrMemSel_iff : instrMemSel a = true ↔ a < memSize := memSel_iff

/-- An aligned address selects `stdout` if it is its address. -/
theorem stdoutSel_iff (ha : a.toNat % 4 = 0) : stdoutSel a = true ↔ a = stdoutStart := by
  have hstart : stdoutStart.toNat = 2044 := rfl
  have hend : (stdoutStart + stdoutSize).toNat = 2048 := rfl
  rw [stdoutSel, inRegion, decide_eq_true_iff, BitVec.le_def, BitVec.lt_def,
    ← BitVec.toNat_inj, hstart, hend]
  omega

end Regions

theorem edge_write_mem {p : Platform} {a : Word} (hlt : a < memSize) (v : Word) :
    BusAccess.edge p (.write a v) = { p with mem := writeWord p.mem a v } := by
  have hmem : memSel a = true := memSel_iff.mpr hlt
  have hout : stdoutSel a = false := by
    have hstart : stdoutStart.toNat = 2044 := rfl
    rw [lt_memSize] at hlt
    rw [stdoutSel, inRegion, decide_eq_false_iff_not, BitVec.le_def, hstart]
    omega
  simp [BusAccess.edge, Platform.tick, hmem, hout]

theorem edge_write_stdout (p : Platform) (v : Word) :
    BusAccess.edge p (.write stdoutStart v) = { p with stdout := p.stdout ++ [v] } := by
  have hmem : memSel stdoutStart = false := by decide
  have hout : stdoutSel stdoutStart = true := by decide
  simp [BusAccess.edge, Platform.tick, hmem, hout]

/-- The locations between the memory and `stdout` ignore writes. -/
theorem edge_write_unmapped {p : Platform} {a : Word} (ha : a.toNat % 4 = 0)
    (hmem : ¬ a < memSize) (hout : a ≠ stdoutStart) (v : Word) :
    BusAccess.edge p (.write a v) = p := by
  have h1 : memSel a = false := Bool.eq_false_iff.mpr fun h => hmem (memSel_iff.mp h)
  have h2 : stdoutSel a = false := Bool.eq_false_iff.mpr fun h => hout ((stdoutSel_iff ha).mp h)
  simp [BusAccess.edge, Platform.tick, h1, h2]

/-- A read changes neither the memory nor the output. -/
theorem edge_read (p : Platform) (a : Word) :
    (BusAccess.edge p (.read a)).mem = p.mem ∧
      (BusAccess.edge p (.read a)).stdout = p.stdout := by
  simp [BusAccess.edge, Platform.tick]

theorem edge_fetch (p : Platform) (a : Word) : BusAccess.edge p (.fetch a) = p :=
  tick_idle p _ _

/-- One access keeps the relation. -/
theorem Represents.edge {p : Platform} {s : WordStore} (h : Represents p s) {x : BusAccess}
    (hx : x.Allowed) : Represents (x.edge p) (s.edge x) := by
  cases x with
  | fetch a =>
    rw [edge_fetch]
    exact h
  | read a =>
    obtain ⟨hmem, hout⟩ := edge_read p a
    refine ⟨fun b hb hlt => ?_, hout.trans h.log⟩
    rw [hmem]
    exact h.word b hb hlt
  | write a v =>
    obtain ⟨ha, _⟩ := hx
    simp only [WordStore.edge]
    split
    · next hlt =>
      rw [edge_write_mem hlt]
      refine ⟨fun b hb hbl => ?_, h.log⟩
      show readWord (writeWord p.mem a v) b = Function.update s.word a v b
      rw [readWord_writeWord p.mem ha hlt hb, Function.update_apply, h.word b hb hbl]
      simp only [eq_comm]
    · next hmem =>
      split
      · next hout =>
        rw [hout, edge_write_stdout]
        exact ⟨h.word, congrArg (· ++ [v]) h.log⟩
      · next hout =>
        rw [edge_write_unmapped ha hmem hout]
        exact h

theorem represents_run {p : Platform} {s : WordStore} (h : Represents p s)
    {accs : List BusAccess} (hall : ∀ x, x ∈ accs → x.Allowed) :
    Represents (p.runAccesses accs) (s.run accs) := by
  induction accs generalizing p s with
  | nil => exact h
  | cons x accs ih =>
    have hx : x.Allowed := hall x List.mem_cons_self
    exact ih (h.edge hx) fun y hy => hall y (List.mem_cons_of_mem x hy)

/-! ## 3. Latest writes -/

theorem latestWrite_cons (a : Word) (x : BusAccess) (accs : List BusAccess) :
    latestWrite a (x :: accs) = (latestWrite a accs).or (x.writes a) := by
  have hlast : ([x].filterMap (BusAccess.writes a)).head? = x.writes a := by
    cases hw : x.writes a <;> simp [hw]
  unfold latestWrite
  rw [List.reverse_cons, List.filterMap_append, List.head?_append, hlast]

theorem WordStore.edge_word {a : Word} (ha : a < memSize) (s : WordStore) (x : BusAccess) :
    (s.edge x).word a = (x.writes a).getD (s.word a) := by
  cases x with
  | fetch | read => rfl
  | write b v =>
    simp only [WordStore.edge, BusAccess.writes]
    by_cases hba : b = a
    · subst hba
      simp [ha]
    · rw [if_neg hba]
      split
      · exact Function.update_of_ne (Ne.symm hba) _ _
      · split <;> rfl

theorem WordStore.edge_log (s : WordStore) (x : BusAccess) :
    (s.edge x).log = s.log ++ (x.writes stdoutStart).toList := by
  cases x with
  | fetch | read => exact (List.append_nil _).symm
  | write b v =>
    have hout : ¬ stdoutStart < memSize := by decide
    simp only [WordStore.edge, BusAccess.writes]
    by_cases hb : b = stdoutStart
    · subst hb
      simp [hout]
    · simp only [if_neg hb]
      split <;> exact (List.append_nil _).symm

/-- In the word store a word of the memory is the latest write to it, or the first one. -/
theorem WordStore.run_word {a : Word} (ha : a < memSize) (s : WordStore)
    (accs : List BusAccess) : (s.run accs).word a = (latestWrite a accs).getD (s.word a) := by
  induction accs generalizing s with
  | nil => rfl
  | cons x accs ih =>
    show ((s.edge x).run accs).word a = _
    rw [ih, edge_word ha, latestWrite_cons]
    cases latestWrite a accs <;> rfl

/-- Its log is extended by the words written to `stdout`. -/
theorem WordStore.run_log (s : WordStore) (accs : List BusAccess) :
    (s.run accs).log = s.log ++ printed accs := by
  induction accs generalizing s with
  | nil => exact (List.append_nil _).symm
  | cons x accs ih =>
    show ((s.edge x).run accs).log = _
    rw [ih, edge_log, List.append_assoc]
    cases hw : x.writes stdoutStart <;> simp [printed, hw]

/-! ## 4. The refinement -/

/-- What one more access `x` may do to the devices `p`. -/
structure Confined (env : Env) (p : Platform) (x : BusAccess) : Prop where
  /-- Only a write to the memory changes bytes, those of its own word in the array. -/
  changes : ∀ b, (x.edge p).mem b ≠ p.mem b →
    (∃ v, x = .write x.addr v) ∧ x.addr < memSize ∧ inWord x.addr b ∧ b < memSize
  /-- What comes back depends on the bytes of its own word in the array alone. -/
  depends : ∀ m : Word → Byte, (∀ b, inWord x.addr b → b < memSize → m b = p.mem b) →
    x.response env { p with mem := m } = x.response env p
  /-- Reads change neither the memory nor the output. -/
  reads : (∀ v, x ≠ .write x.addr v) → (x.edge p).mem = p.mem ∧ (x.edge p).stdout = p.stdout
  /-- A write to `stdout` appends its word and does nothing else. -/
  prints : ∀ v, x = .write stdoutStart v → x.edge p = { p with stdout := p.stdout ++ [v] }
  /-- A write between the memory and `stdout` does nothing. -/
  ignores : ∀ v, x = .write x.addr v → memSize ≤ x.addr → x.addr < stdoutStart → x.edge p = p

theorem instrRdata_eq {env : Env} {p : Platform} {a : Word} (h : a < memSize) :
    instrRdata env p a = readWord p.mem a := by
  rw [instrRdata, if_pos (instrMemSel_iff.mpr h)]

theorem dataRdata_eq {env : Env} {p : Platform} {a : Word} (h : a < memSize) :
    dataRdata env p a = readWord p.mem a := by
  rw [dataRdata, if_pos (memSel_iff.mpr h)]

theorem confined (env : Env) (p : Platform) {x : BusAccess} (hx : x.Allowed) :
    Confined env p x where
  changes b hb := by
    cases x with
    | fetch a => rw [edge_fetch] at hb; exact absurd rfl hb
    | read a => rw [(edge_read p a).1] at hb; exact absurd rfl hb
    | write a v =>
      by_cases hlt : a < memSize
      · rw [edge_write_mem hlt] at hb
        by_contra hnot
        refine hb (writeWord_other fun hin => hnot ⟨⟨v, rfl⟩, hlt, hin⟩)
      · by_cases hout : a = stdoutStart
        · rw [hout, edge_write_stdout] at hb
          exact absurd rfl hb
        · rw [edge_write_unmapped hx.1 hlt hout] at hb
          exact absurd rfl hb
  depends m hm := by
    have hword (ha : x.addr.toNat % 4 = 0) (hlt : x.addr < memSize) :
        readWord m x.addr = readWord p.mem x.addr :=
      readWord_congr fun b hb => hm b hb (inWord_lt_memSize ha hlt hb)
    cases x with
    | fetch a =>
      simp only [BusAccess.response, instrRdata_eq hx.2]
      exact congrArg some (hword hx.1 hx.2)
    | read a =>
      simp only [BusAccess.response, dataRdata]
      split
      · next hsel => exact congrArg some (hword hx.1 (memSel_iff.mp hsel))
      · rfl
    | write a v => rfl
  reads hr := by
    cases x with
    | fetch a => rw [edge_fetch]; exact ⟨rfl, rfl⟩
    | read a => exact edge_read p a
    | write a v => exact absurd rfl (hr v)
  prints v hv := by rw [hv, edge_write_stdout]
  ignores v hv hlo hhi := by
    have hmem : ¬ x.addr < memSize := by
      rw [BitVec.not_lt]
      exact hlo
    have hout : x.addr ≠ stdoutStart := fun h => by
      rw [h] at hhi
      exact absurd hhi (by decide)
    have ha : x.addr.toNat % 4 = 0 := by cases x <;> exact hx.1
    rw [hv]
    exact edge_write_unmapped ha hmem hout v

/-- On the devices `q` a fetch and a load of an aligned address of the memory give the latest of
the writes `accs` or the word that was there in `p`, and the output has grown by those of them
that print. -/
structure ReadsLatest (env : Env) (p : Platform) (accs : List BusAccess) (q : Platform) : Prop where
  fetch : ∀ a : Word, a.toNat % 4 = 0 → a < memSize →
    instrRdata env q a = (latestWrite a accs).getD (readWord p.mem a)
  load : ∀ a : Word, a.toNat % 4 = 0 → a < memSize →
    dataRdata env q a = (latestWrite a accs).getD (readWord p.mem a)
  stdout : q.stdout = p.stdout ++ printed accs

theorem readsLatest_runAccesses (env : Env) (p : Platform) {accs : List BusAccess}
    (hall : ∀ x, x ∈ accs → x.Allowed) : ReadsLatest env p accs (p.runAccesses accs) := by
  have hrep : Represents p ⟨readWord p.mem, p.stdout⟩ := ⟨fun _ _ _ => rfl, rfl⟩
  have hrun := represents_run hrep hall
  have hword : ∀ a : Word, a.toNat % 4 = 0 → a < memSize →
      readWord (p.runAccesses accs).mem a = (latestWrite a accs).getD (readWord p.mem a) := by
    intro a ha hlt
    rw [hrun.word a ha hlt, WordStore.run_word hlt]
  refine ⟨fun a ha hlt => ?_, fun a ha hlt => ?_, hrun.log.trans (WordStore.run_log _ _)⟩
  · rw [instrRdata_eq hlt, hword a ha hlt]
  · rw [dataRdata_eq hlt, hword a ha hlt]

/-- The devices refine a word memory with an output log. After any sequence of allowed
accesses a fetch or a read of an aligned address of the memory gives the latest write to it
or the first little-endian word, the output has grown by the words written to it, and every
further access is confined to what it asks for. -/
theorem memory_refines (env : Env) (p : Platform) (accs : List BusAccess)
    (hall : ∀ x, x ∈ accs → x.Allowed) :
    let q := p.runAccesses accs
    (∀ a : Word, a.toNat % 4 = 0 → a < memSize →
      let latest := (latestWrite a accs).getD (readWord p.mem a)
      BusAccess.response env q (.fetch a) = some latest ∧
      BusAccess.response env q (.read a) = some latest) ∧
    q.stdout = p.stdout ++ printed accs ∧
    ∀ x : BusAccess, x.Allowed → Confined env q x := by
  intro q
  have hlatest : ReadsLatest env p accs q := readsLatest_runAccesses env p hall
  refine ⟨fun a ha hlt => ⟨?_, ?_⟩, hlatest.stdout, fun x hx => confined env q hx⟩
  · exact congrArg some (hlatest.fetch a ha hlt)
  · exact congrArg some (hlatest.load a ha hlt)

/-- Two writes to the last word of the memory with an output between them. -/
theorem memory_refines_last_word :
    let accs : List BusAccess :=
      [.write 0x7e8#32 0x11223344#32, .write 0x7fc#32 5#32, .write 0x7e8#32 0xaabbccdd#32]
    let q := (Platform.ofProgram []).runAccesses accs
    BusAccess.response Env.zero q (.read 0x7e8#32) = some 0xaabbccdd#32 ∧ q.stdout = [5#32] := by
  intro accs q
  have hall : ∀ x, x ∈ accs → x.Allowed := by
    intro x hx
    simp only [accs, List.mem_cons, List.not_mem_nil, or_false] at hx
    rcases hx with rfl | rfl | rfl <;> exact ⟨by decide, by decide⟩
  obtain ⟨hread, hout, _⟩ := memory_refines Env.zero (Platform.ofProgram []) accs hall
  exact ⟨(hread 0x7e8#32 (by decide) (by decide)).2, hout⟩

/-! ## 5. Runs of the cores -/

/-- A clock edge of the devices is the access of the data port, as no core raises both enables
at once. -/
theorem tick_eq_runAccesses {re we : Bool} (h : ¬ (re = true ∧ we = true)) (p : Platform)
    (addr wdata : Word) :
    p.tick re we addr wdata = p.runAccesses (dataAccesses re we addr wdata) := by
  cases re with
  | true =>
    cases we with
    | true => exact absurd ⟨rfl, rfl⟩ h
    | false => simp [dataAccesses, Platform.runAccesses, BusAccess.edge, Platform.tick]
  | false =>
    cases we with
    | true => rfl
    | false => simp [dataAccesses, Platform.runAccesses]

theorem runAccesses_accessesOf (plat : Nat → Platform) {cycle : Nat → List BusAccess}
    (h : ∀ n, plat (n + 1) = (plat n).runAccesses (cycle n)) (n : Nat) :
    plat n = (plat 0).runAccesses (accessesOf cycle n) := by
  induction n with
  | zero => rfl
  | succ n ih =>
    unfold accessesOf
    rw [h, ih, List.range_succ, List.flatMap_append, Platform.runAccesses, Platform.runAccesses,
      Platform.runAccesses, List.foldl_append, List.flatMap_singleton]
    rfl

theorem decoder_one_access (divu : Bool) (r : RegIdx) (w : Word) :
    ¬ ((decoder divu r w).aluMemRead = true ∧ (decoder divu r w).aluMemWrite = true) := by
  rcases decoder_spec divu r w with ⟨m, -, hctrl⟩ | ⟨-, hctrl⟩
  · rw [hctrl]
    cases m <;> decide
  · rw [hctrl]
    decide

/-- The data access of the single-cycle core in the state `s`. -/
def SingleCycle.accesses (env : Env) (s : SingleCycle) : List BusAccess :=
  let g := s.signals env
  dataAccesses g.ctrl.aluMemRead g.ctrl.aluMemWrite g.aluResult g.regData2

/-- In a run of the single-cycle core with allowed accesses only. -/
theorem SingleCycle.run_reads_latest (env : Env) (plat : Platform) (n : Nat) :
    let accs := accessesOf (fun k => (SingleCycle.run env plat k).accesses env) n
    (∀ x, x ∈ accs → x.Allowed) → ReadsLatest env plat accs (SingleCycle.run env plat n).plat := by
  intro accs hall
  have hplat : (SingleCycle.run env plat n).plat = plat.runAccesses accs := by
    refine runAccesses_accessesOf (fun k => (SingleCycle.run env plat k).plat) (fun k => ?_) n
    rw [SingleCycle.run_succ]
    exact tick_eq_runAccesses (decoder_one_access _ _ _) _ _ _
  rw [hplat]
  exact readsLatest_runAccesses env plat hall

/-- The data access of the 4-stage core in the state `s`, that of WB. -/
def Pipeline.accesses (s : Pipeline) : List BusAccess :=
  dataAccesses s.exWb.aluMemReadExP s.exWb.aluMemWriteExP s.exWb.aluResultP s.exWb.regData2ExP

theorem Traced.Inv.one_access {t : Traced} (h : t.Inv) :
    ¬ (t.exWb.aluMemReadExP = true ∧ t.exWb.aluMemWriteExP = true) := by
  cases hwb : t.wbSlot with
  | none =>
    rw [(h.wbNone hwb).memRead]
    exact fun hboth => Bool.false_ne_true hboth.1
  | some f =>
    rw [h.wbSome f hwb]
    exact decoder_one_access false (rd f.ahead) f.word

/-- In a run of the 4-stage core with allowed accesses only. -/
theorem Traced.run_reads_latest (env : Env) (s : Pipeline) (n : Nat) :
    let accs := accessesOf (fun k => (Traced.run env s k).accesses) n
    (∀ x, x ∈ accs → x.Allowed) → ReadsLatest env s.plat accs (Traced.run env s n).plat := by
  intro accs hall
  have hplat : (Traced.run env s n).plat = s.plat.runAccesses accs := by
    refine runAccesses_accessesOf (fun k => (Traced.run env s k).plat) (fun k => ?_) n
    rw [Traced.run_succ]
    exact tick_eq_runAccesses (Traced.inv_run env s k).one_access _ _ _
  rw [hplat]
  exact readsLatest_runAccesses env s.plat hall

end MicroRiscv
