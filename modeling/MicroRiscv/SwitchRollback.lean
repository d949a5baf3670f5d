import MicroRiscv.SwitchTicks
import Mathlib.Tactic.FinCases

/-!
# Answered and rejected ticks

Whether a tick request is answered, and what a rejected one leaves behind, is decided by
the first entry of its body that is not well-formed: when that entry lacks a key, the
lookup fails its assertion and nobody is answered; when it is rejected, the frames of the
entries in front of it stay in their queues.

Results:
1. `tick_answered_iff`: which requests are answered.
2. `tick_untouched_iff`: when a rejected request leaves the simulation as it was.
3. `rollback_iff`: the same over a run, and what it means for the receive queues.
-/

namespace MicroRiscv

namespace SwitchServer

open Fallible (exec outcome)

variable {F : Type} {c : Codec F} {n : Nat} {s : Server} {sw : EthernetSwitch}
  {switchId : Option String} {content : String} {es : Vector (Json F) numPorts}

/-! ## 1. The first defect -/

/-- An entry whose first defect is not a missing key: a lookup or a conversion throws. -/
def Rejects (c : Codec F) (content : Json F) : Prop := ¬ WellFormed c content ∧ ¬ LacksKey c content

theorem decodeEntry_thrown_iff {content : Json F} :
    decodeEntry c content = .error .thrown ↔ Rejects c content := by
  unfold Rejects
  rw [← decodeEntry_ok_iff]
  constructor
  · intro h
    refine ⟨fun ⟨o, ho⟩ => ?_, fun hlacks => ?_⟩
    · rw [h] at ho
      cases ho
    · rw [decodeEntry_aborted_iff.mpr ⟨rfl, hlacks⟩] at h
      cases h
  · rintro ⟨hok, hlacks⟩
    rcases hd : decodeEntry c content with (_ | a) | o
    · rfl
    · exact absurd (decodeEntry_aborted_iff.mp hd).2 hlacks
    · exact absurd ⟨o, hd⟩ hok

theorem outcome_thrown_iff :
    outcome (entryEffect c n es) (List.finRange numPorts) = .error .thrown ↔
      ∃ k : Port, Rejects c (es.get k) ∧ ∀ j, j < k → WellFormed c (es.get j) := by
  rw [outcome_entries_error_iff]
  simp only [decodeEntry_thrown_iff]

theorem outcome_aborted_iff {a : Assertion} :
    outcome (entryEffect c n es) (List.finRange numPorts) = .error (.aborted a) ↔
      a = .keyExists ∧
        ∃ k : Port, LacksKey c (es.get k) ∧ ∀ j, j < k → WellFormed c (es.get j) := by
  rw [outcome_entries_error_iff]
  simp only [decodeEntry_aborted_iff]
  constructor
  · rintro ⟨k, ⟨ha, hk⟩, hbefore⟩
    exact ⟨ha, k, hk, hbefore⟩
  · rintro ⟨ha, k, hk, hbefore⟩
    exact ⟨k, ⟨ha, hk⟩, hbefore⟩

/-! ## 2. Answers -/

/-- The handler finishes, no assertion has failed, and one response is written. -/
def Answered (served : Served F) : Prop :=
  served.aborted = none ∧ ∃ r, served.written = [r] ∧ r.status.code ∈ [200, 400, 412]

theorem StatusCode.code_mem (status : StatusCode) : status.code ∈ [200, 400, 412] := by
  cases status <;> decide

/-- The first entry that is not well-formed lacks a key. -/
def LacksKeyFirst (c : Codec F) (content : String) : Prop :=
  ∃ es : Vector (Json F) numPorts, entries c content = some es ∧
    ∃ k : Port, LacksKey c (es.get k) ∧ ∀ j, j < k → WellFormed c (es.get j)

/-- What a request with a body of eight entries leads to. -/
theorem serve_tick_cases (h : Current s switchId sw) (hes : entries c content = some es) :
    (outcome (entryEffect c n es) (List.finRange numPorts) = .ok () ∧
      ∃ response, serve c n (.tick switchId content) s =
        ⟨none, [⟨.successOk, [("Content-Type", "application/json")], some response⟩],
          ⟨s.id, some (sw.mapPorts fun p port =>
            ((port.receive (delivered c n es p)).drain).sent)⟩⟩) ∨
    (outcome (entryEffect c n es) (List.finRange numPorts) = .error .thrown ∧
      serve c n (.tick switchId content) s = ⟨none, [⟨.clientErrorBadRequest, [], none⟩],
        ⟨s.id, some (sw.mapPorts fun p => EthernetPort.receive (delivered c n es p))⟩⟩) ∨
    ∃ a, outcome (entryEffect c n es) (List.finRange numPorts) = .error (.aborted a) ∧
      (serve c n (.tick switchId content) s).aborted = some a ∧
      (serve c n (.tick switchId content) s).written = [] := by
  rw [serve_tick_parsed h hes]
  rcases hout : outcome (entryEffect c n es) (List.finRange numPorts) with (_ | a) | ⟨⟨⟩⟩
  · rw [exec_serveTick_error hout]
    exact .inr (.inl ⟨rfl, rfl⟩)
  · rw [exec_serveTick_error hout]
    exact .inr (.inr ⟨a, rfl, rfl, rfl⟩)
  · obtain ⟨response, hrun⟩ := exec_serveTick_ok hout sw
    rw [hrun]
    exact .inl ⟨rfl, response, rfl⟩

/-- A tick request is answered unless it has the current id and a body of which the first
entry that is not well-formed lacks a key. -/
theorem tick_answered_iff (c : Codec F) (n : Nat) (s : Server) (switchId : Option String)
    (content : String) : Answered (serve c n (.tick switchId content) s) ↔
      ¬ ((∃ sw, Current s switchId sw) ∧ LacksKeyFirst c content) := by
  by_cases hcur : ∃ sw, Current s switchId sw
  · obtain ⟨sw, hcur⟩ := hcur
    cases hes : entries c content with
    | none =>
      rw [serve_tick_unparsed hcur hes]
      refine iff_of_true ⟨rfl, _, rfl, StatusCode.code_mem _⟩ ?_
      rintro ⟨-, es, he, -⟩
      rw [hes] at he
      cases he
    | some es =>
      have hfirst : LacksKeyFirst c content ↔
          ∃ a, outcome (entryEffect c n es) (List.finRange numPorts) = .error (.aborted a) := by
        simp only [outcome_aborted_iff, exists_eq_left]
        constructor
        · rintro ⟨_, he, hk⟩
          cases hes.symm.trans he
          exact hk
        · exact fun hk => ⟨es, hes, hk⟩
      rw [hfirst]
      rcases serve_tick_cases (n := n) hcur hes with ⟨hout, r, hserve⟩ | ⟨hout, hserve⟩ |
        ⟨a, hout, haborted, hwritten⟩
      · rw [hserve, hout]
        exact iff_of_true ⟨rfl, _, rfl, StatusCode.code_mem _⟩ fun ⟨_, _, he⟩ => nomatch he
      · rw [hserve, hout]
        exact iff_of_true ⟨rfl, _, rfl, StatusCode.code_mem _⟩ fun ⟨_, _, he⟩ => nomatch he
      · refine iff_of_false ?_ fun hno => hno ⟨⟨sw, hcur⟩, a, hout⟩
        rintro ⟨hnone, -⟩
        rw [haborted] at hnone
        cases hnone
  · obtain ⟨status, hstatus, hserve⟩ :=
      serve_tick_not_current c n content fun sw h => hcur ⟨sw, h⟩
    rw [hserve]
    exact iff_of_true ⟨rfl, _, rfl, List.mem_cons_of_mem _ hstatus⟩ fun h => hcur h.1

/-- An entry with a frame that is in order. -/
def sampleEntry : Json Empty :=
  .object [("vlan", .null), ("frame", .object [
    ("target", bytesJson [0#8, 0#8, 0#8, 0#8, 0#8, 1#8]),
    ("source", bytesJson [0#8, 0#8, 0#8, 0#8, 0#8, 2#8]),
    ("etherType", .numberUnsigned 2048#64), ("data", .array []), ("checksumOK", .boolean true)])]

def emptyEntryBody : String := "[\x7b\x7d,null,null,null,null,null,null,null]"

def frameThenNumberBody : String :=
  "[\x7b\"vlan\":null,\"frame\":\x7b\"target\":[0,0,0,0,0,1],\"source\":[0,0,0,0,0,2]," ++
  "\"etherType\":2048,\"data\":[],\"checksumOK\":true\x7d\x7d,7,null,null,null,null,null,null]"

/-- The parser on two bodies. -/
def sampleCodec : Codec Empty where
  parse content :=
    if content = emptyEntryBody then
      some (.array (.object [] :: List.replicate 7 .null))
    else if content = frameThenNumberBody then
      some (.array (sampleEntry :: .numberUnsigned 7#64 :: List.replicate 6 .null))
    else none
  toUnsigned := fun _ x => nomatch x

/-- An entry without keys ends the program, in the first simulation already. -/
theorem empty_entry_not_answered : ¬ ∀ (requests : Nat → Request) (n : Nat) (s : Server),
    run sampleCodec requests n = some s →
    ∀ switchId content, Answered (serve sampleCodec n (.tick switchId content) s) := by
  intro h
  have hrun : run sampleCodec (fun _ => .helo) 1 =
      some ⟨1#64, some (EthernetSwitch.new "1")⟩ := rfl
  have hanswered := (h _ 1 _ hrun (some "1") emptyEntryBody).1
  have haborted : (serve sampleCodec 1 (.tick (some "1") emptyEntryBody)
      ⟨1#64, some (EthernetSwitch.new "1")⟩).aborted = some .keyExists := by decide
  rw [haborted] at hanswered
  cases hanswered

/-! ## 3. Rejected requests -/

/-- The same queues and the same VLANs at every port. -/
def SameState (sw sw' : EthernetSwitch) : Prop :=
  ∀ p, sw'.ports p = sw.ports p ∧ sw'.getPortVLAN p = sw.getPortVLAN p

/-- No entry in front of the one that is rejected brings a frame. -/
def Harmless (c : Codec F) (content : String) : Prop :=
  ∀ (es : Vector (Json F) numPorts) (k : Port), entries c content = some es → Rejects c (es.get k) →
    (∀ j, j < k → WellFormed c (es.get j)) → ∀ j, j < k → ¬ CarriesFrame (es.get j)

theorem sameState_receive_iff {new : Port → List Received} :
    SameState sw (sw.mapPorts fun p => EthernetPort.receive (new p)) ↔ ∀ p, new p = [] := by
  constructor
  · intro h p
    have hport : (sw.ports p).receive (new p) = sw.ports p := (h p).1
    have hqueue : (sw.ports p).recvQueue ++ new p = (sw.ports p).recvQueue :=
      congrArg EthernetPort.recvQueue hport
    exact List.append_right_eq_self.mp hqueue
  · intro h p
    refine ⟨?_, rfl⟩
    show (sw.ports p).receive (new p) = sw.ports p
    rw [h p, EthernetPort.receive_nil]

/-- The loop that is rejected at `k` delivers nothing exactly when no entry in front of `k`
brings a frame. -/
theorem delivered_eq_nil_of_rejects {k : Port} (hk : Rejects c (es.get k))
    (hbefore : ∀ j, j < k → WellFormed c (es.get j)) :
    (∀ p, delivered c n es p = []) ↔ ∀ j, j < k → ¬ CarriesFrame (es.get j) := by
  simp only [delivered_eq_nil_iff, not_and]
  constructor
  · exact fun h j hj => h j fun q hq => hbefore q (lt_of_le_of_lt hq hj)
  · intro h p hwf
    apply h
    -- the rejected entry is behind those that are applied
    exact lt_of_not_ge fun hkp => hk.1 (hwf k hkp)

/-- What a rejected request leaves behind. -/
theorem tick_rejected (h : Current s switchId sw)
    (hbad : BadRequest (serve c n (.tick switchId content) s)) :
    (serve c n (.tick switchId content) s).aborted = none ∧
    ((entries c content = none ∧
        (serve c n (.tick switchId content) s).server.theSwitch = some sw) ∨
      ∃ (es : Vector (Json F) numPorts) (k : Port), entries c content = some es ∧
        Rejects c (es.get k) ∧ (∀ j, j < k → WellFormed c (es.get j)) ∧
        (serve c n (.tick switchId content) s).server.theSwitch =
          some (sw.mapPorts fun p => EthernetPort.receive (delivered c n es p))) := by
  cases hes : entries c content with
  | none =>
    rw [serve_tick_unparsed h hes]
    exact ⟨rfl, .inl ⟨rfl, h.1⟩⟩
  | some es =>
    obtain ⟨r, hwritten, hstatus⟩ := hbad
    rcases serve_tick_cases (n := n) h hes with ⟨-, _, hserve⟩ | ⟨hout, hserve⟩ |
      ⟨_, -, -, hnone⟩
    · rw [hserve] at hwritten
      cases hwritten
      cases hstatus
    · obtain ⟨k, hk, hbefore⟩ := outcome_thrown_iff.mp hout
      rw [hserve]
      exact ⟨rfl, .inr ⟨es, k, rfl, hk, hbefore, rfl⟩⟩
    · rw [hnone] at hwritten
      cases hwritten

/-- A body with a rejected entry behind well-formed ones is answered with `400`. -/
theorem badRequest_of_rejects (h : Current s switchId sw) (hes : entries c content = some es)
    {k : Port} (hk : Rejects c (es.get k)) (hbefore : ∀ j, j < k → WellFormed c (es.get j)) :
    serve c n (.tick switchId content) s = ⟨none, [⟨.clientErrorBadRequest, [], none⟩],
      ⟨s.id, some (sw.mapPorts fun p => EthernetPort.receive (delivered c n es p))⟩⟩ := by
  have hout := outcome_thrown_iff (n := n).mpr ⟨k, hk, hbefore⟩
  rcases serve_tick_cases (n := n) h hes with ⟨hout', -⟩ | ⟨-, hserve⟩ | ⟨a, hout', -⟩
  · rw [hout] at hout'
    cases hout'
  · exact hserve
  · rw [hout] at hout'
    cases hout'

/-- A rejected request leaves the simulation as it was exactly when it is harmless. -/
theorem tick_untouched_iff (n : Nat) (h : Current s switchId sw) :
    (BadRequest (serve c n (.tick switchId content) s) →
      ∃ sw', (serve c n (.tick switchId content) s).server.theSwitch = some sw' ∧
        SameState sw sw') ↔ Harmless c content := by
  constructor
  · intro huntouched es k hes hk hbefore
    have hserve := badRequest_of_rejects (n := n) h hes hk hbefore
    obtain ⟨sw', hsw', hsame⟩ := huntouched (hserve ▸ ⟨_, rfl, rfl⟩)
    rw [hserve] at hsw'
    cases hsw'
    exact (delivered_eq_nil_of_rejects hk hbefore).mp (sameState_receive_iff.mp hsame)
  · intro hharmless hbad
    obtain ⟨-, ⟨-, hsw'⟩ | ⟨es, k, hes, hk, hbefore, hsw'⟩⟩ := tick_rejected h hbad
    · exact ⟨sw, hsw', fun p => ⟨rfl, rfl⟩⟩
    · refine ⟨_, hsw', sameState_receive_iff.mpr ?_⟩
      exact (delivered_eq_nil_of_rejects hk hbefore).mpr (hharmless es k hes hk hbefore)

/-! ## 4. Runs -/

section Run

variable (c) (requests : Nat → Request)

/-- The `n`-th request of the run is a tick with the current id, on the switch `sw`. -/
def TickAt (n : Nat) (s : Server) (switchId : Option String) (content : String)
    (sw : EthernetSwitch) : Prop :=
  run c requests n = some s ∧ requests n = .tick switchId content ∧ Current s switchId sw

/-- It is answered with `400`. -/
def RejectedAt (n : Nat) : Prop :=
  ∃ s switchId content sw, TickAt c requests n s switchId content sw ∧
    BadRequest (serve c n (requests n) s)

/-- Every rejected tick of the run leaves the simulation as it was. -/
def Untouched : Prop :=
  ∀ n s switchId content sw, TickAt c requests n s switchId content sw →
    BadRequest (serve c n (requests n) s) →
    ∃ sw', (serve c n (requests n) s).server.theSwitch = some sw' ∧ SameState sw sw'

/-- Between two requests no receive queue holds a frame of a rejected tick. -/
def Clean : Prop :=
  ∀ n s sw p r, run c requests n = some s → s.theSwitch = some sw →
    r ∈ (sw.ports p).recvQueue → ¬ RejectedAt c requests r.request

/-- Every tick of the run with the current id is harmless. -/
def HarmlessRun : Prop :=
  ∀ n s switchId content sw, TickAt c requests n s switchId content sw → Harmless c content

variable {c requests}

theorem run_succ_eq_some {n : Nat} {s' : Server} : run c requests (n + 1) = some s' ↔
    ∃ s, run c requests n = some s ∧ (serve c n (requests n) s).aborted = none ∧
      (serve c n (requests n) s).server = s' := by
  rw [run]
  cases run c requests n with
  | none => simp
  | some s =>
    cases h : (serve c n (requests n) s).aborted with
    | none => simp [h]
    | some a => simp [h]

theorem TickAt.rejected_iff (h : TickAt c requests n s switchId content sw) :
    RejectedAt c requests n ↔ BadRequest (serve c n (requests n) s) := by
  constructor
  · rintro ⟨s', _, _, _, ⟨hrun, -, -⟩, hbad⟩
    cases h.1.symm.trans hrun
    exact hbad
  · exact fun hbad => ⟨s, switchId, content, sw, h, hbad⟩

/-- A frame that is in a queue after a request was there before or comes from the request. -/
theorem mem_recvQueue_step {r : Request} {p : Port} {sw' : EthernetSwitch} {x : Received}
    (hok : (serve c n r s).aborted = none) (hsw' : (serve c n r s).server.theSwitch = some sw')
    (hx : x ∈ (sw'.ports p).recvQueue) :
    (∃ sw, s.theSwitch = some sw ∧ x ∈ (sw.ports p).recvQueue) ∨
    ∃ switchId content sw, ∃ es : Vector (Json F) numPorts, r = .tick switchId content ∧
      Current s switchId sw ∧ entries c content = some es ∧ x ∈ delivered c n es p := by
  cases r with
  | helo =>
    cases hsw'
    cases hx
  | tick switchId content =>
    by_cases hcur : ∃ sw, Current s switchId sw
    · obtain ⟨sw, hcur⟩ := hcur
      cases hes : entries c content with
      | none =>
        rw [serve_tick_unparsed hcur hes] at hsw'
        exact .inl ⟨sw', hsw', hx⟩
      | some es =>
        have hsplit : ∀ y, y ∈ (sw.ports p).recvQueue ++ delivered c n es p →
            (∃ sw, s.theSwitch = some sw ∧ y ∈ (sw.ports p).recvQueue) ∨
            ∃ switchId' content' sw, ∃ es : Vector (Json F) numPorts,
              Request.tick switchId content = .tick switchId' content' ∧
              Current s switchId' sw ∧ entries c content' = some es ∧ y ∈ delivered c n es p := by
          intro y hy
          cases List.mem_append.mp hy with
          | inl hold => exact .inl ⟨sw, hcur.1, hold⟩
          | inr hnew => exact .inr ⟨switchId, content, sw, es, rfl, hcur, hes, hnew⟩
        rcases serve_tick_cases (n := n) hcur hes with ⟨-, _, hserve⟩ | ⟨-, hserve⟩ |
          ⟨a, -, haborted, -⟩
        · rw [hserve] at hsw'
          cases hsw'
          exact hsplit x (List.mem_of_mem_tail hx)
        · rw [hserve] at hsw'
          cases hsw'
          exact hsplit x hx
        · rw [haborted] at hok
          cases hok
    · obtain ⟨status, -, hserve⟩ :=
        serve_tick_not_current c n content fun sw h => hcur ⟨sw, h⟩
      rw [hserve] at hsw'
      exact .inl ⟨sw', hsw', hx⟩

/-- In a harmless run the queues hold frames of earlier requests that were not rejected. -/
theorem HarmlessRun.queued (h : HarmlessRun c requests) (n : Nat) :
    ∀ s sw p r, run c requests n = some s → s.theSwitch = some sw →
      r ∈ (sw.ports p).recvQueue → r.request < n ∧ ¬ RejectedAt c requests r.request := by
  induction n with
  | zero =>
    intro s sw p r hrun hsw hr
    cases hrun
    cases hsw
  | succ n ih =>
    intro s' sw' p r hrun hsw' hr
    obtain ⟨s, hs, hok, rfl⟩ := run_succ_eq_some.mp hrun
    rcases mem_recvQueue_step hok hsw' hr with ⟨sw, hsw, hold⟩ |
      ⟨switchId, content, sw, es, hreq, hcur, hes, hnew⟩
    · obtain ⟨hlt, hno⟩ := ih s sw p r hs hsw hold
      exact ⟨Nat.lt_succ_of_lt hlt, hno⟩
    · have htick : TickAt c requests n s switchId content sw := ⟨hs, hreq, hcur⟩
      obtain ⟨frame, rfl, -, -⟩ := mem_delivered_iff.mp hnew
      refine ⟨Nat.lt_succ_self n, fun hrejected => ?_⟩
      rw [htick.rejected_iff, hreq] at hrejected
      obtain ⟨-, ⟨hnone, -⟩ | ⟨es', k, hes', hk, hbefore, -⟩⟩ := tick_rejected hcur hrejected
      · rw [hes] at hnone
        cases hnone
      · cases hes.symm.trans hes'
        have hempty := (delivered_eq_nil_of_rejects (n := n) hk hbefore).mpr
          (h n s switchId content sw htick es k hes hk hbefore)
        rw [hempty p] at hnew
        cases hnew

/-- A tick that is not harmless leaves a frame of a rejected request behind. -/
theorem Clean.harmless (h : Clean c requests) : HarmlessRun c requests := by
  intro n s switchId content sw htick es k hes hk hbefore j hj hcarries
  have hserve := badRequest_of_rejects (n := n) htick.2.2 hes hk hbefore
  rw [← htick.2.1] at hserve
  have hrejected : RejectedAt c requests n :=
    htick.rejected_iff.mpr (hserve ▸ ⟨_, rfl, rfl⟩)
  have hrun : run c requests (n + 1) = some (serve c n (requests n) s).server :=
    run_succ_eq_some.mpr ⟨s, htick.1, by rw [hserve], rfl⟩
  obtain ⟨frame, hframe⟩ := decodeEntry_some_iff.mpr ⟨hbefore j hj, hcarries⟩
  have hnew : (⟨frame, n⟩ : Received) ∈ delivered c n es j :=
    mem_delivered_iff.mpr ⟨frame, rfl, hframe, fun q hq => hbefore q (lt_of_le_of_lt hq hj)⟩
  refine h (n + 1) _ _ j ⟨frame, n⟩ hrun (by rw [hserve]) ?_ hrejected
  exact List.mem_append_right _ hnew

/-- Rejected ticks leave the simulation untouched, and none of their frames is ever in a
receive queue between two requests, exactly in the runs whose ticks are harmless. -/
theorem rollback_iff (c : Codec F) (requests : Nat → Request) :
    (Untouched c requests ↔ HarmlessRun c requests) ∧
    (Clean c requests ↔ HarmlessRun c requests) := by
  refine ⟨⟨fun h => ?_, fun h => ?_⟩, Clean.harmless, fun h n s sw p r hrun hsw hr =>
    (h.queued n s sw p r hrun hsw hr).2⟩
  · intro n s switchId content sw htick
    apply (tick_untouched_iff n htick.2.2).mp
    rw [← htick.2.1]
    exact h n s switchId content sw htick
  · intro n s switchId content sw htick
    rw [htick.2.1]
    exact (tick_untouched_iff n htick.2.2).mpr (h n s switchId content sw htick)

/-- A number behind an entry with a frame. -/
def sampleEntries : Vector (Json Empty) numPorts :=
  #v[sampleEntry, .numberUnsigned 7#64, .null, .null, .null, .null, .null, .null]

theorem entries_frameThenNumber : entries sampleCodec frameThenNumberBody = some sampleEntries := by
  have hbody : frameThenNumberBody ≠ emptyEntryBody := by decide
  have hparse : sampleCodec.parse frameThenNumberBody =
      some (.array (sampleEntry :: .numberUnsigned 7#64 :: List.replicate 6 .null)) := by
    simp only [sampleCodec, hbody, if_false, if_true]
  refine entries_eq_some_iff.mpr ⟨_, hparse, fun p => ?_⟩
  fin_cases p <;> rfl

/-- The request is rejected because of the number, and the frame stays in its queue. -/
theorem frame_then_number_kept :
    ¬ ∀ requests : Nat → Request, Untouched sampleCodec requests ∧ Clean sampleCodec requests := by
  intro h
  let requests : Nat → Request := fun n =>
    if n = 0 then .helo else .tick (some "1") frameThenNumberBody
  have htick : TickAt sampleCodec requests 1 ⟨1#64, some (EthernetSwitch.new "1")⟩ (some "1")
      frameThenNumberBody (EthernetSwitch.new "1") := ⟨rfl, rfl, rfl, rfl⟩
  have hnumber : Rejects sampleCodec (sampleEntries.get 1) := decodeEntry_thrown_iff.mp rfl
  have hframe : WellFormed sampleCodec (sampleEntries.get 0) := decodeEntry_ok_iff.mp ⟨_, rfl⟩
  have hbefore : ∀ j : Port, j < 1 → WellFormed sampleCodec (sampleEntries.get j) := by
    intro j hj
    obtain rfl : j = 0 := Fin.lt_one_iff j |>.mp hj
    exact hframe
  exact (h requests).2.harmless 1 _ _ _ _ htick sampleEntries 1 entries_frameThenNumber hnumber
    hbefore 0 (by decide) ⟨_, _, rfl, rfl, rfl⟩

end Run

end SwitchServer

end MicroRiscv
