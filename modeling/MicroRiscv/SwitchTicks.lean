import Mathlib.Data.List.FinRange
import MicroRiscv.SwitchEntries

/-!
# What a tick request does

The answer to a request, and the queues after it. The entries are applied while they are
decoded, inside of the `try` block, so a body whose first defect is behind an entry with a
frame is rejected and leaves that frame in its queue. A missing key is not rejected at
all: the lookup has an assertion and throws nothing.

Results:
1. `applyEntry_acts`: what an entry does, whatever the state.
2. `exec_applyEntries`: the loop over the ports applies the entries in front of the first
   one that is not well-formed.
3. `exec_serveTick_error`, `exec_serveTick_ok`: the loops of the handler.
4. `serve_tick_not_current`, `serve_tick_unparsed`, `serve_tick_parsed`: the requests.
-/

namespace MicroRiscv

namespace SwitchServer

open Fallible (exec Acts accepted outcome effect)

variable {F : Type} {c : Codec F} {n : Nat} {sw : EthernetSwitch}

/-! ## 1. Ports -/

namespace EthernetSwitch

theorem modifyPort_self (p : Port) (f : EthernetPort → EthernetPort) (sw : EthernetSwitch) :
    (sw.modifyPort p f).ports p = f (sw.ports p) :=
  Function.update_self _ _ _

theorem modifyPort_other {p q : Port} (h : q ≠ p) (f : EthernetPort → EthernetPort)
    (sw : EthernetSwitch) : (sw.modifyPort p f).ports q = sw.ports q :=
  Function.update_of_ne h _ _

theorem modifyPort_eq_self {p : Port} {f : EthernetPort → EthernetPort}
    (h : f (sw.ports p) = sw.ports p) : sw.modifyPort p f = sw := by
  unfold modifyPort
  rw [h, Function.update_eq_self]

/-- The ports changed by `f`. -/
def mapPorts (f : Port → EthernetPort → EthernetPort) (sw : EthernetSwitch) : EthernetSwitch :=
  { sw with ports := fun p => f p (sw.ports p) }

/-- Changing several ports one after the other. -/
theorem foldl_modifyPort (f : Port → EthernetPort → EthernetPort) {l : List Port}
    (hl : l.Nodup) (sw : EthernetSwitch) :
    l.foldl (fun sw p => sw.modifyPort p (f p)) sw =
      sw.mapPorts fun p port => if p ∈ l then f p port else port := by
  induction l generalizing sw with
  | nil => rfl
  | cons p l ih =>
    obtain ⟨hp, hl⟩ := List.nodup_cons.mp hl
    rw [List.foldl_cons, ih hl]
    unfold mapPorts
    congr 1
    funext q
    by_cases hq : q = p
    · subst hq
      beta_reduce
      rw [if_neg hp, modifyPort_self, if_pos List.mem_cons_self]
    · beta_reduce
      rw [modifyPort_other hq]
      simp [hq]

end EthernetSwitch

open EthernetSwitch

/-- Taking the first frame. -/
def EthernetPort.drain (port : EthernetPort) : EthernetPort :=
  { port with recvQueue := port.recvQueue.tail }

/-- Popping the send queue. -/
def EthernetPort.sent (port : EthernetPort) : EthernetPort :=
  { port with sendQueue := port.sendQueue.tail }

/-- Putting frames at the end of the receive queue. -/
def EthernetPort.receive (new : List Received) (port : EthernetPort) : EthernetPort :=
  { port with recvQueue := port.recvQueue ++ new }

theorem EthernetPort.receive_nil (port : EthernetPort) : port.receive [] = port := by
  unfold receive
  rw [List.append_nil]

/-- The assertion of `getFrame` holds where it is called. -/
theorem exec_processPort (p : Port) (sw : EthernetSwitch) :
    exec (processPort p) sw = (.ok (), sw.modifyPort p EthernetPort.drain) := by
  unfold processPort
  rw [Fallible.exec_bind_ok (Fallible.exec_get sw)]
  cases hq : (sw.ports p).recvQueue with
  | nil =>
    have hfree : (sw.ports p).hasFrame = false := by
      unfold EthernetPort.hasFrame
      rw [hq]
      rfl
    have hdrain : (sw.ports p).drain = sw.ports p := by
      unfold EthernetPort.drain
      rw [hq, List.tail_nil, ← hq]
    rw [modifyPort_eq_self hdrain, hfree]
    rfl
  | cons r rest =>
    have hfull : (sw.ports p).hasFrame = true := by
      unfold EthernetPort.hasFrame
      rw [hq]
      rfl
    have hget : exec (getFrame p) sw = (.ok r.frame, sw.modifyPort p EthernetPort.drain) := by
      unfold getFrame
      rw [Fallible.exec_bind_ok (Fallible.exec_get sw), hq]
      show (Except.ok r.frame, _) = _
      unfold modifyPort EthernetPort.drain
      rw [hq]
      rfl
    rw [hfull]
    exact Fallible.exec_bind_ok hget _

theorem exec_processFrames (sw : EthernetSwitch) :
    exec processFrames sw = (.ok (), sw.mapPorts fun _ => EthernetPort.drain) := by
  unfold processFrames
  rw [Fallible.exec_forM_of_ok exec_processPort, foldl_modifyPort _ (List.nodup_finRange _)]
  simp only [List.mem_finRange, if_true]

theorem exec_popSendQueue (p : Port) (sw : EthernetSwitch) :
    ∃ frame, exec (popSendQueue p) sw = (.ok frame, sw.modifyPort p EthernetPort.sent) := by
  unfold popSendQueue
  rw [Fallible.exec_bind_ok (Fallible.exec_get sw)]
  cases hq : (sw.ports p).sendQueue with
  | nil =>
    have hsent : (sw.ports p).sent = sw.ports p := by
      unfold EthernetPort.sent
      rw [hq, List.tail_nil, ← hq]
    rw [modifyPort_eq_self hsent]
    exact ⟨none, rfl⟩
  | cons frame rest =>
    refine ⟨some frame, ?_⟩
    show (Except.ok (some frame), _) = _
    unfold modifyPort EthernetPort.sent
    rw [hq]
    rfl

theorem exec_response (sw : EthernetSwitch) :
    ∃ response : List (Json F), exec ((List.finRange numPorts).mapM responseElement) sw =
      (.ok response, sw.mapPorts fun _ => EthernetPort.sent) := by
  have helement : ∀ p sw, ∃ j : Json F,
      exec (responseElement p) sw = (.ok j, sw.modifyPort p EthernetPort.sent) := by
    intro p sw
    obtain ⟨frame, hframe⟩ := exec_popSendQueue p sw
    unfold responseElement
    rw [Fallible.exec_bind_ok (Fallible.exec_get sw), Fallible.exec_bind_ok hframe]
    exact ⟨_, rfl⟩
  obtain ⟨response, hrun⟩ := Fallible.exec_mapM_of_ok helement (List.finRange numPorts) sw
  rw [foldl_modifyPort _ (List.nodup_finRange _)] at hrun
  simp only [List.mem_finRange, if_true] at hrun
  exact ⟨response, hrun⟩

/-! ## 2. The entries -/

/-- What an applied entry puts into its queue. -/
def arrivals (n : Nat) : Option EthernetFrame → List Received
  | none => []
  | some frame => [⟨frame, n⟩]

theorem exec_applyVLAN (p : Port) (content : Json F) :
    exec (applyVLAN c p content) sw = (decodeVLAN c content, sw) := by
  unfold applyVLAN decodeVLAN
  rw [Fallible.exec_bind, Fallible.exec_liftM]
  cases content.index "vlan" with
  | error e => rfl
  | ok jsonVLAN =>
    show exec (if jsonVLAN.isNull = true then _ else _) sw =
      (if jsonVLAN.isNull = true then _ else _, sw)
    cases jsonVLAN.isNull with
    | true => rfl
    | false =>
      show exec (liftM (orThrow (c.getVLANId jsonVLAN)) >>= _) sw = _
      rw [Fallible.exec_bind, Fallible.exec_liftM]
      cases orThrow (c.getVLANId jsonVLAN) <;> rfl

/-- How the frame of an entry changes the switch. -/
def arrive (n : Nat) (p : Port) (o : Option EthernetFrame) (sw : EthernetSwitch) :
    EthernetSwitch :=
  sw.modifyPort p (EthernetPort.receive (arrivals n o))

theorem arrive_none (n : Nat) (p : Port) (sw : EthernetSwitch) : arrive n p none sw = sw :=
  modifyPort_eq_self (EthernetPort.receive_nil _)

theorem exec_applyFrame (p : Port) (content : Json F) :
    exec (applyFrame c n p content) sw =
      Fallible.act ((decodeOptFrame c content).map (arrive n p)) sw := by
  unfold applyFrame decodeOptFrame
  rw [Fallible.exec_bind, Fallible.exec_liftM]
  cases content.index "frame" with
  | error e => rfl
  | ok jsonFrame =>
    show exec (if jsonFrame.isNull = true then _ else _) sw =
      Fallible.act (Except.map (arrive n p) (if jsonFrame.isNull = true then pure none else _)) sw
    cases jsonFrame.isNull with
    | true =>
      show (Except.ok (), sw) = (Except.ok (), arrive n p none sw)
      rw [arrive_none]
    | false =>
      show exec (liftM (decodeFrame c jsonFrame) >>= _) sw = _
      rw [Fallible.exec_bind, Fallible.exec_liftM]
      cases decodeFrame c jsonFrame <;> rfl

/-- An entry acts in the same way on every switch. -/
theorem applyEntry_acts (n : Nat) (p : Port) (content : Json F) :
    Acts ((decodeEntry c content).map (arrive n p)) (applyEntry c n p content) := by
  intro sw
  unfold applyEntry decodeEntry
  cases content.isNull with
  | true =>
    show (Except.ok (), sw) = (Except.ok (), arrive n p none sw)
    rw [arrive_none]
  | false =>
    show exec (applyVLAN c p content >>= _) sw = Fallible.act (Except.map (arrive n p)
      (decodeVLAN c content >>= fun _ => decodeOptFrame c content)) sw
    rw [Fallible.exec_bind, exec_applyVLAN]
    cases decodeVLAN c content with
    | error e => rfl
    | ok u => exact exec_applyFrame p content

/-! ## 3. The loop over the ports -/

section Loop

variable (c n) (es : Vector (Json F) numPorts)

/-- What the entry at a port does. -/
def entryEffect (p : Port) : Except Signal (EthernetSwitch → EthernetSwitch) :=
  (decodeEntry c (es.get p)).map (arrive n p)

/-- The ports whose entries are applied. -/
def acceptedPorts : List Port := accepted (entryEffect c n es) (List.finRange numPorts)

/-- What the loop puts into the queue of a port. -/
def delivered (p : Port) : List Received :=
  if p ∈ acceptedPorts c n es then
    match decodeEntry c (es.get p) with
    | .ok o => arrivals n o
    | .error _ => []
  else []

variable {c n es}

theorem exists_entryEffect_iff {p : Port} :
    (∃ f, entryEffect c n es p = .ok f) ↔ WellFormed c (es.get p) := by
  rw [← decodeEntry_ok_iff, entryEffect]
  cases decodeEntry c (es.get p) <;> simp [Except.map]

theorem entryEffect_error_iff {p : Port} {e : Signal} :
    entryEffect c n es p = .error e ↔ decodeEntry c (es.get p) = .error e := by
  rw [entryEffect]
  cases decodeEntry c (es.get p) <;> simp [Except.map]

theorem mem_acceptedPorts_iff {p : Port} :
    p ∈ acceptedPorts c n es ↔ ∀ q, q ≤ p → WellFormed c (es.get q) := by
  unfold acceptedPorts
  rw [Fallible.mem_accepted_iff (List.pairwise_lt_finRange numPorts)]
  simp only [List.mem_finRange, true_and, forall_const, exists_entryEffect_iff]

/-- The frames that arrive are those of the entries in front of the first defect. -/
theorem mem_delivered_iff {p : Port} {r : Received} : r ∈ delivered c n es p ↔
    ∃ frame, r = ⟨frame, n⟩ ∧ decodeEntry c (es.get p) = .ok (some frame) ∧
      ∀ q, q ≤ p → WellFormed c (es.get q) := by
  unfold delivered
  rw [← mem_acceptedPorts_iff (n := n)]
  split
  · next hmem =>
    rcases hd : decodeEntry c (es.get p) with e | _ | frame
    · simp
    · simp [arrivals]
    · simp [arrivals, hmem]
  · next hmem => simp [hmem]

/-- A port receives nothing exactly when its entry is not applied or has no frame. -/
theorem delivered_eq_nil_iff {p : Port} : delivered c n es p = [] ↔
    ¬ ((∀ q, q ≤ p → WellFormed c (es.get q)) ∧ CarriesFrame (es.get p)) := by
  rw [List.eq_nil_iff_forall_not_mem]
  constructor
  · rintro hnone ⟨hwf, hcarries⟩
    obtain ⟨frame, hframe⟩ := decodeEntry_some_iff.mpr ⟨hwf p le_rfl, hcarries⟩
    exact hnone _ (mem_delivered_iff.mpr ⟨frame, rfl, hframe, hwf⟩)
  · intro hno r hr
    obtain ⟨frame, -, hframe, hwf⟩ := mem_delivered_iff.mp hr
    exact hno ⟨hwf, (decodeEntry_some_iff.mp ⟨frame, hframe⟩).2⟩

variable (c n es) in
/-- The loop over the ports. -/
theorem exec_applyEntries (sw : EthernetSwitch) :
    exec (forM (List.finRange numPorts) fun p => applyEntry c n p (es.get p)) sw =
      (outcome (entryEffect c n es) (List.finRange numPorts),
        sw.mapPorts fun p => EthernetPort.receive (delivered c n es p)) := by
  rw [Fallible.exec_forM_of_acts fun p => applyEntry_acts n p (es.get p)]
  have heffect : effect (entryEffect c n es) = fun sw p =>
      sw.modifyPort p (EthernetPort.receive
        (match decodeEntry c (es.get p) with
        | .ok o => arrivals n o
        | .error _ => [])) := by
    funext sw p
    unfold effect entryEffect
    cases decodeEntry c (es.get p) with
    | ok o => rfl
    | error e => exact (arrive_none n p sw).symm
  have hnodup : (acceptedPorts c n es).Nodup :=
    (List.nodup_finRange numPorts).sublist (List.takeWhile_sublist _)
  show (outcome (entryEffect c n es) _,
    (acceptedPorts c n es).foldl (effect (entryEffect c n es)) sw) = _
  rw [heffect, foldl_modifyPort _ hnodup]
  congr 1
  unfold mapPorts delivered
  congr 1
  funext p
  beta_reduce
  split
  · rfl
  · rw [EthernetPort.receive_nil]

/-- How the loop fails: as the first entry does that is not well-formed. -/
theorem outcome_entries_error_iff {e : Signal} :
    outcome (entryEffect c n es) (List.finRange numPorts) = .error e ↔
      ∃ k : Port, decodeEntry c (es.get k) = .error e ∧ ∀ j, j < k → WellFormed c (es.get j) := by
  rw [Fallible.outcome_error_iff (List.pairwise_lt_finRange numPorts)]
  simp only [List.mem_finRange, true_and, forall_const, exists_entryEffect_iff,
    entryEffect_error_iff]

theorem exec_serveTick_error {e : Signal}
    (h : outcome (entryEffect c n es) (List.finRange numPorts) = .error e) (sw : EthernetSwitch) :
    exec (serveTick c n es) sw =
      (.error e, sw.mapPorts fun p => EthernetPort.receive (delivered c n es p)) := by
  unfold serveTick
  have hloop := exec_applyEntries c n es sw
  rw [h] at hloop
  exact Fallible.exec_bind_error hloop _

theorem exec_serveTick_ok (h : outcome (entryEffect c n es) (List.finRange numPorts) = .ok ())
    (sw : EthernetSwitch) : ∃ response, exec (serveTick c n es) sw =
      (.ok response, sw.mapPorts fun p port =>
        ((port.receive (delivered c n es p)).drain).sent) := by
  unfold serveTick
  have hloop := exec_applyEntries c n es sw
  rw [h] at hloop
  rw [Fallible.exec_bind_ok hloop, Fallible.exec_bind_ok (exec_processFrames _)]
  obtain ⟨response, hresponse⟩ := exec_response (F := F)
    ((sw.mapPorts fun p => EthernetPort.receive (delivered c n es p)).mapPorts
      fun _ => EthernetPort.drain)
  rw [Fallible.exec_bind_ok hresponse]
  exact ⟨.array response, rfl⟩

end Loop

/-! ## 4. Requests -/

/-- A body is taken when it is an array of at least eight values; the others are ignored. -/
theorem entries_eq_some_iff {content : String} {es : Vector (Json F) numPorts} :
    entries c content = some es ↔ ∃ elements, c.parse content = some (.array elements) ∧
      ∀ p : Port, elements[p.val]? = some (es.get p) := by
  unfold entries
  rw [Option.bind_eq_some_iff]
  simp only [Json.getStdArray_eq_some_iff, Option.some_inj, exists_eq_right]
  constructor
  · rintro ⟨_, hparse, elements, rfl, hes⟩
    exact ⟨elements, hparse, fun p => hes p.val p.isLt⟩
  · rintro ⟨elements, hparse, hes⟩
    exact ⟨_, hparse, elements, rfl, fun i hi => hes ⟨i, hi⟩⟩

/-- The request has the id of the running simulation, whose switch is `sw`. -/
def Current (s : Server) (switchId : Option String) (sw : EthernetSwitch) : Prop :=
  s.theSwitch = some sw ∧ switchId = some sw.id

/-- The only response is `400 Bad Request`. -/
def BadRequest (served : Served F) : Prop :=
  ∃ r, served.written = [r] ∧ r.status = .clientErrorBadRequest

section Serve

variable {s : Server} {switchId : Option String} {content : String}

variable (c n content) in
/-- A request with another id than the current one. -/
theorem serve_tick_superseded {id : String} (h : ∀ sw, ¬ Current s (some id) sw) :
    serve c n (.tick (some id) content) s =
      ⟨none, [⟨.clientErrorPreconditionFailed, [], none⟩], s⟩ := by
  obtain ⟨counter, _ | sw⟩ := s
  · rfl
  · have hid : sw.id ≠ id := fun he => h sw ⟨rfl, by rw [he]⟩
    have hbody : exec (tickBody c n (some id) content) (⟨⟨counter, some sw⟩, []⟩ : World F) =
        (.ok (), ⟨⟨counter, some sw⟩, [⟨.clientErrorPreconditionFailed, [], none⟩]⟩) := by
      unfold tickBody
      rw [Fallible.exec_bind_ok (Fallible.exec_get _)]
      show exec (if sw.id ≠ id then _ else _) _ = _
      rw [if_pos hid]
      rfl
    unfold serve handler tick
    rw [Fallible.exec_tryCatch, hbody]

variable (c n content) in
/-- Without the current id nothing happens. -/
theorem serve_tick_not_current (h : ∀ sw, ¬ Current s switchId sw) :
    ∃ status, status.code ∈ [400, 412] ∧
      serve c n (.tick switchId content) s = ⟨none, [⟨status, [], none⟩], s⟩ := by
  cases switchId with
  | none => exact ⟨.clientErrorBadRequest, by decide, rfl⟩
  | some id => exact ⟨.clientErrorPreconditionFailed, by decide, serve_tick_superseded c n content h⟩

/-- A body that is not an array of eight is rejected. -/
theorem serve_tick_unparsed (h : Current s switchId sw) (hnone : entries c content = none) :
    serve c n (.tick switchId content) s = ⟨none, [⟨.clientErrorBadRequest, [], none⟩], s⟩ := by
  obtain ⟨hsw, rfl⟩ := h
  obtain ⟨counter, _⟩ := s
  cases hsw
  have hbody : exec (tickBody c n (some sw.id) content) (⟨⟨counter, some sw⟩, []⟩ : World F) =
      (.error .thrown, ⟨⟨counter, some sw⟩, []⟩) := by
    unfold tickBody
    rw [Fallible.exec_bind_ok (Fallible.exec_get _)]
    show exec (if sw.id ≠ sw.id then _ else _) _ = _
    rw [if_neg (not_not_intro rfl), Fallible.exec_bind, Fallible.exec_liftM, hnone]
    rfl
  unfold serve handler tick
  rw [Fallible.exec_tryCatch, hbody]
  rfl

/-- What becomes of a run of the inner part of the handler. -/
def concluded (counter : BitVec 64) : Except Signal (Json F) × EthernetSwitch → Served F
  | (.ok response, sw) =>
    ⟨none, [⟨.successOk, [("Content-Type", "application/json")], some response⟩],
      ⟨counter, some sw⟩⟩
  | (.error .thrown, sw) => ⟨none, [⟨.clientErrorBadRequest, [], none⟩], ⟨counter, some sw⟩⟩
  | (.error (.aborted a), sw) => ⟨some a, [], ⟨counter, some sw⟩⟩

theorem serve_tick_parsed (h : Current s switchId sw) {es : Vector (Json F) numPorts}
    (hes : entries c content = some es) :
    serve c n (.tick switchId content) s = concluded s.id (exec (serveTick c n es) sw) := by
  obtain ⟨hsw, rfl⟩ := h
  obtain ⟨counter, _⟩ := s
  cases hsw
  have hbody : exec (tickBody c n (some sw.id) content) (⟨⟨counter, some sw⟩, []⟩ : World F) =
      exec (onSwitch sw (serveTick c n es) >>= fun response =>
        write ⟨.successOk, [("Content-Type", "application/json")], some response⟩)
        ⟨⟨counter, some sw⟩, []⟩ := by
    unfold tickBody
    rw [Fallible.exec_bind_ok (Fallible.exec_get _)]
    show exec (if sw.id ≠ sw.id then _ else _) _ = _
    rw [if_neg (not_not_intro rfl), Fallible.exec_bind, Fallible.exec_liftM, hes]
    rfl
  unfold serve handler tick
  rw [Fallible.exec_tryCatch, hbody]
  unfold onSwitch
  match exec (serveTick c n es) sw with
  | (.ok response, sw') => rfl
  | (.error .thrown, sw') => rfl
  | (.error (.aborted a), sw') => rfl

end Serve

end SwitchServer

end MicroRiscv
