import MicroRiscv.SwitchSystem

/-!
# Sessions

Every `/helo` starts a simulation and ends the one before it, so the tick requests of a tab are
served as long as no other tab has been greeted after it. In every order of the steps:

1. `system_safe`: the server never meets an assertion and never answers a script with
   `400 Bad Request`; a script only stops because its session was superseded.
2. `session_exclusive`: a tick succeeds exactly if its tab owns the last session, and no two tabs
   own one session or hold one id.
3. `run_eq_of_parses`: what the texts on the wire look like does not matter.
-/

namespace MicroRiscv

namespace SwitchSystem

open SwitchServer (Server Codec Response StatusCode EthernetFrame EthernetSwitch EthernetPort Served)
open SwitchClient (Entry Answer Port MACAddress Link)

variable {F : Type}

/-! ## 1. The server and the requests of the script -/

/-- What the server processes of the entries of a request. -/
def atSwitch (entries : Port → Entry) : Port → Option EthernetFrame := fun p =>
  (entries p).frame.map fun packet => SwitchWire.received packet.frame

/-- No frame is waiting at any port. -/
def Idle (sw : EthernetSwitch) : Prop := ∀ p, sw.ports p = ⟨[], []⟩

/-- The response to a tick while the switch sends nothing. -/
def idleElement : Json F := .object [("vlan", .numberUnsigned 0#64), ("frame", .null)]

def idleResponse : Response F :=
  ⟨.successOk, [("Content-Type", "application/json")],
    some (.array ((List.finRange SwitchServer.numPorts).map fun _ => idleElement))⟩

theorem idleResponse_status : (idleResponse : Response F).status = .successOk := rfl

/-- The response to a tick of another session. -/
def supersededResponse : Response F := ⟨.clientErrorPreconditionFailed, [], none⟩

theorem supersededResponse_status : (supersededResponse : Response F).status ≠ .successOk := by
  intro h
  cases h

/-- The `id` of simulation `m`. -/
def sessionId (m : Nat) : String := toString (BitVec.ofNat 64 m).toNat

def heloResponse (m : Nat) : Response F := ⟨.successOk, [("X-Switch-ID", sessionId m)], none⟩

section Serve

variable {c : Codec F} {n : Nat} {server : Server} {sw : EthernetSwitch} {content : String}
  {entries : Port → Entry}

theorem serve_helo {m : Nat} (h : server.id = BitVec.ofNat 64 m) :
    SwitchServer.serve c n .helo server = ⟨none, [heloResponse (m + 1)],
      ⟨BitVec.ofNat 64 (m + 1), some (EthernetSwitch.new (sessionId (m + 1)))⟩⟩ := by
  have hid : server.id + 1#64 = BitVec.ofNat 64 (m + 1) := by
    rw [h, ← BitVec.ofNat_add]
  show (⟨none, [⟨.successOk, [("X-Switch-ID", toString (server.id + 1#64).toNat)], none⟩],
    ⟨server.id + 1#64, some (EthernetSwitch.new (toString (server.id + 1#64).toNat))⟩⟩ :
      Served F) = _
  rw [hid]
  rfl

/-- The entries of a body of the script. -/
def jsonEntries (entries : Port → Entry) : Vector (Json F) SwitchServer.numPorts :=
  Vector.ofFn fun p => SwitchWire.entryJson (entries p)

theorem jsonEntries_get (p : Port) :
    (jsonEntries entries : Vector (Json F) _).get p = SwitchWire.entryJson (entries p) := by
  show (Vector.ofFn _)[p.val] = _
  rw [Vector.getElem_ofFn]

theorem entries_eq_jsonEntries (h : c.parse content = some (SwitchWire.bodyJson entries)) :
    SwitchServer.entries c content = some (jsonEntries entries) := by
  refine SwitchServer.entries_eq_some_iff.mpr ⟨_, h, fun p => ?_⟩
  have hport : (List.finRange SwitchClient.nPorts)[p.val]? = some p := by
    rw [List.getElem?_eq_getElem (by simp), List.getElem_finRange]
    rfl
  rw [jsonEntries_get, List.getElem?_map, hport]
  rfl

/-- Every entry is applied. -/
theorem delivered_jsonEntries (p : Port) :
    SwitchServer.delivered c n (jsonEntries entries) p =
      SwitchServer.arrivals n (atSwitch entries p) := by
  have hdecode : ∀ q, SwitchServer.decodeEntry c ((jsonEntries entries).get q) =
      .ok (atSwitch entries q) := by
    intro q
    rw [jsonEntries_get]
    exact SwitchWire.decodeEntry_entryJson c (entries q)
  have hmem : p ∈ SwitchServer.acceptedPorts c n (jsonEntries entries) :=
    SwitchServer.mem_acceptedPorts_iff.mpr fun q _ =>
      SwitchServer.decodeEntry_ok_iff.mp ⟨_, hdecode q⟩
  unfold SwitchServer.delivered
  rw [if_pos hmem, hdecode]

theorem outcome_jsonEntries :
    Fallible.outcome (SwitchServer.entryEffect c n (jsonEntries entries))
      (List.finRange SwitchServer.numPorts) = .ok () := by
  rcases hout : Fallible.outcome (SwitchServer.entryEffect c n (jsonEntries entries))
    (List.finRange SwitchServer.numPorts) with e | ⟨⟨⟩⟩
  · obtain ⟨k, hk, -⟩ := SwitchServer.outcome_entries_error_iff.mp hout
    rw [jsonEntries_get, SwitchWire.decodeEntry_entryJson] at hk
    cases hk
  · rfl

/-- The switch behind the entries: each port has the frame of its entry. -/
def loaded (n : Nat) (entries : Port → Entry) (sw : EthernetSwitch) : EthernetSwitch :=
  sw.mapPorts fun p => EthernetPort.receive (SwitchServer.arrivals n (atSwitch entries p))

variable (c n entries) in
theorem exec_entries (sw : EthernetSwitch) :
    Fallible.exec (forM (List.finRange SwitchServer.numPorts) fun p =>
        SwitchServer.applyEntry c n p ((jsonEntries entries).get p)) sw =
      (.ok (), loaded n entries sw) := by
  have hloop := SwitchServer.exec_applyEntries c n (jsonEntries entries) sw
  rw [outcome_jsonEntries] at hloop
  simp only [delivered_jsonEntries] at hloop
  exact hloop

theorem loaded_drain (h : Idle sw) :
    (loaded n entries sw).mapPorts (fun _ => EthernetPort.drain) = sw := by
  obtain ⟨id, ports⟩ := sw
  show EthernetSwitch.mk id _ = EthernetSwitch.mk id ports
  congr 1
  funext p
  have hport : ports p = ⟨[], []⟩ := h p
  show ((ports p).receive (SwitchServer.arrivals n (atSwitch entries p))).drain = ports p
  rw [hport]
  cases atSwitch entries p <;> rfl

theorem exec_responseElement (h : Idle sw) (p : Port) :
    Fallible.exec (SwitchServer.responseElement p : SwitchServer.SwitchM (Json F)) sw =
      (.ok idleElement, sw) := by
  have hpop : Fallible.exec (SwitchServer.popSendQueue p) sw = (.ok none, sw) := by
    unfold SwitchServer.popSendQueue
    rw [Fallible.exec_bind_ok (Fallible.exec_get sw), h p]
    rfl
  unfold SwitchServer.responseElement
  rw [Fallible.exec_bind_ok (Fallible.exec_get sw), Fallible.exec_bind_ok hpop]
  rfl

/-- A tick of the current session: the frames of its entries are processed at once. -/
theorem serve_tick_idle (h : SwitchServer.Current server (some sw.id) sw) (hidle : Idle sw)
    (hparse : c.parse content = some (SwitchWire.bodyJson entries)) :
    SwitchServer.serve c n (.tick (some sw.id) content) server =
      ⟨none, [idleResponse], server⟩ ∧
    found c n server content = atSwitch entries := by
  have hes := entries_eq_jsonEntries hparse
  have hloop := exec_entries c n entries sw
  have hprocess : Fallible.exec SwitchServer.processFrames (loaded n entries sw) = (.ok (), sw) := by
    rw [SwitchServer.exec_processFrames, loaded_drain hidle]
  have hresponse := Fallible.exec_mapM_of_const (exec_responseElement (F := F) hidle)
    (List.finRange SwitchServer.numPorts)
  constructor
  · rw [SwitchServer.serve_tick_parsed h hes]
    unfold SwitchServer.serveTick
    rw [Fallible.exec_bind_ok hloop, Fallible.exec_bind_ok hprocess,
      Fallible.exec_bind_ok hresponse]
    show (⟨none, _, ⟨server.id, some sw⟩⟩ : Served F) = _
    rw [← h.1]
    rfl
  · funext p
    unfold found
    rw [h.1, hes]
    dsimp only
    rw [hloop]
    show (((sw.ports p).receive _).recvQueue.head?).map _ = atSwitch entries p
    rw [hidle p]
    cases atSwitch entries p <;> rfl

end Serve

/-! ## 2. The tasks of the script -/

/-- What the script has while the switch sends nothing: no incoming frame, and data of whole
words. -/
structure Quiet (t : SwitchClient.Traced) : Prop where
  incoming : ∀ i, (t.host i).incoming = []
  whole : ∀ i packet, packet ∈ (t.host i).sendQueue → packet.frame.data.length % 4 = 0

/-- The entry of a port: the frame that comes to the end of its wire, and the VLAN choice unless
the table shows it already. -/
def entryOf (host : SwitchClient.Host) : Entry where
  vlan := if some host.targetVLAN ≠ host.statusVLAN then some host.targetVLAN else none
  frame := (SwitchClient.stepOutgoing host.outgoing).1

/-- What the VLAN table shows behind some requests. -/
def statusAfter : List (Port → Entry) → Option Nat
  | [] => none
  | _ :: _ => some 0

section Script

open SwitchClient (Client Host forPorts tickHost popSendQueue answerHost)

variable {t : SwitchClient.Traced}

theorem quiet_start (address : Port → MACAddress) (counter : Nat) :
    Quiet (SwitchClient.Traced.start address counter) where
  incoming _ := rfl
  whole _ _ h := absurd h List.not_mem_nil

theorem forPorts_of_some {α : Type} {f : Port → Host → Option (α × Host)} {c : Client}
    {r : Port → α} {hosts : Port → Host} (h : ∀ i, f i (c.host i) = some (r i, hosts i)) :
    forPorts f c = some (r, { c with host := hosts }) := by
  have hall : ∀ i, (f i (c.host i)).isSome := fun i => by
    rw [h i]
    rfl
  have hget : ∀ i, (f i (c.host i)).get (hall i) = (r i, hosts i) := fun i =>
    Option.get_of_eq_some _ (h i)
  unfold forPorts
  rw [dif_pos hall]
  simp only [hget]

theorem popSendQueue_whole {address : Port → MACAddress} {host : Host}
    (h : ∀ packet, packet ∈ host.sendQueue → packet.frame.data.length % 4 = 0) :
    ∃ outgoing, popSendQueue address host =
      some { host with sendQueue := host.sendQueue.dropLast, outgoing } := by
  unfold popSendQueue
  cases hlast : host.sendQueue.getLast? with
  | none =>
    rw [List.getLast?_eq_none_iff] at hlast
    refine ⟨host.outgoing, ?_⟩
    obtain ⟨queue, _, _, _, _⟩ := host
    cases hlast
    rfl
  | some packet =>
    have hwhole := h packet (List.mem_of_getLast? hlast)
    show ∃ outgoing, SwitchClient.enqueueOutgoing address packet _ = _
    unfold SwitchClient.enqueueOutgoing SwitchClient.makeVisual
    rw [if_pos hwhole]
    exact ⟨_, rfl⟩

/-- The loop body at a port throws nothing. -/
theorem tickHost_quiet {address : Port → MACAddress} {host : Host} (i : Port)
    (hin : host.incoming = [])
    (hwhole : ∀ packet, packet ∈ host.sendQueue → packet.frame.data.length % 4 = 0) :
    ∃ outgoing, tickHost address i host =
      some (entryOf host, { host with sendQueue := host.sendQueue.dropLast, outgoing }) := by
  obtain ⟨queue, incoming, wire, target, status⟩ := host
  cases hin
  obtain ⟨outgoing, hpop⟩ : ∃ outgoing,
      popSendQueue address ⟨queue, [], (SwitchClient.stepOutgoing wire).2, target, status⟩ =
        some ⟨queue.dropLast, [], outgoing, target, status⟩ := popSendQueue_whole hwhole
  refine ⟨outgoing, ?_⟩
  show (popSendQueue address ⟨queue, [], (SwitchClient.stepOutgoing wire).2, target, status⟩ >>=
    fun host => some (entryOf ⟨queue, [], wire, target, status⟩, host)) = _
  rw [hpop]
  rfl

/-- The update loop throws nothing before its request. -/
theorem postTick_quiet (h : Quiet t) (hidle : t.awaiting = false) :
    ∃ outgoing : Port → List (SwitchClient.Visual SwitchClient.Packet),
      SwitchClient.postTick t.toClient = some (fun i => entryOf (t.host i),
        { t.toClient with
          host := fun i => { t.host i with
            sendQueue := (t.host i).sendQueue.dropLast, outgoing := outgoing i }
          awaiting := true }) := by
  have htick : ∀ i, ∃ outgoing, tickHost t.address i (t.host i) = _ :=
    fun i => tickHost_quiet i (h.incoming i) (h.whole i)
  choose outgoing htick using htick
  refine ⟨outgoing, ?_⟩
  have hawaiting : ¬ t.awaiting = true := by
    rw [hidle]
    exact Bool.false_ne_true
  unfold SwitchClient.postTick
  rw [if_neg hawaiting, forPorts_of_some htick]
  rfl

theorem step_post (h : Quiet t) (hidle : t.awaiting = false) :
    ∃ client t', SwitchClient.postTick t.toClient = some (fun i => entryOf (t.host i), client) ∧
      t.step .postTick = some t' ∧ Quiet t' ∧ t'.awaiting = true ∧
      t'.posted = t.posted ++ [fun i => entryOf (t.host i)] ∧
      ∀ i, (t'.host i).statusVLAN = (t.host i).statusVLAN := by
  obtain ⟨outgoing, hpost⟩ := postTick_quiet h hidle
  have hstep : t.step .postTick = some _ :=
    Option.bind_eq_some_iff.mpr ⟨_, hpost, rfl⟩
  refine ⟨_, _, hpost, hstep, ⟨h.incoming, fun i packet hmem => ?_⟩, rfl, rfl,
    fun i => rfl⟩
  exact h.whole i packet (List.mem_of_mem_dropLast hmem)

/-- The answer of a switch that sends nothing. -/
def idleAnswer : Port → Answer := fun _ => ⟨0, none⟩

/-- The update loop throws nothing behind such an answer. -/
theorem step_receive (h : Quiet t) (hwait : t.awaiting = true) :
    ∃ t', t.step (.receiveAnswer idleAnswer) = some t' ∧ Quiet t' ∧ t'.awaiting = false ∧
      t'.posted = t.posted ∧ ∀ i, (t'.host i).statusVLAN = some 0 := by
  have hports : forPorts (fun i host => (answerHost t.address (idleAnswer i) host).map ((), ·))
      t.toClient = some (fun _ => (),
        { t.toClient with host := fun i => { t.host i with statusVLAN := some 0 } }) :=
    forPorts_of_some fun i => rfl
  have hreceive : SwitchClient.receiveAnswer idleAnswer t.toClient = some
      { t.toClient with
        host := fun i => { t.host i with statusVLAN := some 0 }
        awaiting := false } := by
    unfold SwitchClient.receiveAnswer
    rw [if_pos hwait, hports]
    rfl
  have hstep : t.step (.receiveAnswer idleAnswer) = some _ :=
    Option.bind_eq_some_iff.mpr ⟨_, hreceive, rfl⟩
  exact ⟨_, hstep, ⟨h.incoming, h.whole⟩, rfl, rfl, fun i => rfl⟩

/-- What a click leaves alone. -/
structure Same (t t' : SwitchClient.Traced) : Prop where
  awaiting : t'.awaiting = t.awaiting
  posted : t'.posted = t.posted
  status : ∀ i, (t'.host i).statusVLAN = (t.host i).statusVLAN

/-- A click at one port. -/
theorem quiet_update {t' : SwitchClient.Traced} {i : Port} {host : Host} (h : Quiet t)
    (hhost : t'.host = Function.update t.host i host) (hin : host.incoming = [])
    (hwhole : ∀ packet, packet ∈ host.sendQueue → packet.frame.data.length % 4 = 0) :
    Quiet t' := by
  have hport : ∀ j, t'.host j = if j = i then host else t.host j := fun j => by
    rw [hhost, Function.update_apply]
  constructor
  · intro j
    rw [hport]
    split
    · exact hin
    · exact h.incoming j
  · intro j
    rw [hport]
    split
    · exact hwhole
    · exact h.whole j

theorem status_update {i : Port} {host : Host} (hstatus : host.statusVLAN = (t.host i).statusVLAN)
    (j : Port) : (Function.update t.host i host j).statusVLAN = (t.host j).statusVLAN := by
  rw [Function.update_apply]
  split
  · next hj => rw [hj, hstatus]
  · rfl

theorem step_send (h : Quiet t) (src : Port) (dest : Fin (SwitchClient.nPorts + 1)) (ok : Bool) :
    ∃ t', t.step (.sendPacket src dest ok) = some t' ∧ Quiet t' ∧ Same t t' := by
  refine ⟨_, rfl, ?_, rfl, rfl, status_update rfl⟩
  refine quiet_update h rfl (h.incoming src) fun packet hmem => ?_
  rcases List.mem_append.mp hmem with hold | hnew
  · exact h.whole src packet hold
  · obtain rfl := List.mem_singleton.mp hnew
    have hlen : (SwitchClient.newPacket src dest ok t.toClient).frame.data.length = 4 := rfl
    rw [hlen]

theorem step_select (h : Quiet t) (i vlan : Port) :
    ∃ t', t.step (.selectVLAN i vlan) = some t' ∧ Quiet t' ∧ Same t t' :=
  ⟨_, rfl, quiet_update h rfl (h.incoming i) (h.whole i), rfl, rfl, status_update rfl⟩

end Script

/-! ## 3. The invariant -/

theorem readAnswers_const {e : Json F} {a : Answer} (h : SwitchWire.readAnswer e = some a) :
    SwitchWire.readAnswers (.array ((List.finRange SwitchServer.numPorts).map fun _ => e)) =
      some fun _ => a := by
  have hread : ∀ i : Port, ((Json.array ((List.finRange SwitchServer.numPorts).map
      fun _ => e)).at? i.val).bind SwitchWire.readAnswer = some a := by
    intro i
    have hport : (List.finRange SwitchServer.numPorts)[i.val]? = some i := by
      rw [List.getElem?_eq_getElem (by simp), List.getElem_finRange]
      rfl
    show (((List.finRange SwitchServer.numPorts).map _)[i.val]?).bind _ = _
    rw [List.getElem?_map, hport]
    exact h
  unfold SwitchWire.readAnswers
  rw [dif_pos fun i => by rw [hread i]; rfl]
  simp only [hread]
  rfl

theorem readAnswers_idle : (idleResponse : Response F).body.bind SwitchWire.readAnswers =
    some idleAnswer :=
  readAnswers_const rfl

/-- The server in front of the simulation `helos + 1`. -/
structure ServerInv (helos : Nat) (server : Server) : Prop where
  counter : server.id = BitVec.ofNat 64 helos
  fresh : helos = 0 → server.theSwitch = none
  current : 0 < helos → ∃ sw, server.theSwitch = some sw ∧ sw.id = sessionId helos ∧ Idle sw

/-- What is known of a tab in each phase. -/
inductive PhaseInv (helos : Nat) : Tab F → Prop
  | helo {script : SwitchClient.Traced} (hidle : script.awaiting = false)
      (hnew : script.posted = []) (hstatus : ∀ i, (script.host i).statusVLAN = none) :
      PhaseInv helos ⟨script, .helo, 0, []⟩
  | greeted {script : SwitchClient.Traced} {m : Nat} (hidle : script.awaiting = false)
      (hnew : script.posted = []) (hstatus : ∀ i, (script.host i).statusVLAN = none)
      (hpos : 0 < m) (hle : m ≤ helos) :
      PhaseInv helos ⟨script, .greeted (heloResponse m), m, []⟩
  | idle {script : SwitchClient.Traced} {m : Nat} (hidle : script.awaiting = false)
      (hstatus : ∀ i, (script.host i).statusVLAN = statusAfter script.posted)
      (hpos : 0 < m) (hle : m ≤ helos) :
      PhaseInv helos ⟨script, .idle (sessionId m), m, script.posted.map atSwitch⟩
  | ticking {script : SwitchClient.Traced} {m : Nat} {earlier : List (Port → Entry)}
      {entries : Port → Entry} (hwait : script.awaiting = true)
      (hposted : script.posted = earlier ++ [entries])
      (hstatus : ∀ i, (script.host i).statusVLAN = statusAfter earlier)
      (hpos : 0 < m) (hle : m ≤ helos) :
      PhaseInv helos ⟨script, .ticking (sessionId m) entries, m, earlier.map atSwitch⟩
  | answered {script : SwitchClient.Traced} {m : Nat} (hwait : script.awaiting = true)
      (hposted : script.posted ≠ []) (hpos : 0 < m) (hle : m ≤ helos) :
      PhaseInv helos ⟨script, .answered (sessionId m) idleResponse, m, script.posted.map atSwitch⟩
  | superseded {script : SwitchClient.Traced} {m : Nat} {earlier : List (Port → Entry)}
      {entries : Port → Entry} (hposted : script.posted = earlier ++ [entries]) (hpos : 0 < m)
      (hlt : m < helos) :
      PhaseInv helos
        ⟨script, .answered (sessionId m) supersededResponse, m, earlier.map atSwitch⟩
  | stopped {script : SwitchClient.Traced} {m : Nat} {earlier : List (Port → Entry)}
      {entries : Port → Entry} (hposted : script.posted = earlier ++ [entries]) (hpos : 0 < m)
      (hlt : m < helos) :
      PhaseInv helos
        ⟨script, .stopped (some .clientErrorPreconditionFailed), m, earlier.map atSwitch⟩

theorem PhaseInv.mono {helos helos' : Nat} {tab : Tab F} (h : PhaseInv helos tab)
    (hle : helos ≤ helos') : PhaseInv helos' tab := by
  cases h with
  | helo hidle hnew hstatus => exact .helo hidle hnew hstatus
  | greeted hidle hnew hstatus hpos hm =>
    exact .greeted hidle hnew hstatus hpos (Nat.le_trans hm hle)
  | idle hidle hstatus hpos hm => exact .idle hidle hstatus hpos (Nat.le_trans hm hle)
  | ticking hwait hposted hstatus hpos hm =>
    exact .ticking hwait hposted hstatus hpos (Nat.le_trans hm hle)
  | answered hwait hposted hpos hm => exact .answered hwait hposted hpos (Nat.le_trans hm hle)
  | superseded hposted hpos hm => exact .superseded hposted hpos (Nat.lt_of_lt_of_le hm hle)
  | stopped hposted hpos hm => exact .stopped hposted hpos (Nat.lt_of_lt_of_le hm hle)

/-- A click does not count for the phase. -/
theorem PhaseInv.click {helos : Nat} {tab : Tab F} (h : PhaseInv helos tab)
    {t' : SwitchClient.Traced} (hsame : Same tab.script t') :
    PhaseInv helos { tab with script := t' } := by
  obtain ⟨hawaiting, hposted', hstatus'⟩ := hsame
  cases h with
  | helo hidle hnew hstatus =>
    exact .helo (hawaiting.trans hidle) (hposted'.trans hnew)
      fun i => (hstatus' i).trans (hstatus i)
  | greeted hidle hnew hstatus hpos hm =>
    exact .greeted (hawaiting.trans hidle) (hposted'.trans hnew)
      (fun i => (hstatus' i).trans (hstatus i)) hpos hm
  | idle hidle hstatus hpos hm =>
    rw [← hposted'] at hstatus ⊢
    exact .idle (hawaiting.trans hidle) (fun i => (hstatus' i).trans (hstatus i)) hpos hm
  | ticking hwait hposted hstatus hpos hm =>
    exact .ticking (hawaiting.trans hwait) (hposted'.trans hposted)
      (fun i => (hstatus' i).trans (hstatus i)) hpos hm
  | answered hwait hposted hpos hm =>
    rw [← hposted'] at hposted ⊢
    exact .answered (hawaiting.trans hwait) hposted hpos hm
  | superseded hposted hpos hm => exact .superseded (hposted'.trans hposted) hpos hm
  | stopped hposted hpos hm => exact .stopped (hposted'.trans hposted) hpos hm

/-- The `X-Switch-ID` that the script has. -/
def Phase.switchId? : Phase F → Option String
  | .idle switchId | .ticking switchId _ | .answered switchId _ => some switchId
  | .helo | .greeted _ | .stopped _ => none

/-- The body that waits for the server. -/
def Phase.body? : Phase F → Option (Port → Entry)
  | .ticking _ entries => some entries
  | .helo | .greeted _ | .idle _ | .answered _ _ | .stopped _ => none

structure TabInv (helos : Nat) (tab : Tab F) : Prop where
  quiet : Quiet tab.script
  accounted : ∀ i, (tab.script.link i).Accounted
  distinct : tab.script.Distinct
  phase : PhaseInv helos tab

structure Inv (s : System F) : Prop where
  server : ∃ server, s.server = some server ∧ ServerInv s.helos server
  tab : ∀ k tab, s.tabs k = some tab → TabInv s.helos tab
  owner : ∀ k k' tab tab', s.tabs k = some tab → s.tabs k' = some tab' →
    tab.session = tab'.session → 0 < tab.session → k = k'

theorem inv_start : Inv (System.start : System F) where
  server := ⟨Server.start, rfl, rfl, fun _ => rfl, fun h => absurd h (Nat.lt_irrefl 0)⟩
  tab _ _ h := nomatch h
  owner _ _ _ _ h := nomatch h

section Step

variable {s : System F} {k : Nat} {tab tab' : Tab F}

theorem TabInv.session_le {helos : Nat} (h : TabInv helos tab) : tab.session ≤ helos := by
  have hphase := h.phase
  cases hphase with
  | helo _ _ _ => exact Nat.zero_le _
  | superseded _ _ hlt => exact hlt.le
  | stopped _ _ hlt => exact hlt.le
  | greeted _ _ _ _ hle => exact hle
  | idle _ _ _ hle => exact hle
  | ticking _ _ _ _ hle => exact hle
  | answered _ _ _ hle => exact hle

theorem TabInv.switchId {helos : Nat} (h : TabInv helos tab) {switchId : String}
    (hid : tab.phase.switchId? = some switchId) :
    0 < tab.session ∧ switchId = sessionId tab.session := by
  have hphase := h.phase
  cases hphase with
  | idle _ _ hpos _ => exact ⟨hpos, (Option.some.inj hid).symm⟩
  | ticking _ _ _ hpos _ => exact ⟨hpos, (Option.some.inj hid).symm⟩
  | answered _ _ hpos _ => exact ⟨hpos, (Option.some.inj hid).symm⟩
  | superseded _ hpos _ => exact ⟨hpos, (Option.some.inj hid).symm⟩
  | _ => cases hid

/-- The tab `k` takes a step, and keeps its session or gets a new one. -/
theorem Inv.update (h : Inv s) {server' : Server} {helos' : Nat} (hle : s.helos ≤ helos')
    (hserver : ServerInv helos' server') (htab : TabInv helos' tab')
    (hsession : tab'.session = 0 ∨ (∃ tab, s.tabs k = some tab ∧ tab'.session = tab.session) ∨
      s.helos < tab'.session) (served : Nat) :
    Inv ⟨some server', served, helos', Function.update s.tabs k (some tab')⟩ where
  server := ⟨server', rfl, hserver⟩
  tab j tabj hj := by
    change Function.update s.tabs k (some tab') j = some tabj at hj
    rcases eq_or_ne j k with rfl | hne
    · rw [Function.update_self] at hj
      cases hj
      exact htab
    · rw [Function.update_of_ne hne] at hj
      obtain ⟨hquiet, hacc, hdist, hphase⟩ := h.tab j tabj hj
      exact ⟨hquiet, hacc, hdist, hphase.mono hle⟩
  owner := by
    -- no other tab has the session of the tab k
    have hother : ∀ j tabj, j ≠ k → s.tabs j = some tabj → tabj.session = tab'.session →
        ¬ 0 < tab'.session := by
      intro j tabj hne hj heq hpos
      rcases hsession with hzero | ⟨tab, hk, hsame⟩ | hnew
      · exact hpos.ne' hzero
      · exact hne (h.owner j k tabj tab hj hk (heq.trans hsame) (heq ▸ hpos))
      · have hjle := (h.tab j tabj hj).session_le
        rw [heq] at hjle
        exact absurd hnew (Nat.not_lt.mpr hjle)
    intro j j' tabj tabj' hj hj' heq hpos
    change Function.update s.tabs k (some tab') j = some tabj at hj
    change Function.update s.tabs k (some tab') j' = some tabj' at hj'
    rcases eq_or_ne j k with rfl | hne
    · rcases eq_or_ne j' j with rfl | hne'
      · rfl
      · rw [Function.update_self] at hj
        rw [Function.update_of_ne hne'] at hj'
        cases hj
        exact absurd hpos (hother j' tabj' hne' hj' heq.symm)
    · rw [Function.update_of_ne hne] at hj
      rcases eq_or_ne j' k with rfl | hne'
      · rw [Function.update_self] at hj'
        cases hj'
        exact absurd (heq ▸ hpos) (hother j tabj hne hj heq)
      · rw [Function.update_of_ne hne'] at hj'
        exact h.owner j j' tabj tabj' hj hj' heq hpos

/-- A step without the server. -/
theorem Inv.setTab (h : Inv s) (htab : TabInv s.helos tab')
    (hsession : tab'.session = 0 ∨ ∃ tab, s.tabs k = some tab ∧ tab'.session = tab.session) :
    Inv (s.setTab k tab') := by
  obtain ⟨server, hserver, hinv⟩ := h.server
  have hupdate := h.update le_rfl hinv htab (hsession.imp_right .inl) s.served
  rw [← hserver] at hupdate
  exact hupdate

/-- A task of the script. -/
theorem TabInv.task {helos : Nat} (h : TabInv helos tab) {event : SwitchClient.Event}
    (hstep : tab.script.step event = some tab'.script) (hquiet : Quiet tab'.script)
    (hphase : PhaseInv helos tab') : TabInv helos tab' :=
  ⟨hquiet, fun i => SwitchClient.Traced.accounted_link_step hstep (h.accounted i),
    SwitchClient.Traced.distinct_step hstep h.distinct, hphase⟩

theorem TabInv.start (helos : Nat) (address : Port → MACAddress) (counter : Nat) :
    TabInv helos (Tab.start address counter : Tab F) :=
  ⟨quiet_start address counter, fun _ => Link.accounted_start,
    SwitchClient.Traced.distinct_start address counter, .helo rfl rfl fun _ => rfl⟩

/-- Clicks. -/
theorem TabInv.act {helos : Nat} (h : TabInv helos tab) {event : SwitchClient.Event}
    (hclick : ∃ t', tab.script.step event = some t' ∧ Quiet t' ∧ Same tab.script t')
    (hact : tab.act event = some tab') : TabInv helos tab' ∧ tab'.session = tab.session := by
  obtain ⟨t', hstep, hquiet, hsame⟩ := hclick
  unfold Tab.act at hact
  rw [hstep] at hact
  cases hact
  exact ⟨h.task hstep hquiet (h.phase.click hsame), rfl⟩

/-- The update loop posts a request. -/
theorem TabInv.post {helos : Nat} (h : TabInv helos tab) (hpost : tab.post = some tab') :
    TabInv helos tab' ∧ tab'.session = tab.session := by
  have hphase := h.phase
  cases hphase with
  | idle hidle hstatus hpos hle =>
    obtain ⟨client, t', hentries, hstep, hquiet, hwait, hposted, hstatus'⟩ :=
      step_post h.quiet hidle
    unfold Tab.post at hpost
    dsimp only at hpost
    rw [hentries, hstep] at hpost
    cases hpost
    exact ⟨h.task hstep hquiet (.ticking hwait hposted
      (fun i => (hstatus' i).trans (hstatus i)) hpos hle), rfl⟩
  | _ => cases hpost

/-- A response arrives. -/
theorem TabInv.receive {helos : Nat} (h : TabInv helos tab) (hreceive : tab.receive = some tab') :
    TabInv helos tab' ∧ tab'.session = tab.session := by
  have hphase := h.phase
  cases hphase with
  | @greeted script m hidle hnew hstatus hpos hle =>
    cases hreceive
    have hphase : PhaseInv helos
        (⟨script, .idle (sessionId m), m, script.posted.map atSwitch⟩ : Tab F) := by
      refine .idle hidle (fun i => ?_) hpos hle
      rw [hnew]
      exact hstatus i
    rw [hnew] at hphase
    exact ⟨⟨h.quiet, h.accounted, h.distinct, hphase⟩, rfl⟩
  | @answered script m hwait hposted hpos hle =>
    obtain ⟨t', hstep, hquiet, hidle, hposted', hstatus⟩ := step_receive h.quiet hwait
    unfold Tab.receive at hreceive
    dsimp only at hreceive hstep
    rw [if_pos idleResponse_status, readAnswers_idle] at hreceive
    dsimp only at hreceive
    rw [hstep] at hreceive
    cases hreceive
    have hphase : PhaseInv helos
        (⟨t', .idle (sessionId m), m, t'.posted.map atSwitch⟩ : Tab F) := by
      refine .idle hidle (fun i => ?_) hpos hle
      rw [hposted', hstatus i]
      cases hp : script.posted with
      | nil => exact absurd hp hposted
      | cons _ _ => rfl
    rw [hposted'] at hphase
    exact ⟨h.task hstep hquiet hphase, rfl⟩
  | superseded hposted hpos hlt =>
    unfold Tab.receive at hreceive
    dsimp only at hreceive
    rw [if_neg supersededResponse_status] at hreceive
    cases hreceive
    exact ⟨⟨h.quiet, h.accounted, h.distinct, .stopped hposted hpos hlt⟩, rfl⟩
  | _ => cases hreceive

theorem sessionId_inj {m n : Nat} (hm : m < 2 ^ 64) (hn : n < 2 ^ 64)
    (h : sessionId m = sessionId n) : m = n := by
  have hdigits := congrArg String.toList h
  unfold sessionId at hdigits
  rw [Nat.toString_eq_repr, Nat.toString_eq_repr, Nat.toList_repr, Nat.toList_repr] at hdigits
  have hvalue := congrArg (fun l => Nat.ofDigitChars 10 l 0) hdigits
  beta_reduce at hvalue
  rwa [Nat.ofDigitChars_ten_toDigits, Nat.ofDigitChars_ten_toDigits, BitVec.toNat_ofNat,
    BitVec.toNat_ofNat, Nat.mod_eq_of_lt hm, Nat.mod_eq_of_lt hn] at hvalue

/-- A tick of session `m` succeeds if `m` has the id of the last session, and else the server
stays as it is. -/
theorem ServerInv.serveTick {c : Codec F} {helos m : Nat} {server : Server}
    (hserver : ServerInv helos server) (hpos : 0 < m) (hle : m ≤ helos) (n : Nat)
    {content : String} {entries : Port → Entry}
    (hparse : c.parse content = some (SwitchWire.bodyJson entries)) :
    (sessionId m = sessionId helos →
      SwitchServer.serve c n (.tick (some (sessionId m)) content) server =
        ⟨none, [idleResponse], server⟩ ∧
      found c n server content = atSwitch entries) ∧
    (sessionId m ≠ sessionId helos →
      SwitchServer.serve c n (.tick (some (sessionId m)) content) server =
        ⟨none, [supersededResponse], server⟩) := by
  obtain ⟨sw, hsw, hid, hidle⟩ := hserver.current (Nat.lt_of_lt_of_le hpos hle)
  constructor
  · intro heq
    have hcurrent : SwitchServer.Current server (some sw.id) sw := ⟨hsw, rfl⟩
    rw [heq, ← hid]
    exact serve_tick_idle hcurrent hidle hparse
  · intro hne
    refine SwitchServer.serve_tick_superseded c n content ?_
    rintro sw' ⟨hsw', hid'⟩
    obtain rfl := Option.some.inj (hsw.symm.trans hsw')
    exact hne ((Option.some.inj hid').trans hid)

/-- The server serves a tick: the tab of the last session gets its frames processed, another
one is superseded. -/
theorem TabInv.serveTick {wire : Wire F} {helos served : Nat} {server : Server}
    (hserver : ServerInv helos server) {switchId : String} {entries : Port → Entry}
    (hparse : wire.codec.parse (wire.stringify entries) = some (SwitchWire.bodyJson entries))
    (h : TabInv helos tab) (hphase : tab.phase = .ticking switchId entries) :
    ∃ r, SwitchServer.serve wire.codec served (.tick (some switchId) (wire.stringify entries)) server =
        ⟨none, [r], server⟩ ∧
      (r.status = .successOk ↔ sessionId tab.session = sessionId helos) ∧
      TabInv helos { tab with
        phase := .answered switchId r
        processed := if r.status = .successOk then
            tab.processed ++ [found wire.codec served server (wire.stringify entries)]
          else tab.processed } := by
  obtain ⟨hquiet, hacc, hdist, hinv⟩ := h
  cases hinv with
  | @ticking script m earlier entries' hwait hposted hstatus hpos hle =>
    cases hphase
    obtain ⟨hlast, hother⟩ := hserver.serveTick hpos hle served hparse
    by_cases heq : sessionId m = sessionId helos
    · obtain ⟨hserve, hfound⟩ := hlast heq
      refine ⟨idleResponse, hserve, iff_of_true idleResponse_status heq, hquiet, hacc, hdist, ?_⟩
      have hprocessed : earlier.map atSwitch ++ [atSwitch entries] = script.posted.map atSwitch := by
        rw [hposted, List.map_append, List.map_singleton]
      dsimp only
      rw [if_pos idleResponse_status, hfound, hprocessed]
      refine .answered hwait ?_ hpos hle
      rw [hposted]
      exact List.concat_ne_nil _ _
    · refine ⟨supersededResponse, hother heq, iff_of_false supersededResponse_status heq, hquiet,
        hacc, hdist, ?_⟩
      dsimp only
      rw [if_neg supersededResponse_status]
      exact .superseded hposted hpos (Nat.lt_of_le_of_ne hle fun he => heq (he ▸ rfl))
  | _ => cases hphase

/-- The server serves a request. -/
theorem Inv.serve {wire : Wire F} (hwire : wire.Parses s) (h : Inv s) (hk : s.tabs k = some tab)
    {s' : System F} (hserve : s.serve wire k tab = some s') : Inv s' := by
  obtain ⟨server, hserver, hinv⟩ := h.server
  have htab := h.tab k tab hk
  obtain ⟨script, phase, session, processed⟩ := tab
  unfold System.serve at hserve
  rw [hserver] at hserve
  cases phase with
  | helo =>
    dsimp only at hserve
    rw [serve_helo hinv.counter] at hserve
    cases hserve
    obtain ⟨hquiet, hacc, hdist, hphase⟩ := htab
    cases hphase with
    | helo hidle hnew hstatus =>
      have htab' : TabInv (s.helos + 1)
          (⟨script, .greeted (heloResponse (s.helos + 1)), s.helos + 1, []⟩ : Tab F) :=
        ⟨hquiet, hacc, hdist, .greeted hidle hnew hstatus (Nat.succ_pos _) le_rfl⟩
      exact h.update (Nat.le_succ _) ⟨rfl, nofun, fun _ => ⟨_, rfl, rfl, fun _ => rfl⟩⟩ htab'
        (.inr (.inr (Nat.lt_succ_self _))) _
  | ticking switchId entries =>
    have hparse := hwire k _ switchId entries hk rfl
    obtain ⟨r, hresult, -, htab'⟩ :
        ∃ r, SwitchServer.serve wire.codec s.served (.tick (some switchId) (wire.stringify entries))
          server = ⟨none, [r], server⟩ ∧ _ ∧ _ := htab.serveTick hinv hparse rfl
    dsimp only at hserve
    rw [hresult] at hserve
    cases hserve
    exact h.update le_rfl hinv htab' (.inr (.inl ⟨_, hk, rfl⟩)) _
  | _ => cases hserve

theorem Inv.step {wire : Wire F} (hwire : wire.Parses s) (h : Inv s) {event : Event}
    {s' : System F} (hstep : s.step wire event = some s') : Inv s' := by
  cases event with
  | load k address counter =>
    unfold System.step at hstep
    dsimp only at hstep
    split at hstep
    · cases hstep
      exact h.setTab (.start s.helos address counter) (.inl rfl)
    · cases hstep
  | send k src dest ok =>
    obtain ⟨tab, hk, hstep⟩ := Option.bind_eq_some_iff.mp hstep
    obtain ⟨tab', hact, hstep⟩ := Option.bind_eq_some_iff.mp hstep
    cases hstep
    have htab := h.tab k tab hk
    obtain ⟨htab', hsession⟩ := htab.act (step_send htab.quiet src dest ok) hact
    exact h.setTab htab' (.inr ⟨tab, hk, hsession⟩)
  | select k i vlan =>
    obtain ⟨tab, hk, hstep⟩ := Option.bind_eq_some_iff.mp hstep
    obtain ⟨tab', hact, hstep⟩ := Option.bind_eq_some_iff.mp hstep
    cases hstep
    have htab := h.tab k tab hk
    obtain ⟨htab', hsession⟩ := htab.act (step_select htab.quiet i vlan) hact
    exact h.setTab htab' (.inr ⟨tab, hk, hsession⟩)
  | post k =>
    obtain ⟨tab, hk, hstep⟩ := Option.bind_eq_some_iff.mp hstep
    obtain ⟨tab', hpost, hstep⟩ := Option.bind_eq_some_iff.mp hstep
    cases hstep
    obtain ⟨htab', hsession⟩ := (h.tab k tab hk).post hpost
    exact h.setTab htab' (.inr ⟨tab, hk, hsession⟩)
  | serve k =>
    obtain ⟨tab, hk, hstep⟩ := Option.bind_eq_some_iff.mp hstep
    exact h.serve hwire hk hstep
  | receive k =>
    obtain ⟨tab, hk, hstep⟩ := Option.bind_eq_some_iff.mp hstep
    obtain ⟨tab', hreceive, hstep⟩ := Option.bind_eq_some_iff.mp hstep
    cases hstep
    obtain ⟨htab', hsession⟩ := (h.tab k tab hk).receive hreceive
    exact h.setTab htab' (.inr ⟨tab, hk, hsession⟩)

end Step

theorem inv_run {wire : Wire F} {events : Nat → Event}
    (hwire : ∀ n s, run wire events n = some s → wire.Parses s) {n : Nat} {s : System F}
    (h : run wire events n = some s) : Inv s := by
  induction n generalizing s with
  | zero =>
    cases h
    exact inv_start
  | succ n ih =>
    obtain ⟨s0, hs0, hstep⟩ := Option.bind_eq_some_iff.mp h
    exact (ih hs0).step (hwire n s0 hs0) hstep

/-! ## 4. The texts on the wire -/

section Texts

variable {wire wire' : Wire F} {s : System F} {k : Nat} {tab : Tab F}

theorem Inv.serve_eq_of_parses (h : Inv s) (hwire : wire.Parses s) (hwire' : wire'.Parses s)
    (hk : s.tabs k = some tab) : s.serve wire' k tab = s.serve wire k tab := by
  obtain ⟨server, hserver, hinv⟩ := h.server
  have htab := (h.tab k tab hk).phase
  obtain ⟨script, phase, session, processed⟩ := tab
  unfold System.serve
  rw [hserver]
  cases phase with
  | helo =>
    dsimp only
    rw [serve_helo hinv.counter, serve_helo hinv.counter]
  | ticking switchId entries =>
    cases htab with
    | ticking _ _ _ hpos hle =>
      obtain ⟨hlast, hother⟩ := hinv.serveTick hpos hle s.served (hwire k _ _ entries hk rfl)
      obtain ⟨hlast', hother'⟩ := hinv.serveTick hpos hle s.served (hwire' k _ _ entries hk rfl)
      dsimp only
      by_cases heq : sessionId session = sessionId s.helos
      · rw [(hlast heq).1, (hlast heq).2, (hlast' heq).1, (hlast' heq).2]
      · rw [hother heq, hother' heq]
        unfold System.conclude
        simp only [List.head?_cons, if_neg supersededResponse_status]
  | _ => rfl

theorem Inv.step_eq_of_parses (h : Inv s) (hwire : wire.Parses s) (hwire' : wire'.Parses s)
    (event : Event) : s.step wire' event = s.step wire event := by
  cases event with
  | serve k =>
    exact Option.bind_congr fun tab hk => h.serve_eq_of_parses hwire hwire' hk
  | _ => rfl

/-- The system runs the same whatever texts the bodies have, if the server parses them. -/
theorem run_eq_of_parses {events : Nat → Event}
    (hwire : ∀ n s, run wire events n = some s → wire.Parses s)
    (hwire' : ∀ n s, run wire' events n = some s → wire'.Parses s) (n : Nat) :
    run wire' events n = run wire events n := by
  induction n with
  | zero => rfl
  | succ n ih =>
    show (run wire' events n).bind _ = (run wire events n).bind _
    rw [ih]
    exact Option.bind_congr fun s hs =>
      (inv_run hwire hs).step_eq_of_parses (hwire n s hs) (hwire' n s (ih.trans hs)) (events n)

end Texts

/-! ## 5. A run with two tabs -/

/-! In tab 0 the last host gets VLAN 7 and broadcasts a frame, and eight ticks are served, with the
frame in the last one. Then tab 1 is greeted, and a tick of each tab follows. -/

def lastPort : Port := Fin.last 7

def sampleFrame : SwitchClient.Packet :=
  SwitchClient.newPacket lastPort (Fin.last 8) true
    (SwitchClient.Client.start SwitchClient.Traced.ownAddress 0)

/-- The bodies of the tabs: the first two and the last one of tab 0, and the one of tab 1. -/
def sampleBodies : List (Port → Entry) :=
  [fun p => ⟨some (if p = lastPort then 7 else 0), none⟩,
    fun p => ⟨if p = lastPort then some 7 else none, none⟩,
    fun p => if p = lastPort then ⟨some 7, some sampleFrame⟩ else ⟨none, none⟩,
    fun _ => ⟨some 0, none⟩]

def sampleFrameText : String :=
  "\x7b\"target\":[255,255,255,255,255,255],\"source\":[7,7,7,7,7,7]," ++
    "\"etherType\":65535,\"data\":[0,0,0,0],\"checksumOK\":true\x7d"

def sampleEntryText (entry : Entry) : String :=
  "\x7b\"vlan\":" ++ (match entry.vlan with
    | some vlan => toString vlan
    | none => "null") ++ ",\"frame\":" ++ (match entry.frame with
    | some _ => sampleFrameText
    | none => "null") ++ "\x7d"

def sampleText (entries : Port → Entry) : String :=
  "[" ++ ",".intercalate ((List.finRange SwitchClient.nPorts).map fun i =>
    sampleEntryText (entries i)) ++ "]"

def sampleWire : Wire Empty where
  codec :=
    { parse := fun content =>
        (sampleBodies.find? fun entries => sampleText entries == content).map SwitchWire.bodyJson
      toUnsigned := fun _ x => nomatch x }
  stringify := sampleText

theorem sampleWire_parse {entries : Port → Entry} (h : entries ∈ sampleBodies) :
    sampleWire.codec.parse (sampleWire.stringify entries) = some (SwitchWire.bodyJson entries) := by
  have hfind : ∀ entries, entries ∈ sampleBodies →
      (sampleBodies.find? fun body => sampleText body == sampleText entries) = some entries := by
    decide +kernel
  unfold sampleWire
  dsimp only
  rw [hfind entries h, Option.map_some]

def sampleEvents : List Event :=
  [.load 0 SwitchClient.Traced.ownAddress 0, .load 1 SwitchClient.Traced.ownAddress 0, .serve 0,
    .receive 0, .send 0 lastPort (Fin.last 8) true, .select 0 lastPort lastPort] ++
  (List.replicate 8 [.post 0, .serve 0, .receive 0]).flatten ++
  [.serve 1, .receive 1, .post 0, .post 1, .serve 0, .serve 1, .receive 0, .receive 1]

/-- The step behind the last of these is not possible. -/
def twoTabs (n : Nat) : Event := sampleEvents.getD n (.load 0 SwitchClient.Traced.ownAddress 0)

def Phase.isIdle : Phase F → Bool
  | .idle _ => true
  | _ => false

def Phase.isTicking : Phase F → Bool
  | .ticking _ _ => true
  | _ => false

/-- The response is on its way, and it is a success. -/
def Phase.isSuccessful : Phase F → Bool
  | .answered _ r => r.status = .successOk
  | _ => false

def Phase.isStopped : Phase F → Bool
  | .stopped _ => true
  | _ => false

theorem Phase.isIdle_iff {phase : Phase F} :
    phase.isIdle = true ↔ ∃ switchId, phase = .idle switchId := by
  cases phase <;> simp [isIdle]

theorem Phase.isTicking_iff {phase : Phase F} :
    phase.isTicking = true ↔ ∃ switchId entries, phase = .ticking switchId entries := by
  cases phase <;> simp [isTicking]

theorem Phase.isSuccessful_iff {phase : Phase F} : phase.isSuccessful = true ↔
    ∃ switchId r, phase = .answered switchId r ∧ r.status = .successOk := by
  cases phase <;> simp [isSuccessful]

theorem Phase.isStopped_iff {phase : Phase F} :
    phase.isStopped = true ↔ ∃ status, phase = .stopped status := by
  cases phase <;> simp [isStopped]

/-- What there is to see before the last ticks are served, before their responses arrive, at the
end and behind it. -/
theorem twoTabs_views :
    ((run sampleWire twoTabs 34).any fun s => s.helos == 2 &&
      ((s.tabs 0).any fun tab => tab.phase.isTicking && tab.session == 1) &&
      (s.tabs 1).any fun tab => tab.phase.isTicking && tab.session == 2) = true ∧
    ((run sampleWire twoTabs 36).any fun s =>
      (s.tabs 1).any fun tab => tab.phase.isSuccessful) = true ∧
    ((run sampleWire twoTabs 38).any fun s => s.served == 12 &&
      (s.tabs 0).any fun tab => tab.phase.isStopped && tab.script.posted.length == 9 &&
        tab.processed.length == 8 &&
        tab.processed[7]?.any fun found => (found lastPort).isSome) = true ∧
    (run sampleWire twoTabs 39).isNone = true := by
  decide +kernel

theorem twoTabs_bodies : ∀ n, n < 39 → ∀ k, k < 2 →
    ∀ entries, entries ∈ ((run sampleWire twoTabs n).bind fun s =>
      (s.tabs k).bind fun tab => tab.phase.body?) → entries ∈ sampleBodies := by
  decide +kernel

theorem twoTabs_ends (n : Nat) : run sampleWire twoTabs (n + 39) = none := by
  induction n with
  | zero =>
    exact Option.isNone_iff_eq_none.mp twoTabs_views.2.2.2
  | succ n ih =>
    show (run sampleWire twoTabs (n + 39)).bind _ = none
    rw [ih]
    rfl

theorem twoTabs_tab (n : Nat) : (twoTabs n).tab < 2 := by
  have hall : ∀ event, event ∈ sampleEvents → event.tab < 2 := by decide
  unfold twoTabs
  rw [List.getD_eq_getElem?_getD]
  cases hn : sampleEvents[n]? with
  | none => decide
  | some event => exact hall event (List.mem_of_getElem? hn)

theorem twoTabs_tabs {n k : Nat} {s : System Empty} (hrun : run sampleWire twoTabs n = some s)
    (hk : 2 ≤ k) : s.tabs k = none := by
  induction n generalizing s with
  | zero =>
    cases hrun
    rfl
  | succ n ih =>
    obtain ⟨s0, hs0, hstep⟩ := Option.bind_eq_some_iff.mp hrun
    obtain ⟨tab', htabs⟩ := tabs_step hstep
    rw [htabs, Function.update_of_ne (Nat.ne_of_gt (Nat.lt_of_lt_of_le (twoTabs_tab n) hk))]
    exact ih hs0

theorem twoTabs_parses (n : Nat) (s : System Empty) (hrun : run sampleWire twoTabs n = some s) :
    sampleWire.Parses s := by
  intro k tab switchId entries hk hphase
  have hlt : k < 2 := by
    by_contra hge
    cases (twoTabs_tabs hrun (Nat.not_lt.mp hge)).symm.trans hk
  have hn : n < 39 := by
    by_contra hge
    obtain ⟨m, rfl⟩ := Nat.exists_eq_add_of_le' (Nat.not_lt.mp hge)
    cases (twoTabs_ends m).symm.trans hrun
  refine sampleWire_parse (twoTabs_bodies n hn k hlt entries ?_)
  refine Option.bind_eq_some_iff.mpr ⟨s, hrun, Option.bind_eq_some_iff.mpr ⟨tab, hk, ?_⟩⟩
  rw [hphase]
  rfl

/-- Tab 0 is between its first two ticks. -/
theorem twoTabs_idle : ∃ s tab, run sampleWire twoTabs 9 = some s ∧ s.tabs 0 = some tab ∧
    (∃ switchId, tab.phase = .idle switchId) ∧ tab.script.posted.length = 1 ∧
    (tab.script.host lastPort).targetVLAN = 7 ∧ (tab.script.host 0).targetVLAN = 0 := by
  have hview : ((run sampleWire twoTabs 9).any fun s => (s.tabs 0).any fun tab =>
      tab.phase.isIdle && tab.script.posted.length == 1 &&
        (tab.script.host lastPort).targetVLAN == 7 &&
        (tab.script.host 0).targetVLAN == 0) = true := by
    decide +kernel
  simp only [Option.any_eq_true, Bool.and_eq_true, beq_iff_eq, Phase.isIdle_iff] at hview
  obtain ⟨s, hs, tab, htab, ⟨⟨hidle, hposted⟩, hlast⟩, hzero⟩ := hview
  exact ⟨s, tab, hs, htab, hidle, hposted, hlast, hzero⟩

/-- A tick of each tab waits for the server. -/
theorem twoTabs_waiting : ∃ s tab tab', run sampleWire twoTabs 34 = some s ∧ s.helos = 2 ∧
    s.tabs 0 = some tab ∧ (∃ switchId entries, tab.phase = .ticking switchId entries) ∧
    tab.session = 1 ∧ s.tabs 1 = some tab' ∧
    (∃ switchId entries, tab'.phase = .ticking switchId entries) ∧ tab'.session = 2 := by
  have hview := twoTabs_views.1
  simp only [Option.any_eq_true, Bool.and_eq_true, beq_iff_eq, Phase.isTicking_iff] at hview
  obtain ⟨s, hs, ⟨hhelos, tab, htab, hticking, hsession⟩, tab', htab', hticking', hsession'⟩ :=
    hview
  exact ⟨s, tab, tab', hs, hhelos, htab, hticking, hsession, htab', hticking', hsession'⟩

/-- The tick of tab 1 has been answered. -/
theorem twoTabs_answered : ∃ s tab switchId r, run sampleWire twoTabs 36 = some s ∧
    s.tabs 1 = some tab ∧ tab.phase = .answered switchId r ∧ r.status = .successOk := by
  have hview := twoTabs_views.2.1
  simp only [Option.any_eq_true, Phase.isSuccessful_iff] at hview
  obtain ⟨s, hs, tab, htab, switchId, r, hphase, hok⟩ := hview
  exact ⟨s, tab, switchId, r, hs, htab, hphase, hok⟩

/-- The switch has processed eight ticks of tab 0, the frame in the last of them. -/
theorem twoTabs_stopped : ∃ s tab found frame, run sampleWire twoTabs 38 = some s ∧
    s.served = 12 ∧ s.tabs 0 = some tab ∧ (∃ status, tab.phase = .stopped status) ∧
    tab.script.posted.length = 9 ∧ tab.processed.length = 8 ∧ tab.processed[7]? = some found ∧
    found lastPort = some frame := by
  have hview := twoTabs_views.2.2.1
  simp only [Option.any_eq_true, Bool.and_eq_true, beq_iff_eq, Phase.isStopped_iff,
    Option.isSome_iff_exists] at hview
  obtain ⟨s, hs, hserved, tab, htab, ⟨⟨hstopped, hposted⟩, hlen⟩, found, hfound, frame, hframe⟩ :=
    hview
  exact ⟨s, tab, found, frame, hs, hserved, htab, hstopped, hposted, hlen, hfound, hframe⟩

/-! ## 6. Every order of the steps -/

/-- What holds in every state of a run: the server runs and no frame waits in it, a tick was
answered with a success or with `412`, a script stops for the latter only, and every other tab has
a next step. -/
structure Safe (wire : Wire F) (s : System F) : Prop where
  alive : ∃ server, s.server = some server ∧ ∀ sw, server.theSwitch = some sw → Idle sw
  answers : ∀ k tab switchId r, s.tabs k = some tab → tab.phase = .answered switchId r →
    r.status = .successOk ∨ r.status = .clientErrorPreconditionFailed
  stops : ∀ k tab status, s.tabs k = some tab → tab.phase = .stopped status →
    status = some .clientErrorPreconditionFailed ∧ tab.session < s.helos
  moves : ∀ k tab, s.tabs k = some tab → (∃ status, tab.phase = .stopped status) ∨
    ∃ event, event ∈ [Event.post k, .serve k, .receive k] ∧ ∃ s', s.step wire event = some s'

section Runs

variable {wire : Wire F} {events : Nat → Event} {n : Nat} {s : System F} {k : Nat} {tab : Tab F}

theorem Inv.idle (h : Inv s) :
    ∃ server, s.server = some server ∧ ∀ sw, server.theSwitch = some sw → Idle sw := by
  obtain ⟨server, hserver, hinv⟩ := h.server
  refine ⟨server, hserver, fun sw hsw => ?_⟩
  rcases Nat.eq_zero_or_pos s.helos with hzero | hpos
  · rw [hinv.fresh hzero] at hsw
    cases hsw
  · obtain ⟨sw', hsw', -, hidle⟩ := hinv.current hpos
    cases hsw.symm.trans hsw'
    exact hidle

theorem exists_post {script : SwitchClient.Traced} {switchId : String} {session : Nat}
    {processed : List (Port → Option EthernetFrame)} :
    ∃ tab', (⟨script, .idle switchId, session, processed⟩ : Tab F).post = some tab' := by
  unfold Tab.post
  dsimp only
  split
  · exact ⟨_, rfl⟩
  · exact ⟨_, rfl⟩

theorem exists_receive (h : (∃ r, tab.phase = .greeted r) ∨
    ∃ switchId r, tab.phase = .answered switchId r) : ∃ tab', tab.receive = some tab' := by
  unfold Tab.receive
  rcases h with ⟨r, hphase⟩ | ⟨switchId, r, hphase⟩
  · rw [hphase]
    dsimp only
    split
    · exact ⟨_, rfl⟩
    · exact ⟨_, rfl⟩
  · rw [hphase]
    dsimp only
    split
    · split
      · exact ⟨_, rfl⟩
      · split
        · exact ⟨_, rfl⟩
        · exact ⟨_, rfl⟩
    · exact ⟨_, rfl⟩

/-- A tab that has not stopped is not stuck. -/
theorem Inv.moves (h : Inv s) (hk : s.tabs k = some tab) :
    (∃ status, tab.phase = .stopped status) ∨
      ∃ event, event ∈ [Event.post k, .serve k, .receive k] ∧ ∃ s', s.step wire event = some s' := by
  obtain ⟨server, hserver, -⟩ := h.server
  have hreceive : ((∃ r, tab.phase = .greeted r) ∨ ∃ switchId r, tab.phase = .answered switchId r) →
      ∃ s', s.step wire (.receive k) = some s' := by
    intro hphase
    obtain ⟨tab', htab'⟩ := exists_receive hphase
    exact ⟨_, Option.bind_eq_some_iff.mpr ⟨tab, hk, Option.bind_eq_some_iff.mpr ⟨tab', htab', rfl⟩⟩⟩
  have hserve : (∃ s', s.serve wire k tab = some s') → ∃ s', s.step wire (.serve k) = some s' :=
    fun ⟨s', hs'⟩ => ⟨s', Option.bind_eq_some_iff.mpr ⟨tab, hk, hs'⟩⟩
  obtain ⟨script, phase, session, processed⟩ := tab
  unfold System.serve at hserve
  rw [hserver] at hserve
  cases phase with
  | helo => exact .inr ⟨.serve k, by simp, hserve ⟨_, rfl⟩⟩
  | greeted r => exact .inr ⟨.receive k, by simp, hreceive (.inl ⟨r, rfl⟩)⟩
  | idle switchId =>
    obtain ⟨tab', htab'⟩ := exists_post (F := F)
    exact .inr ⟨.post k, by simp, _, Option.bind_eq_some_iff.mpr
      ⟨_, hk, Option.bind_eq_some_iff.mpr ⟨tab', htab', rfl⟩⟩⟩
  | ticking switchId entries => exact .inr ⟨.serve k, by simp, hserve ⟨_, rfl⟩⟩
  | answered switchId r => exact .inr ⟨.receive k, by simp, hreceive (.inr ⟨switchId, r, rfl⟩)⟩
  | stopped status => exact .inl ⟨status, rfl⟩

theorem Inv.safe (h : Inv s) : Safe wire s := by
  refine ⟨h.idle, ?_, ?_, fun k tab hk => h.moves hk⟩
  · intro k tab switchId r hk hphase
    have hinv := (h.tab k tab hk).phase
    cases hinv with
    | answered _ _ _ _ =>
      cases hphase
      exact .inl rfl
    | superseded _ _ _ =>
      cases hphase
      exact .inr rfl
    | _ => cases hphase
  · intro k tab status hk hphase
    have hinv := (h.tab k tab hk).phase
    cases hinv with
    | stopped _ _ hlt =>
      cases hphase
      exact ⟨rfl, hlt⟩
    | _ => cases hphase

/-- Whatever the tabs do and in whatever order the server serves them, no request of a script
fails but for `412 Precondition Failed` after a newer `/helo`. -/
theorem system_safe (hwire : ∀ n s, run wire events n = some s → wire.Parses s)
    (hrun : run wire events n = some s) : Safe wire s :=
  (inv_run hwire hrun).safe

theorem system_safe_twoTabs : ∃ s tab status, run sampleWire twoTabs 38 = some s ∧
    s.tabs 0 = some tab ∧ tab.phase = .stopped status ∧ Safe sampleWire s := by
  obtain ⟨s, tab, -, -, hs, -, htab, ⟨status, hphase⟩, -⟩ := twoTabs_stopped
  exact ⟨s, tab, status, hs, htab, hphase, system_safe twoTabs_parses hs⟩

/-- As long as the 64-bit counter does not wrap around: a tick succeeds exactly if no `/helo` has
been served after that of its tab, and two tabs have different sessions and different ids. -/
theorem session_exclusive (hwire : ∀ n s, run wire events n = some s → wire.Parses s)
    (hrun : run wire events n = some s) (hfew : s.helos < 2 ^ 64) :
    (∀ k tab switchId entries, s.tabs k = some tab → tab.phase = .ticking switchId entries →
      0 < tab.session ∧ ∃ s' tab' r, s.step wire (.serve k) = some s' ∧ s'.tabs k = some tab' ∧
        tab'.phase = .answered switchId r ∧ (r.status = .successOk ↔ tab.session = s.helos)) ∧
    (∀ k k' tab tab', s.tabs k = some tab → s.tabs k' = some tab' → k ≠ k' →
      (0 < tab.session → tab.session ≠ tab'.session) ∧
      ∀ switchId, tab.phase.switchId? = some switchId → tab'.phase.switchId? ≠ some switchId) := by
  have h := inv_run hwire hrun
  have hid : ∀ {k tab}, s.tabs k = some tab → ∀ {m}, m ≤ s.helos →
      sessionId tab.session = sessionId m → tab.session = m := fun hk _ hm heq =>
    sessionId_inj (Nat.lt_of_le_of_lt (h.tab _ _ hk).session_le hfew) (Nat.lt_of_le_of_lt hm hfew)
      heq
  constructor
  · intro k tab switchId entries hk hphase
    obtain ⟨server, hserver, hinv⟩ := h.server
    have htab := h.tab k tab hk
    obtain ⟨r, hresult, hstatus, -⟩ :
        ∃ r, SwitchServer.serve wire.codec s.served (.tick (some switchId) (wire.stringify entries))
          server = ⟨none, [r], server⟩ ∧ _ ∧ _ :=
      htab.serveTick hinv (hwire n s hrun k tab switchId entries hk hphase) hphase
    have hserve : ∃ s' tab', s.serve wire k tab = some s' ∧ s'.tabs k = some tab' ∧
        tab'.phase = .answered switchId r := by
      unfold System.serve
      rw [hphase, hserver]
      dsimp only
      rw [hresult]
      exact ⟨_, _, rfl, Function.update_self _ _ _, rfl⟩
    obtain ⟨s', tab', hserve, hk', hphase'⟩ := hserve
    have hswitch : tab.phase.switchId? = some switchId := by
      rw [hphase]
      rfl
    exact ⟨(htab.switchId hswitch).1, s', tab', r,
      Option.bind_eq_some_iff.mpr ⟨tab, hk, hserve⟩, hk', hphase',
      hstatus.trans ⟨hid hk le_rfl, fun heq => heq ▸ rfl⟩⟩
  · intro k k' tab tab' hk hk' hne
    refine ⟨fun hpos heq => hne (h.owner k k' tab tab' hk hk' heq hpos), ?_⟩
    intro switchId hswitch hswitch'
    obtain ⟨hpos, hm⟩ := (h.tab k tab hk).switchId hswitch
    obtain ⟨-, hm'⟩ := (h.tab k' tab' hk').switchId hswitch'
    have heq := hid hk (h.tab k' tab' hk').session_le (hm.symm.trans hm')
    exact hne (h.owner k k' tab tab' hk hk' heq hpos)

/-- The ticks of both tabs wait for the server, and only that of the second one succeeds. -/
theorem session_exclusive_twoTabs : ∃ s tab tab', run sampleWire twoTabs 34 = some s ∧
    s.tabs 0 = some tab ∧ s.tabs 1 = some tab' ∧ tab.session ≠ tab'.session ∧
    (∃ s' served switchId r, s.step sampleWire (.serve 0) = some s' ∧ s'.tabs 0 = some served ∧
      served.phase = .answered switchId r ∧ r.status ≠ .successOk) ∧
    ∃ s' served switchId r, s.step sampleWire (.serve 1) = some s' ∧ s'.tabs 1 = some served ∧
      served.phase = .answered switchId r ∧ r.status = .successOk := by
  obtain ⟨s, tab, tab', hs, hhelos, htab, ⟨id, entries, hphase⟩, hsession, htab',
    ⟨id', entries', hphase'⟩, hsession'⟩ := twoTabs_waiting
  have hfew : s.helos < 2 ^ 64 := by
    rw [hhelos]
    decide
  obtain ⟨hticks, htabs⟩ := session_exclusive twoTabs_parses hs hfew
  obtain ⟨-, s0, t0, r0, hstep, ht, hanswered, hstatus⟩ := hticks 0 tab id entries htab hphase
  obtain ⟨-, s1, t1, r1, hstep', ht', hanswered', hstatus'⟩ :=
    hticks 1 tab' id' entries' htab' hphase'
  have hpos : 0 < tab.session := by
    rw [hsession]
    decide
  have hlast : tab.session ≠ s.helos := by
    rw [hsession, hhelos]
    decide
  exact ⟨s, tab, tab', hs, htab, htab', (htabs 0 1 tab tab' htab htab' (by decide)).1 hpos,
    ⟨s0, t0, id, r0, hstep, ht, hanswered, fun hok => hlast (hstatus.mp hok)⟩,
    ⟨s1, t1, id', r1, hstep', ht', hanswered', hstatus'.mpr (hsession'.trans hhelos.symm)⟩⟩

end Runs

end SwitchSystem

end MicroRiscv
