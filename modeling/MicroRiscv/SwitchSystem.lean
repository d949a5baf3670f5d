import MicroRiscv.SwitchTransport
import MicroRiscv.SwitchTicks
import MicroRiscv.SwitchWire

/-!
# Browser tabs and the server

Every tab runs the script: it posts `/helo` once and then `/tick` again and again, one request at
a time. The server has a pool of threads and a mutex around both handlers, so the requests of all
tabs are served one after the other, in any order. A step of the system is one of these:
a tab is opened, a user acts in it, its update loop posts a request, the server serves the request
of a tab, or a response arrives.

A tab stops when a task throws or a response is not a success; `stopped` keeps the status. A
closed tab is one that takes no further step; the server may still serve its last request.

Ghost data: which `/helo` a tab owns, the history of its script, and for each tick that succeeded
the frames that the switch found at its ports.
-/

namespace MicroRiscv

namespace SwitchSystem

open SwitchServer (Server Codec Response StatusCode EthernetFrame EthernetSwitch Served)
open SwitchClient (Entry Answer Port MACAddress)

variable {F : Type}

/-! ## State -/

/-- Where the script is with its request. The request or the response is on its way. -/
inductive Phase (F : Type)
  | helo
  | greeted (r : Response F)
  | idle (switchId : String)
  | ticking (switchId : String) (entries : Port → Entry)
  | answered (switchId : String) (r : Response F)
  | stopped (status : Option StatusCode)

/-- `session` is the number of the tab's `/helo` among all that were served. -/
structure Tab (F : Type) where
  script : SwitchClient.Traced
  phase : Phase F
  session : Nat
  processed : List (Port → Option EthernetFrame)

def Tab.start (address : Port → MACAddress) (counter : Nat) : Tab F :=
  ⟨SwitchClient.Traced.start address counter, .helo, 0, []⟩

/-- `server` is `none` once an assertion has ended the program. -/
structure System (F : Type) where
  server : Option Server
  served : Nat
  helos : Nat
  tabs : Nat → Option (Tab F)

def System.start : System F := ⟨some Server.start, 0, 0, fun _ => none⟩

def System.setTab (s : System F) (k : Nat) (tab : Tab F) : System F :=
  { s with tabs := Function.update s.tabs k (some tab) }

/-! ## The wire -/

/-- What the browser and the JSON library do with text. -/
structure Wire (F : Type) where
  codec : Codec F
  stringify : (Port → Entry) → String

/-- The server parses what the tabs have posted. -/
def Wire.Parses (wire : Wire F) (s : System F) : Prop :=
  ∀ k tab switchId entries, s.tabs k = some tab → tab.phase = .ticking switchId entries →
    wire.codec.parse (wire.stringify entries) = some (SwitchWire.bodyJson entries)

/-! ## The script -/

/-- The update loop up to the request. -/
def Tab.post (tab : Tab F) : Option (Tab F) :=
  match tab.phase with
  | .idle switchId =>
    match SwitchClient.postTick tab.script.toClient, tab.script.step .postTick with
    | some (entries, _), some script => some { tab with script, phase := .ticking switchId entries }
    | _, _ => some { tab with phase := .stopped none }
  | _ => none

/-- A response arrives. `headers.get` of a header that is missing ends up as a text too. -/
def Tab.receive (tab : Tab F) : Option (Tab F) :=
  match tab.phase with
  | .greeted r =>
    if r.status = .successOk then
      some { tab with phase := .idle ((r.header.lookup "X-Switch-ID").getD "null") }
    else some { tab with phase := .stopped (some r.status) }
  | .answered switchId r =>
    if r.status = .successOk then
      match r.body.bind SwitchWire.readAnswers with
      | none => some { tab with phase := .stopped none }
      | some answer =>
        match tab.script.step (.receiveAnswer answer) with
        | none => some { tab with phase := .stopped none }
        | some script => some { tab with script, phase := .idle switchId }
    else some { tab with phase := .stopped (some r.status) }
  | _ => none

/-- A click: the controls are there in every phase. -/
def Tab.act (tab : Tab F) (event : SwitchClient.Event) : Option (Tab F) :=
  (tab.script.step event).map fun script => { tab with script }

/-! ## The server -/

/-- What `processFrames` finds at the ports in the request `n`. -/
def found (c : Codec F) (n : Nat) (server : Server) (content : String) :
    Port → Option EthernetFrame :=
  match server.theSwitch, SwitchServer.entries c content with
  | some sw, some es => fun p =>
    let run := Fallible.exec
      (forM (List.finRange SwitchServer.numPorts) fun q =>
        SwitchServer.applyEntry c n q (es.get q)) sw
    ((run.2.ports p).recvQueue.head?).map SwitchServer.Received.frame
  | _, _ => fun _ => none

/-- The response to the tab, and the server behind it. -/
def System.conclude (s : System F) (k : Nat) (result : Served F) (tab : Response F → Tab F)
    (lost : Tab F) : System F :=
  { s.setTab k (match result.written.head? with
      | some r => tab r
      | none => lost) with
    server := match result.aborted with
      | none => some result.server
      | some _ => none
    served := s.served + 1 }

/-- The server serves the request of the tab `k`. -/
def System.serve (wire : Wire F) (s : System F) (k : Nat) (tab : Tab F) : Option (System F) :=
  let lost := { tab with phase := .stopped none }
  match tab.phase, s.server with
  | .helo, none | .ticking _ _, none => some (s.setTab k lost)
  | .helo, some server =>
    let result := SwitchServer.serve wire.codec s.served .helo server
    some { s.conclude k result
        (fun r => { tab with phase := .greeted r, session := s.helos + 1 }) lost with
      helos := s.helos + 1 }
  | .ticking switchId entries, some server =>
    let content := wire.stringify entries
    let result := SwitchServer.serve wire.codec s.served (.tick (some switchId) content) server
    some (s.conclude k result
      (fun r => { tab with
        phase := .answered switchId r
        processed := if r.status = .successOk then
            tab.processed ++ [found wire.codec s.served server content]
          else tab.processed }) lost)
  | _, _ => none

/-! ## Runs -/

/-- The options of the VLAN table are the numbers of the ports. -/
inductive Event
  | load (k : Nat) (address : Port → MACAddress) (counter : Nat)
  | send (k : Nat) (src : Port) (dest : Fin (SwitchClient.nPorts + 1)) (checksumOK : Bool)
  | select (k : Nat) (i : Port) (vlan : Port)
  | post (k : Nat)
  | serve (k : Nat)
  | receive (k : Nat)

/-- A step, if it is possible. -/
def System.step (wire : Wire F) (s : System F) : Event → Option (System F)
  | .load k address counter =>
    match s.tabs k with
    | none => some (s.setTab k (Tab.start address counter))
    | some _ => none
  | .send k src dest checksumOK => do
    let tab ← s.tabs k
    let tab ← tab.act (.sendPacket src dest checksumOK)
    return s.setTab k tab
  | .select k i vlan => do
    let tab ← s.tabs k
    let tab ← tab.act (.selectVLAN i vlan)
    return s.setTab k tab
  | .post k => do
    let tab ← s.tabs k
    let tab ← tab.post
    return s.setTab k tab
  | .serve k => do
    let tab ← s.tabs k
    s.serve wire k tab
  | .receive k => do
    let tab ← s.tabs k
    let tab ← tab.receive
    return s.setTab k tab

/-- The tab in which the step is. -/
def Event.tab : Event → Nat
  | .load k _ _ | .send k _ _ _ | .select k _ _ | .post k | .serve k | .receive k => k

/-- The state before the `n`-th step. -/
def run (wire : Wire F) (events : Nat → Event) : Nat → Option (System F)
  | 0 => some System.start
  | n + 1 => (run wire events n).bind fun s => s.step wire (events n)

/-- A step leaves the other tabs alone. -/
theorem tabs_step {wire : Wire F} {s s' : System F} {event : Event}
    (h : s.step wire event = some s') :
    ∃ tab', s'.tabs = Function.update s.tabs event.tab (some tab') := by
  cases event with
  | load k address counter =>
    unfold System.step at h
    dsimp only at h
    split at h
    · cases h
      exact ⟨_, rfl⟩
    · cases h
  | serve k =>
    obtain ⟨tab, -, h⟩ := Option.bind_eq_some_iff.mp h
    unfold System.serve at h
    dsimp only at h
    split at h
    all_goals
      cases h
      try exact ⟨_, rfl⟩
  | _ =>
    obtain ⟨tab, -, h⟩ := Option.bind_eq_some_iff.mp h
    obtain ⟨tab', -, h⟩ := Option.bind_eq_some_iff.mp h
    cases h
    exact ⟨_, rfl⟩

end SwitchSystem

end MicroRiscv
