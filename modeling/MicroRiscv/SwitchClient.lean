import Mathlib.Data.BitVec
import Mathlib.Data.Vector.Basic

/-!
# The simulation client

`framework.js` draws the hosts, sends their frames along the wires to the switch, and in
every tick posts one entry for each port to the server. The script runs one task at a
time, so a run is a sequence of these: a click or the generator sends a frame, a choice is
made in the VLAN table, the update loop builds the body of a request, and the loop goes on
with the answer. Tasks of the first two kinds may come between the last two.

An element that moves along a wire is a `Visual`; the elements of one class are listed in
the order of the document. Colours, positions and other classes are left out. Two
addresses have the same text exactly when they are equal. `none` stands for a task that
throws, which ends the update loop, or that the loop does not come to.
-/

namespace MicroRiscv

namespace SwitchClient

/-! ## Frames -/

abbrev MACAddress := Vector (BitVec 8) 6

def broadcast : MACAddress := Vector.replicate 6 0xff#8

structure Frame where
  target : MACAddress
  source : MACAddress
  etherType : BitVec 16
  data : List (BitVec 8)
  checksumOK : Bool
deriving DecidableEq

/-- A frame that a host sends. `serial` is the frame counter at that time, of which the
data holds the low bits; nothing reads it. -/
structure Packet where
  frame : Frame
  serial : Nat
deriving DecidableEq

/-- `N_PORTS`. -/
abbrev nPorts : Nat := 8

abbrev Port := Fin nPorts

/-- An element on a wire: `frameData`, `frameStep` and the text of its label. -/
structure Visual (φ : Type) where
  frameData : φ
  frameStep : Nat
  label : Option String
deriving DecidableEq

/-- A host with its wire and its column of the VLAN table. `statusVLAN` is `none` as long
as the table shows no number. -/
structure Host where
  sendQueue : List Packet
  incoming : List (Visual Frame)
  outgoing : List (Visual Packet)
  targetVLAN : Nat
  statusVLAN : Option Nat
deriving DecidableEq

def Host.start : Host := ⟨[], [], [], 0, none⟩

/-- The script: `awaiting` says that a request has been posted and not been answered. -/
structure Client where
  address : Port → MACAddress
  host : Port → Host
  globalFrameCounter : Nat
  awaiting : Bool

/-- The script after its start, with the addresses and the counter that it has drawn. -/
def Client.start (address : Port → MACAddress) (counter : Nat) : Client :=
  ⟨address, fun _ => Host.start, counter, false⟩

/-- `hosts[i].address`; the last one is the broadcast address. -/
def hostAddress (address : Port → MACAddress) (i : Fin (nPorts + 1)) : MACAddress :=
  if h : i.val < nPorts then address ⟨i.val, h⟩ else broadcast

/-! ## `enqueueFrame` -/

/-- The label of a new element: that of the first host with the target as its address. -/
def targetLabel (address : Port → MACAddress) (frame : Frame) : Option String :=
  ((List.finRange (nPorts + 1)).find? fun i => hostAddress address i == frame.target).map fun i =>
    "@" ++ if i.val = nPorts then "B" else "0" ++ toString i.val

/-- The element for a frame. A `Uint32Array` needs a buffer of whole words. -/
def makeVisual {φ : Type} (address : Port → MACAddress) (frame : Frame) (frameData : φ)
    (frameStep : Nat) : Option (Visual φ) :=
  if frame.data.length % 4 = 0 then some ⟨frameData, frameStep, targetLabel address frame⟩
  else none

/-- `enqueueFrame(.., true)`. -/
def enqueueOutgoing (address : Port → MACAddress) (packet : Packet) (host : Host) :
    Option Host := do
  let visual ← makeVisual address packet.frame packet 1
  return { host with outgoing := host.outgoing ++ [visual] }

/-- `enqueueFrame(.., false)`. -/
def enqueueIncoming (address : Port → MACAddress) (frame : Frame) (host : Host) :
    Option Host := do
  let visual ← makeVisual address frame frame 7
  return { host with incoming := host.incoming ++ [visual] }

/-! ## The update loop, up to the request -/

/-- The loop over the incoming elements. A completed element needs its label. -/
def stepIncoming (address : MACAddress) : List (Visual Frame) → Option (List (Visual Frame))
  | [] => some []
  | visual :: visuals =>
    if visual.frameStep = 1 then
      match visual.label with
      | none => none
      | some _ => do
        let frame := visual.frameData
        let targetingMe := frame.target == address || frame.target == broadcast
        let text := if frame.checksumOK && targetingMe then "✔\uFE0E" else "✘\uFE0E"
        let rest ← stepIncoming address visuals
        return ⟨frame, 0, some text⟩ :: rest
    else if visual.frameStep = 0 then stepIncoming address visuals
    else do
      let rest ← stepIncoming address visuals
      return { visual with frameStep := visual.frameStep - 1 } :: rest

/-- The loop over the outgoing elements: the last frame that arrives at the switch is
`impacting`. -/
def stepOutgoing : List (Visual Packet) → Option Packet × List (Visual Packet)
  | [] => (none, [])
  | visual :: visuals =>
    let (impacting, rest) := stepOutgoing visuals
    if visual.frameStep = 7 then (impacting.or (some visual.frameData), rest)
    else (impacting, { visual with frameStep := visual.frameStep + 1 } :: rest)

/-- An entry of the body of a request. -/
structure Entry where
  vlan : Option Nat
  frame : Option Packet
deriving DecidableEq

/-- `if (host.sendQueue.length) enqueueFrame(host.sendQueue.pop(), i, true)`. -/
def popSendQueue (address : Port → MACAddress) (host : Host) : Option Host :=
  match host.sendQueue.getLast? with
  | none => some host
  | some packet =>
    enqueueOutgoing address packet { host with sendQueue := host.sendQueue.dropLast }

/-- The update loop at one port. -/
def tickHost (address : Port → MACAddress) (i : Port) (host : Host) : Option (Entry × Host) := do
  let vlanUpdate := if some host.targetVLAN ≠ host.statusVLAN then some host.targetVLAN else none
  let incoming ← stepIncoming (address i) host.incoming
  let (impacting, outgoing) := stepOutgoing host.outgoing
  let host ← popSendQueue address { host with incoming, outgoing }
  return (⟨vlanUpdate, impacting⟩, host)

/-- What a loop over the ports does with the hosts, if it does not throw at one of them. -/
def forPorts {α : Type} (f : Port → Host → Option (α × Host)) (c : Client) :
    Option ((Port → α) × Client) :=
  if h : ∀ i, (f i (c.host i)).isSome then
    some (fun i => ((f i (c.host i)).get (h i)).1,
      { c with host := fun i => ((f i (c.host i)).get (h i)).2 })
  else none

/-- The update loop up to the request, and the body of the request. -/
def postTick (c : Client) : Option ((Port → Entry) × Client) :=
  if c.awaiting then none
  else do
    let (frames, c) ← forPorts (tickHost c.address) c
    return (frames, { c with awaiting := true })

/-! ## The other tasks -/

/-- The answer to a request, at one port. -/
structure Answer where
  vlan : Nat
  frame : Option Frame

/-- The update loop behind the request, at one port. -/
def answerHost (address : Port → MACAddress) (answer : Answer) (host : Host) : Option Host :=
  let host := { host with statusVLAN := some answer.vlan }
  match answer.frame with
  | none => some host
  | some frame => enqueueIncoming address frame host

/-- The update loop behind the request. -/
def receiveAnswer (answer : Port → Answer) (c : Client) : Option Client :=
  if c.awaiting then do
    let (_, c) ← forPorts (fun i host => (answerHost c.address (answer i) host).map ((), ·)) c
    return { c with awaiting := false }
  else none

def setHost (i : Port) (host : Host) (c : Client) : Client :=
  { c with host := Function.update c.host i host }

/-- The bytes of a word, as the platforms of the browsers store it. -/
def wordBytes (w : BitVec 32) : List (BitVec 8) :=
  [w.extractLsb' 0 8, w.extractLsb' 8 8, w.extractLsb' 16 8, w.extractLsb' 24 8]

/-- The frame that `sendPacket` puts into the queue. -/
def newPacket (src : Port) (dest : Fin (nPorts + 1)) (checksumOK : Bool) (c : Client) : Packet where
  frame :=
    { target := hostAddress c.address dest
      source := c.address src
      etherType := 0xffff#16
      data := wordBytes (BitVec.ofNat 32 c.globalFrameCounter)
      checksumOK }
  serial := c.globalFrameCounter

def sendPacket (src : Port) (dest : Fin (nPorts + 1)) (checksumOK : Bool) (c : Client) : Client :=
  let host := c.host src
  let packet := newPacket src dest checksumOK c
  { setHost src { host with sendQueue := host.sendQueue ++ [packet] } c with
    globalFrameCounter := c.globalFrameCounter + 1 }

/-- A choice in the VLAN table. -/
def selectVLAN (i : Port) (vlan : Nat) (c : Client) : Client :=
  setHost i { c.host i with targetVLAN := vlan } c

/-! ## Runs -/

inductive Event
  | sendPacket (src : Port) (dest : Fin (nPorts + 1)) (checksumOK : Bool)
  | selectVLAN (i : Port) (vlan : Nat)
  | postTick
  | receiveAnswer (answer : Port → Answer)

/-- The client with what has happened so far, oldest first: the frames that each host has
sent, the frame that left its queue in each tick, and the bodies of the requests. -/
structure Traced extends Client where
  sent : Port → List Packet
  left : Port → List (Option Packet)
  posted : List (Port → Entry)

namespace Traced

def start (address : Port → MACAddress) (counter : Nat) : Traced :=
  ⟨Client.start address counter, fun _ => [], fun _ => [], []⟩

/-- The next task, if it does not throw. -/
def step (t : Traced) : Event → Option Traced
  | .sendPacket src dest checksumOK => some
      { t with
        toClient := sendPacket src dest checksumOK t.toClient
        sent := Function.update t.sent src
          (t.sent src ++ [newPacket src dest checksumOK t.toClient]) }
  | .selectVLAN i vlan => some { t with toClient := selectVLAN i vlan t.toClient }
  | .postTick => do
    let (frames, c) ← postTick t.toClient
    return ⟨c, t.sent, fun i => t.left i ++ [(t.host i).sendQueue.getLast?], t.posted ++ [frames]⟩
  | .receiveAnswer answer => do
    let c ← receiveAnswer answer t.toClient
    return { t with toClient := c }

/-- The state before the `n`-th task, unless a task has thrown. -/
def run (address : Port → MACAddress) (counter : Nat) (events : Nat → Event) : Nat → Option Traced
  | 0 => some (start address counter)
  | n + 1 => (run address counter events n).bind fun t => t.step (events n)

end Traced

end SwitchClient

end MicroRiscv
