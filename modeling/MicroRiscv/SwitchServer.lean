import MicroRiscv.FrameChecksum
import MicroRiscv.Json
import MicroRiscv.Lib.Fallible

/-!
# The simulation server

`control.cpp` serves the simulation in a browser: `POST /helo` starts a new simulation,
`POST /tick` delivers the frames of one transmission window to the ports of the switch
and answers with the frames that the switch sends. Both handlers hold one mutex, so the
requests happen one after the other. The switch of `switch.cpp` is the unfinished one of
the repository: it takes at most one frame from each port, sends none, and keeps no VLAN.

The handlers are computations that fail without a rollback (`Fallible`). `catch (...)`
answers a failure that was thrown; a failed assertion ends the program. What the handlers
print is left out, and so are the other resources, which do not touch the simulation.
-/

namespace MicroRiscv

namespace SwitchServer

open MicroRiscv.Frame (MACAddress EtherType CRC32Checksum calculateFrameChecksum)

/-! ## Ports and switch -/

structure EthernetFrame where
  destinationAddress : MACAddress
  sourceAddress : MACAddress
  etherType : EtherType
  data : List (BitVec 8)
  checksum : CRC32Checksum
deriving DecidableEq

/-- A frame in a receive queue. `request` is the number of the request that brought it; it
follows the frame and nothing reads it. -/
structure Received where
  frame : EthernetFrame
  request : Nat
deriving DecidableEq

/-- `ActualEthernetPort`, its queues from the front on. -/
structure EthernetPort where
  recvQueue : List Received
  sendQueue : List EthernetFrame
deriving DecidableEq

/-- `NUM_PORTS`. -/
abbrev numPorts : Nat := 8

abbrev Port := Fin numPorts

/-- `ActualEthernetSwitch`. -/
structure EthernetSwitch where
  id : String
  ports : Port → EthernetPort

/-- A switch as its constructor leaves it. -/
def EthernetSwitch.new (id : String) : EthernetSwitch := ⟨id, fun _ => ⟨[], []⟩⟩

def EthernetPort.hasFrame (port : EthernetPort) : Bool := !port.recvQueue.isEmpty

def EthernetPort.stuffRecvQueue (r : Received) (port : EthernetPort) : EthernetPort :=
  { port with recvQueue := port.recvQueue ++ [r] }

namespace EthernetSwitch

def modifyPort (p : Port) (f : EthernetPort → EthernetPort) (sw : EthernetSwitch) :
    EthernetSwitch :=
  { sw with ports := Function.update sw.ports p (f (sw.ports p)) }

/-- Not implemented in the source: it prints, and stores nothing. -/
def setPortVLAN (_ : Port) (_ : BitVec 64) (sw : EthernetSwitch) : EthernetSwitch := sw

/-- Not implemented in the source. -/
def getPortVLAN (_ : EthernetSwitch) (_ : Port) : BitVec 64 := 0#64

end EthernetSwitch

abbrev SwitchM := Fallible Signal EthernetSwitch

/-- `getFrame`, with its assertion. -/
def getFrame (p : Port) : SwitchM EthernetFrame := do
  let sw ← get
  match (sw.ports p).recvQueue with
  | [] => throw (.aborted .recvQueueNonempty)
  | r :: rest => do
    modify (EthernetSwitch.modifyPort p fun port => { port with recvQueue := rest })
    return r.frame

/-- The body of the loop of `processFrames`. The frame is taken and goes nowhere. -/
def processPort (p : Port) : SwitchM Unit := do
  let sw ← get
  if (sw.ports p).hasFrame then
    let _ ← getFrame p
    pure ()
  else pure ()

def processFrames : SwitchM Unit := forM (List.finRange numPorts) processPort

def popSendQueue (p : Port) : SwitchM (Option EthernetFrame) := do
  let sw ← get
  match (sw.ports p).sendQueue with
  | [] => return none
  | frame :: rest => do
    modify (EthernetSwitch.modifyPort p fun port => { port with sendQueue := rest })
    return some frame

/-! ## Decoding an entry of the body -/

/-- What the handlers use and this model does not define: the text parser of the JSON
library, which throws on malformed text, and the conversion of a `double`. -/
structure Codec (F : Type) where
  parse : String → Option (Json F)
  toUnsigned : (w : Nat) → F → BitVec w

/-- A conversion of the JSON library inside of a handler. -/
def orThrow {α : Type} : Option α → Except Signal α
  | some a => .ok a
  | none => .error .thrown

variable {F : Type} (c : Codec F)

namespace Codec

def getByte : Json F → Option (BitVec 8) := Json.fromJsonArithmetic c.toUnsigned 8

def getMACAddress : Json F → Option MACAddress := Json.getStdArray 6 c.getByte

def getEtherType : Json F → Option EtherType := Json.fromJsonArithmetic c.toUnsigned 16

def getData : Json F → Option (List (BitVec 8)) := Json.getStdVector c.getByte

/-- `VLANId` is the unsigned number type of the JSON library. -/
def getVLANId : Json F → Option (BitVec 64) := Json.getArithmeticValue c.toUnsigned 64

end Codec

/-- `json[key].get()`. -/
def field {α : Type} (key : String) (get : Json F → Option α) (j : Json F) : Except Signal α := do
  let x ← j.index key
  orThrow (get x)

/-- The frame of an entry. -/
def decodeFrame (jsonFrame : Json F) : Except Signal EthernetFrame := do
  let destinationAddress ← field "target" c.getMACAddress jsonFrame
  let sourceAddress ← field "source" c.getMACAddress jsonFrame
  let etherType ← field "etherType" c.getEtherType jsonFrame
  let data ← field "data" c.getData jsonFrame
  let checksum := calculateFrameChecksum destinationAddress sourceAddress etherType data
  let checksumOK ← field "checksumOK" Json.getBool jsonFrame
  return ⟨destinationAddress, sourceAddress, etherType, data,
    if checksumOK then checksum else checksum ^^^ 0x1#32⟩

/-- The first `if` of the loop of the `/tick` handler. -/
def applyVLAN (p : Port) (content : Json F) : SwitchM Unit := do
  let jsonVLAN ← liftM (content.index "vlan")
  if jsonVLAN.isNull then pure ()
  else do
    let vlan ← liftM (orThrow (c.getVLANId jsonVLAN))
    modify (EthernetSwitch.setPortVLAN p vlan)

/-- The second `if`, in the request `n`. -/
def applyFrame (n : Nat) (p : Port) (content : Json F) : SwitchM Unit := do
  let jsonFrame ← liftM (content.index "frame")
  if jsonFrame.isNull then pure ()
  else do
    let frame ← liftM (decodeFrame c jsonFrame)
    modify (EthernetSwitch.modifyPort p (EthernetPort.stuffRecvQueue ⟨frame, n⟩))

/-- The body of the loop. -/
def applyEntry (n : Nat) (p : Port) (content : Json F) : SwitchM Unit :=
  if content.isNull then pure ()
  else do
    applyVLAN c p content
    applyFrame c n p content

/-! ## The handlers -/

/-- The status codes that the handlers write. -/
inductive StatusCode
  | successOk
  | clientErrorBadRequest
  | clientErrorPreconditionFailed
deriving DecidableEq, Repr

def StatusCode.code : StatusCode → Nat
  | successOk => 200
  | clientErrorBadRequest => 400
  | clientErrorPreconditionFailed => 412

structure Response (F : Type) where
  status : StatusCode
  header : List (String × String)
  body : Option (Json F)

/-- The JSON value of bytes. -/
def bytesJson (bytes : List (BitVec 8)) : Json F :=
  .array (bytes.map fun b => .numberUnsigned (b.setWidth 64))

def frameJson (frame : EthernetFrame) : Json F :=
  let sum := calculateFrameChecksum frame.destinationAddress frame.sourceAddress frame.etherType
    frame.data
  .object [("target", bytesJson frame.destinationAddress.toList),
    ("source", bytesJson frame.sourceAddress.toList),
    ("etherType", .numberUnsigned (frame.etherType.setWidth 64)),
    ("data", bytesJson frame.data),
    ("checksumOK", .boolean (frame.checksum == sum))]

/-- The second loop of the `/tick` handler at one port. -/
def responseElement (p : Port) : SwitchM (Json F) := do
  let sw ← get
  let frame ← popSendQueue p
  return .object [("vlan", .numberUnsigned (sw.getPortVLAN p)),
    ("frame", match frame with
      | some frame => frameJson frame
      | none => .null)]

/-- What the `/tick` handler does with the switch. -/
def serveTick (n : Nat) (jsonArray : Vector (Json F) numPorts) : SwitchM (Json F) := do
  forM (List.finRange numPorts) fun p => applyEntry c n p (jsonArray.get p)
  processFrames
  let response ← (List.finRange numPorts).mapM responseElement
  return .array response

/-- The variables of `main`: the counter of `/helo` and `THE_SWITCH`. -/
structure Server where
  id : BitVec 64
  theSwitch : Option EthernetSwitch

def Server.start : Server := ⟨0#64, none⟩

/-- The server and the responses that a handler has written. -/
structure World (F : Type) where
  server : Server
  written : List (Response F)

abbrev HandlerM (F : Type) := Fallible Signal (World F)

def write (r : Response F) : HandlerM F Unit :=
  modify fun w => { w with written := w.written ++ [r] }

/-- Runs `x` on the switch, which keeps what `x` has done even when `x` fails. -/
def onSwitch {α : Type} (sw : EthernetSwitch) (x : SwitchM α) : HandlerM F α := do
  let run := Fallible.exec x sw
  modify fun w => { w with server := { w.server with theSwitch := some run.2 } }
  liftM run.1

/-- `parse(..).get<std::array<json, NUM_PORTS>>()`. -/
def entries (content : String) : Option (Vector (Json F) numPorts) :=
  (c.parse content).bind (Json.getStdArray numPorts some)

/-- The `try` block of the `/tick` handler; `switchId` is the header `X-Switch-ID`. -/
def tickBody (n : Nat) (switchId : Option String) (content : String) : HandlerM F Unit :=
  match switchId with
  | none => throw .thrown
  | some switchId => do
    let w ← get
    match w.server.theSwitch with
    | none => write ⟨.clientErrorPreconditionFailed, [], none⟩
    | some sw =>
      if sw.id ≠ switchId then write ⟨.clientErrorPreconditionFailed, [], none⟩
      else do
        let jsonArray ← liftM (orThrow (entries c content))
        let response ← onSwitch sw (serveTick c n jsonArray)
        write ⟨.successOk, [("Content-Type", "application/json")], some response⟩

/-- The `/tick` handler. `catch (...)` does not see a failed assertion. -/
def tick (n : Nat) (switchId : Option String) (content : String) : HandlerM F Unit :=
  tryCatch (tickBody c n switchId content) fun
    | .thrown => write ⟨.clientErrorBadRequest, [], none⟩
    | .aborted a => throw (.aborted a)

/-- The `/helo` handler. -/
def helo : HandlerM F Unit := do
  let w ← get
  let id := w.server.id + 1#64
  let thisId := toString id.toNat
  modify fun w => { w with server := ⟨id, some (EthernetSwitch.new thisId)⟩ }
  write ⟨.successOk, [("X-Switch-ID", thisId)], none⟩

/-! ## Runs -/

inductive Request
  | helo
  | tick (switchId : Option String) (content : String)

/-- What a request leads to: a failed assertion, if there was one, the responses and the
server after it. -/
structure Served (F : Type) where
  aborted : Option Assertion
  written : List (Response F)
  server : Server

def handler (n : Nat) : Request → HandlerM F Unit
  | .helo => helo
  | .tick switchId content => tick c n switchId content

/-- The `n`-th request meets the server `s`. -/
def serve (n : Nat) (r : Request) (s : Server) : Served F :=
  match Fallible.exec (handler c n r) ⟨s, []⟩ with
  | (.error (.aborted a), w) => ⟨some a, w.written, w.server⟩
  | (_, w) => ⟨none, w.written, w.server⟩

/-- The server before the `n`-th request, unless an assertion has ended the program. -/
def run (requests : Nat → Request) : Nat → Option Server
  | 0 => some Server.start
  | n + 1 =>
    match run requests n with
    | none => none
    | some s =>
      let served := serve c n (requests n) s
      match served.aborted with
      | some _ => none
      | none => some served.server

end SwitchServer

end MicroRiscv
