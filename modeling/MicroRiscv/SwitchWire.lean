import MicroRiscv.SwitchClient
import MicroRiscv.SwitchEntries

/-!
# Frames between the script and the server

The script posts its entries with `JSON.stringify` and the handler takes the values apart; the
handler answers with `dump` and the script uses the members of what it parses. `clientFrameJson`
and `entryJson` are the values that arrive at the server, their members sorted by the keys.
`readFrame` and `readAnswer` are the members that the script reads, `none` for a value of another
shape, which the server does not send.

A frame has a checksum at the server and one bit, `checksumOK`, everywhere else.

Results:
1. `decodeFrame_clientFrameJson`, `readFrame_frameJson`: both directions.
2. `frame_roundTrip`: a frame that comes back as it was received is the one that was sent, and a
   frame of the server survives its own format exactly if one bit describes its checksum.
3. `decodeEntry_entryJson`: the script sends well-formed entries.
-/

namespace MicroRiscv

/-- `j.key` of the script, where it is defined. -/
def Json.member? {F : Type} (key : String) : Json F → Option (Json F)
  | .object members => members.lookup key
  | _ => none

namespace SwitchWire

open SwitchServer (EthernetFrame Codec decodeFrame decodeEntry frameJson bytesJson field)
open SwitchClient (Entry Answer Port)
open MicroRiscv.Frame (MACAddress CRC32Checksum calculateFrameChecksum)

variable {F : Type}

/-! ## 1. Values -/

def clientFrameJson (frame : SwitchClient.Frame) : Json F :=
  .object [("checksumOK", .boolean frame.checksumOK), ("data", bytesJson frame.data),
    ("etherType", .numberUnsigned (frame.etherType.setWidth 64)),
    ("source", bytesJson frame.source.toList), ("target", bytesJson frame.target.toList)]

def entryJson (entry : Entry) : Json F :=
  .object [
    ("frame", match entry.frame with
      | some packet => clientFrameJson packet.frame
      | none => .null),
    ("vlan", match entry.vlan with
      | some vlan => .numberUnsigned (BitVec.ofNat 64 vlan)
      | none => .null)]

/-- The body of a request. -/
def bodyJson (entries : Port → Entry) : Json F :=
  .array ((List.finRange SwitchClient.nPorts).map fun i => entryJson (entries i))

/-- A byte as the script reads it. -/
def readByte : Json F → Option (BitVec 8)
  | .numberUnsigned n => if n.toNat < 256 then some (n.setWidth 8) else none
  | _ => none

def readEtherType : Json F → Option (BitVec 16)
  | .numberUnsigned n => if n.toNat < 65536 then some (n.setWidth 16) else none
  | _ => none

def readFrame (j : Json F) : Option SwitchClient.Frame := do
  let target ← (j.member? "target").bind (Json.getStdArray 6 readByte)
  let source ← (j.member? "source").bind (Json.getStdArray 6 readByte)
  let etherType ← (j.member? "etherType").bind readEtherType
  let data ← (j.member? "data").bind (Json.getStdVector readByte)
  let checksumOK ← (j.member? "checksumOK").bind Json.getBool
  return { target, source, etherType, data, checksumOK }

def readVLAN : Json F → Option Nat
  | .numberUnsigned n => some n.toNat
  | _ => none

/-- `const { vlan, frame } = incomingFrames[i]`. -/
def readAnswer (j : Json F) : Option Answer := do
  let vlan ← (j.member? "vlan").bind readVLAN
  let jsonFrame ← j.member? "frame"
  let frame ← if jsonFrame.isNull then some none else (readFrame jsonFrame).map some
  return { vlan, frame }

/-- The loop over `incomingFrames`. -/
def readAnswers (j : Json F) : Option (Port → Answer) :=
  if h : ∀ i : Port, ((j.at? i.val).bind readAnswer).isSome then
    some fun i => ((j.at? i.val).bind readAnswer).get (h i)
  else none

/-! ## 2. Frames -/

/-- The checksum of a frame. -/
def sumOf (frame : EthernetFrame) : CRC32Checksum :=
  calculateFrameChecksum frame.destinationAddress frame.sourceAddress frame.etherType frame.data

/-- The frame that the server makes of a frame of the script. -/
def received (frame : SwitchClient.Frame) : EthernetFrame :=
  let checksum := calculateFrameChecksum frame.target frame.source frame.etherType frame.data
  ⟨frame.target, frame.source, frame.etherType, frame.data,
    if frame.checksumOK then checksum else checksum ^^^ 0x1#32⟩

/-- What is left of a frame of the server in its format. -/
def shown (frame : EthernetFrame) : SwitchClient.Frame where
  target := frame.destinationAddress
  source := frame.sourceAddress
  etherType := frame.etherType
  data := frame.data
  checksumOK := frame.checksum == sumOf frame

theorem getStdArray_bytesJson {n : Nat} {get : Json F → Option (BitVec 8)}
    (hget : ∀ b : BitVec 8, get (.numberUnsigned (b.setWidth 64)) = some b)
    (v : Vector (BitVec 8) n) : (bytesJson v.toList : Json F).getStdArray n get = some v := by
  refine Json.getStdArray_eq_some_iff.mpr ⟨_, rfl, fun i hi => ?_⟩
  refine ⟨.numberUnsigned (v[i].setWidth 64), ?_, hget v[i]⟩
  simp [hi]

theorem getStdVector_bytesJson {get : Json F → Option (BitVec 8)}
    (hget : ∀ b : BitVec 8, get (.numberUnsigned (b.setWidth 64)) = some b)
    (bytes : List (BitVec 8)) : (bytesJson bytes : Json F).getStdVector get = some bytes := by
  show (bytes.map fun b => Json.numberUnsigned (b.setWidth 64)).mapM get = some bytes
  induction bytes with
  | nil => rfl
  | cons b bytes ih =>
    rw [List.map_cons, List.mapM_cons, hget, ih]
    rfl

theorem setWidth_setWidth_self {v w : Nat} (h : v ≤ w) (b : BitVec v) :
    (b.setWidth w).setWidth v = b := by
  rw [BitVec.setWidth_setWidth_of_le b h, BitVec.setWidth_eq]

theorem getByte_numberUnsigned (c : Codec F) (b : BitVec 8) :
    c.getByte (.numberUnsigned (b.setWidth 64)) = some b :=
  congrArg some (setWidth_setWidth_self (by decide) b)

theorem readByte_numberUnsigned (b : BitVec 8) :
    readByte (.numberUnsigned (b.setWidth 64) : Json F) = some b := by
  have hlt : (b.setWidth 64).toNat < 256 := by
    rw [BitVec.toNat_setWidth_of_le (by decide)]
    exact b.isLt
  show (if (b.setWidth 64).toNat < 256 then _ else _) = some b
  rw [if_pos hlt, setWidth_setWidth_self (by decide)]

theorem readEtherType_numberUnsigned (type : BitVec 16) :
    readEtherType (.numberUnsigned (type.setWidth 64) : Json F) = some type := by
  have hlt : (type.setWidth 64).toNat < 65536 := by
    rw [BitVec.toNat_setWidth_of_le (by decide)]
    exact type.isLt
  show (if (type.setWidth 64).toNat < 65536 then _ else _) = some type
  rw [if_pos hlt, setWidth_setWidth_self (by decide)]

/-- A member that is there and converts. -/
theorem field_eq_ok {α : Type} {key : String} {get : Json F → Option α}
    {members : List (String × Json F)} {x : Json F} {a : α} (hx : members.lookup key = some x)
    (hget : get x = some a) : field key get (.object members) = .ok a :=
  SwitchServer.field_eq_ok_iff.mpr ⟨members, x, rfl, hx, hget⟩

/-- An object with the members of a frame, in whatever order. -/
theorem decodeFrame_of_members {c : Codec F} {members : List (String × Json F)}
    {target source : MACAddress} {type : BitVec 16} {data : List (BitVec 8)} {ok : Bool}
    (htarget : members.lookup "target" = some (bytesJson target.toList))
    (hsource : members.lookup "source" = some (bytesJson source.toList))
    (htype : members.lookup "etherType" = some (.numberUnsigned (type.setWidth 64)))
    (hdata : members.lookup "data" = some (bytesJson data))
    (hok : members.lookup "checksumOK" = some (.boolean ok)) :
    decodeFrame c (.object members) = .ok (received ⟨target, source, type, data, ok⟩) := by
  have htype' : c.getEtherType (.numberUnsigned (type.setWidth 64)) = some type :=
    congrArg some (setWidth_setWidth_self (by decide) type)
  have hmac : ∀ v : MACAddress, c.getMACAddress (bytesJson v.toList) = some v :=
    getStdArray_bytesJson (getByte_numberUnsigned c)
  have hdata' : c.getData (bytesJson data) = some data :=
    getStdVector_bytesJson (getByte_numberUnsigned c) data
  have hok' : Json.getBool (.boolean ok : Json F) = some ok := rfl
  unfold decodeFrame
  rw [field_eq_ok htarget (hmac target), field_eq_ok hsource (hmac source),
    field_eq_ok htype htype', field_eq_ok hdata hdata', field_eq_ok hok hok']
  rfl

/-- The script's frame at the server. -/
theorem decodeFrame_clientFrameJson (c : Codec F) (frame : SwitchClient.Frame) :
    decodeFrame c (clientFrameJson frame) = .ok (received frame) :=
  decodeFrame_of_members rfl rfl rfl rfl rfl

theorem decodeFrame_frameJson (c : Codec F) (frame : EthernetFrame) :
    decodeFrame c (frameJson frame) = .ok (received (shown frame)) :=
  decodeFrame_of_members rfl rfl rfl rfl rfl

theorem readFrame_of_members {members : List (String × Json F)} {target source : MACAddress}
    {type : BitVec 16} {data : List (BitVec 8)} {ok : Bool}
    (htarget : members.lookup "target" = some (bytesJson target.toList))
    (hsource : members.lookup "source" = some (bytesJson source.toList))
    (htype : members.lookup "etherType" = some (.numberUnsigned (type.setWidth 64)))
    (hdata : members.lookup "data" = some (bytesJson data))
    (hok : members.lookup "checksumOK" = some (.boolean ok)) :
    readFrame (.object members) = some ⟨target, source, type, data, ok⟩ := by
  have hmac : ∀ v : MACAddress, (bytesJson v.toList : Json F).getStdArray 6 readByte = some v :=
    getStdArray_bytesJson readByte_numberUnsigned
  have hdata' : (bytesJson data : Json F).getStdVector readByte = some data :=
    getStdVector_bytesJson readByte_numberUnsigned data
  have hmember : ∀ key, (Json.object members).member? key = members.lookup key := fun _ => rfl
  unfold readFrame
  rw [hmember, hmember, hmember, hmember, hmember, htarget, hsource, htype, hdata, hok,
    Option.bind_some, Option.bind_some, Option.bind_some, Option.bind_some, hmac, hmac, hdata',
    readEtherType_numberUnsigned]
  rfl

/-- The server's frame in the script. -/
theorem readFrame_frameJson (frame : EthernetFrame) :
    readFrame (frameJson frame : Json F) = some (shown frame) :=
  readFrame_of_members rfl rfl rfl rfl rfl

theorem readFrame_clientFrameJson (frame : SwitchClient.Frame) :
    readFrame (clientFrameJson frame : Json F) = some frame :=
  readFrame_of_members rfl rfl rfl rfl rfl

theorem sumOf_received (frame : SwitchClient.Frame) :
    sumOf (received frame) =
      calculateFrameChecksum frame.target frame.source frame.etherType frame.data := rfl

/-- One bit tells the two checksums apart that the server gives to a frame. -/
theorem xor_one_ne (sum : CRC32Checksum) : sum ^^^ 0x1#32 ≠ sum := by
  intro h
  have hone : sum ^^^ (sum ^^^ 0x1#32) = 0#32 := by rw [h, BitVec.xor_self]
  rw [← BitVec.xor_assoc, BitVec.xor_self, BitVec.zero_xor] at hone
  exact absurd hone (by decide)

theorem shown_received (frame : SwitchClient.Frame) : shown (received frame) = frame := by
  obtain ⟨target, source, type, data, ok⟩ := frame
  have hok : ((received ⟨target, source, type, data, ok⟩).checksum ==
      sumOf (received ⟨target, source, type, data, ok⟩)) = ok := by
    rw [sumOf_received]
    cases ok with
    | true => exact beq_self_eq_true _
    | false => exact beq_eq_false_iff_ne.mpr (xor_one_ne _)
  show SwitchClient.Frame.mk target source type data _ = _
  rw [hok]

/-- A frame survives the format when its checksum is one of the two that the server gives. -/
theorem received_shown_iff (frame : EthernetFrame) : received (shown frame) = frame ↔
    frame.checksum = sumOf frame ∨ frame.checksum = sumOf frame ^^^ 0x1#32 := by
  obtain ⟨target, source, type, data, checksum⟩ := frame
  have hchecksum : received (shown ⟨target, source, type, data, checksum⟩) =
      ⟨target, source, type, data, checksum⟩ ↔
      (received (shown ⟨target, source, type, data, checksum⟩)).checksum = checksum :=
    ⟨congrArg EthernetFrame.checksum,
      fun h => congrArg (EthernetFrame.mk target source type data) h⟩
  rw [hchecksum]
  show (if (checksum == sumOf ⟨target, source, type, data, checksum⟩) = true then
    sumOf ⟨target, source, type, data, checksum⟩ else _) = checksum ↔ _
  rcases eq_or_ne checksum (sumOf ⟨target, source, type, data, checksum⟩) with heq | hne
  · rw [if_pos (beq_iff_eq.mpr heq)]
    exact iff_of_true heq.symm (.inl heq)
  · rw [if_neg (mt beq_iff_eq.mp hne)]
    exact ⟨fun h => .inr h.symm, fun h => (h.resolve_left hne).symm⟩

/-- A frame of the script that the server sends as it received it comes back unchanged, with the
same bit for its checksum; a frame of the server is still itself on the other side of the format
exactly if its checksum is the right one or differs from it in the lowest bit alone. -/
theorem frame_roundTrip (c : Codec F) :
    (∀ frame, decodeFrame c (clientFrameJson frame) = .ok (received frame) ∧
      readFrame (frameJson (received frame) : Json F) = some frame) ∧
    (∀ frame, decodeFrame c (frameJson frame) = .ok frame ↔
      frame.checksum = sumOf frame ∨ frame.checksum = sumOf frame ^^^ 0x1#32) := by
  refine ⟨fun frame => ⟨decodeFrame_clientFrameJson c frame, ?_⟩, fun frame => ?_⟩
  · rw [readFrame_frameJson, shown_received]
  · rw [decodeFrame_frameJson, Except.ok.injEq]
    exact received_shown_iff frame

/-! ## 3. Entries -/

/-- An entry of the script brings its frame. -/
theorem decodeEntry_entryJson (c : Codec F) (entry : Entry) :
    decodeEntry c (entryJson entry) = .ok (entry.frame.map fun packet => received packet.frame) := by
  have hvlan : SwitchServer.decodeVLAN c (entryJson entry) = .ok () := by
    refine SwitchServer.decodeVLAN_ok_iff.mpr ⟨_, rfl, _, rfl, ?_⟩
    cases entry.vlan with
    | none => exact .inl rfl
    | some vlan => exact .inr ⟨_, rfl⟩
  have hframe : SwitchServer.decodeOptFrame c (entryJson entry) =
      .ok (entry.frame.map fun packet => received packet.frame) := by
    unfold SwitchServer.decodeOptFrame entryJson
    rw [Json.index_object rfl]
    cases entry.frame with
    | none => rfl
    | some packet =>
      show (decodeFrame c (clientFrameJson packet.frame) >>= _) = _
      rw [decodeFrame_clientFrameJson]
      rfl
  show (SwitchServer.decodeVLAN c (entryJson entry) >>= fun _ => _) = _
  rw [hvlan]
  exact hframe

end SwitchWire

end MicroRiscv
