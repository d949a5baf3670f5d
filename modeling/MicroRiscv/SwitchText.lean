import MicroRiscv.JsonSerializer
import MicroRiscv.SwitchDelivery

/-!
# The texts of the requests and the responses

The system with the JSON library of the server in the place of the parameter: the requests are
the texts that `JSON.stringify` makes of the entries, and the handler parses them with the parser
of the library.

Results:
1. `text_roundTrip`: the handler decodes the frames that the script has posted, and the script
   reads the frames that the handler has sent.
2. `text_system_safe`: so the system is safe in every order of the steps, and its responses are
   texts that stand for what the server has answered.
-/

namespace MicroRiscv

namespace SwitchSystem

open SwitchServer (Server Codec EthernetFrame Response StatusCode bytesJson)
open SwitchClient (Entry Port)
open JsonText (dump parse canonical Exact)

variable {F : Type}

/-! ## 1. Requests -/

/-- The members in the order in which `sendPacket` names them. -/
def frameTree (frame : SwitchClient.Frame) : Json F :=
  .object [("target", bytesJson frame.target.toList), ("source", bytesJson frame.source.toList),
    ("etherType", .numberUnsigned (frame.etherType.setWidth 64)), ("data", bytesJson frame.data),
    ("checksumOK", .boolean frame.checksumOK)]

def entryTree (entry : Entry) : Json F :=
  .object [
    ("vlan", match entry.vlan with
      | some vlan => .numberUnsigned (BitVec.ofNat 64 vlan)
      | none => .null),
    ("frame", match entry.frame with
      | some packet => frameTree packet.frame
      | none => .null)]

def bodyTree (entries : Port → Entry) : Json F :=
  .array ((List.finRange SwitchClient.nPorts).map fun i => entryTree (entries i))

variable (F) in
/-- `JSON.stringify` on the entries, which writes such values as `dump` does. The VLANs are numbers
of ports, and there is no floating-point number. -/
def stringify (entries : Port → Entry) : String :=
  String.ofList (dump (fun _ : F => []) false (bodyTree entries))

theorem exact_bytesJson (bytes : List (BitVec 8)) : Exact (bytesJson bytes : Json F) := by
  refine .array fun e he => ?_
  obtain ⟨b, -, rfl⟩ := List.mem_map.mp he
  exact .numberUnsigned _

theorem canonical_bytesJson (bytes : List (BitVec 8)) :
    canonical (bytesJson bytes : Json F) = bytesJson bytes := by
  unfold bytesJson
  rw [canonical, JsonText.canonicalElements_eq_map, List.map_map]
  rfl

theorem exact_object {ms : List (String × Json F)}
    (h : ∀ j, j ∈ ms.map Prod.snd → Exact j) : Exact (.object ms) :=
  .object fun m hm => h m.2 (List.mem_map_of_mem hm)

theorem exact_frameTree (frame : SwitchClient.Frame) : Exact (frameTree frame : Json F) := by
  refine exact_object fun j hj => ?_
  simp only [List.map_cons, List.map_nil, List.mem_cons, List.not_mem_nil, or_false] at hj
  rcases hj with rfl | rfl | rfl | rfl | rfl
  · exact exact_bytesJson _
  · exact exact_bytesJson _
  · exact .numberUnsigned _
  · exact exact_bytesJson _
  · exact .boolean _

theorem canonical_frameTree (frame : SwitchClient.Frame) :
    canonical (frameTree frame : Json F) = SwitchWire.clientFrameJson frame := by
  unfold frameTree
  simp only [canonical, JsonText.insertMembers, canonical_bytesJson]
  rfl

theorem exact_entryTree (entry : Entry) : Exact (entryTree entry : Json F) := by
  obtain ⟨vlan, frame⟩ := entry
  refine exact_object fun j hj => ?_
  simp only [List.map_cons, List.map_nil, List.mem_cons, List.not_mem_nil, or_false] at hj
  rcases hj with rfl | rfl
  · cases vlan with
    | some vlan => exact .numberUnsigned _
    | none => exact .null
  · cases frame with
    | some packet => exact exact_frameTree _
    | none => exact .null

theorem canonical_entryTree (entry : Entry) :
    canonical (entryTree entry : Json F) = SwitchWire.entryJson entry := by
  obtain ⟨vlan, frame⟩ := entry
  unfold entryTree
  simp only [canonical, JsonText.insertMembers]
  cases vlan with
  | some vlan =>
    cases frame with
    | some packet =>
      simp only [canonical_frameTree]
      rfl
    | none => rfl
  | none =>
    cases frame with
    | some packet =>
      simp only [canonical_frameTree]
      rfl
    | none => rfl

/-- The handler gets the entries that the script has posted. -/
theorem parse_stringify (strtod : List Char → Option F) (entries : Port → Entry) :
    parse strtod (stringify F entries) = some (SwitchWire.bodyJson entries) := by
  have hexact : Exact (bodyTree entries : Json F) := by
    refine .array fun e he => ?_
    obtain ⟨i, -, rfl⟩ := List.mem_map.mp he
    exact exact_entryTree _
  unfold stringify
  rw [JsonText.parse_dump hexact]
  unfold bodyTree SwitchWire.bodyJson
  rw [canonical, JsonText.canonicalElements_eq_map, List.map_map]
  exact congrArg (fun es => some (Json.array es))
    (List.map_congr_left fun i _ => canonical_entryTree _)

/-- The members in the order of `std::map`. -/
theorem canonical_frameJson (frame : EthernetFrame) :
    canonical (SwitchServer.frameJson frame : Json F) =
      SwitchWire.clientFrameJson (SwitchWire.shown frame) := by
  unfold SwitchServer.frameJson
  simp only [canonical, JsonText.insertMembers, canonical_bytesJson]
  rfl

theorem exact_clientFrameJson (frame : SwitchClient.Frame) :
    Exact (SwitchWire.clientFrameJson frame : Json F) := by
  refine exact_object fun j hj => ?_
  simp only [List.map_cons, List.map_nil, List.mem_cons, List.not_mem_nil, or_false] at hj
  rcases hj with rfl | rfl | rfl | rfl | rfl
  · exact .boolean _
  · exact exact_bytesJson _
  · exact .numberUnsigned _
  · exact exact_bytesJson _
  · exact exact_bytesJson _

theorem canonical_clientFrameJson (frame : SwitchClient.Frame) :
    canonical (SwitchWire.clientFrameJson frame : Json F) = SwitchWire.clientFrameJson frame := by
  rw [← canonical_frameTree]
  exact JsonText.canonical_of_sorted _ (JsonText.sorted_canonical _)

/-- Frames through their texts. What the script posts for a port is the frame that the handler
decodes there, and the script reads the frame that the handler has put into its answer. -/
theorem text_roundTrip (strtod : List Char → Option F) (dumpFloat : F → List Char)
    (toUnsigned : (w : Nat) → F → BitVec w) :
    (∀ entries : Port → Entry, ∃ body, parse strtod (stringify F entries) = some body ∧
      ∀ i : Port, (body.at? i.val).map (SwitchServer.decodeEntry ⟨parse strtod, toUnsigned⟩) =
        some (.ok ((entries i).frame.map fun packet => SwitchWire.received packet.frame))) ∧
    (∀ frame : EthernetFrame,
      (parse strtod (String.ofList (dump dumpFloat false
        (canonical (SwitchServer.frameJson frame))))).bind SwitchWire.readFrame =
          some (SwitchWire.shown frame)) := by
  refine ⟨fun entries => ⟨_, parse_stringify strtod entries, fun i => ?_⟩, fun frame => ?_⟩
  · have hentry : (SwitchWire.bodyJson entries : Json F).at? i.val =
        some (SwitchWire.entryJson (entries i)) := by
      show ((List.finRange SwitchClient.nPorts).map _)[i.val]? = _
      simp
    rw [hentry, Option.map_some, SwitchWire.decodeEntry_entryJson]
  · rw [canonical_frameJson, JsonText.parse_dump (exact_clientFrameJson _),
      canonical_clientFrameJson]
    exact SwitchWire.readFrame_clientFrameJson _

/-! ## 2. Responses -/

/-- The element of an answer while the switch sends nothing, with its members in the order of
`std::map`. -/
def idleMembers : Json F := .object [("frame", .null), ("vlan", .numberUnsigned 0#64)]

/-- What the script reads in the text of such an answer. -/
theorem readAnswers_text (strtod : List Char → Option F) (dumpFloat : F → List Char) :
    ∃ body, (idleResponse : Response F).body = some body ∧
      (parse strtod (String.ofList (dump dumpFloat false (canonical body)))).bind
        SwitchWire.readAnswers = some idleAnswer := by
  refine ⟨_, rfl, ?_⟩
  have hbody : canonical (.array ((List.finRange SwitchServer.numPorts).map
      fun _ => (idleElement : Json F))) =
        .array ((List.finRange SwitchServer.numPorts).map fun _ => idleMembers) := by
    rw [canonical, JsonText.canonicalElements_eq_map, List.map_map]
    rfl
  have hexact : Exact (.array ((List.finRange SwitchServer.numPorts).map
      fun _ => (idleMembers : Json F))) := by
    refine .array fun e he => ?_
    obtain ⟨i, -, rfl⟩ := List.mem_map.mp he
    refine exact_object fun j hj => ?_
    simp only [List.map_cons, List.map_nil, List.mem_cons, List.not_mem_nil, or_false] at hj
    rcases hj with rfl | rfl
    · exact .null
    · exact .numberUnsigned _
  rw [hbody, JsonText.parse_dump hexact, ← hbody,
    JsonText.canonical_of_sorted _ (JsonText.sorted_canonical _), hbody]
  exact readAnswers_const rfl

/-! ## 3. The system -/

/-- The JSON library of the server. -/
def textWire (strtod : List Char → Option F) (toUnsigned : (w : Nat) → F → BitVec w) : Wire F where
  codec := ⟨parse strtod, toUnsigned⟩
  stringify := stringify F

section System

variable {strtod : List Char → Option F} {toUnsigned : (w : Nat) → F → BitVec w}
  {events : Nat → Event} {n : Nat} {s : System F}

theorem textWire_parses (s : System F) : (textWire strtod toUnsigned).Parses s :=
  fun _ _ _ entries _ _ => parse_stringify strtod entries

/-- The system on its texts: it is safe whatever the tabs do and in whatever order the server
serves them, and every answer is a text in which the script reads what the server has answered. -/
theorem text_system_safe (dumpFloat : F → List Char)
    (hrun : run (textWire strtod toUnsigned) events n = some s) :
    Safe (textWire strtod toUnsigned) s ∧
    ∀ k tab switchId r, s.tabs k = some tab → tab.phase = .answered switchId r →
      r.status = .successOk → ∃ body, r.body = some body ∧
        (parse strtod (String.ofList (dump dumpFloat false (canonical body)))).bind
          SwitchWire.readAnswers = SwitchWire.readAnswers body := by
  have h := inv_run (fun _ s _ => textWire_parses s) hrun
  refine ⟨h.safe, fun k tab switchId r hk hphase hok => ?_⟩
  obtain ⟨body, hbody, htext⟩ := readAnswers_text strtod dumpFloat
  have hidle := readAnswers_idle (F := F)
  rw [hbody] at hidle
  have hinv := (h.tab k tab hk).phase
  cases hinv with
  | answered _ _ _ _ =>
    cases hphase
    exact ⟨body, hbody, htext.trans hidle.symm⟩
  | superseded _ _ _ =>
    cases hphase
    cases hok
  | _ => cases hphase

/-- The tick of tab 1 has been answered, behind eight ticks of tab 0 with a frame among them. -/
theorem text_system_safe_twoTabs :
    let strtod : List Char → Option Empty := fun _ => none
    let wire := textWire strtod fun _ x => nomatch x
    ∃ s tab switchId r body, run wire twoTabs 36 = some s ∧ Safe wire s ∧ s.tabs 1 = some tab ∧
      tab.phase = .answered switchId r ∧ r.body = some body ∧
      (parse strtod (String.ofList (dump (fun x => nomatch x) false (canonical body)))).bind
        SwitchWire.readAnswers = SwitchWire.readAnswers body := by
  intro strtod wire
  obtain ⟨s, tab, switchId, r, hs, htab, hphase, hok⟩ := twoTabs_answered
  -- the texts of the library in the place of those of the sample
  have hrun : run wire twoTabs 36 = some s :=
    (run_eq_of_parses twoTabs_parses (fun _ s _ => textWire_parses s) 36).trans hs
  obtain ⟨hsafe, htexts⟩ := text_system_safe (fun x : Empty => nomatch x) hrun
  obtain ⟨body, hbody, htext⟩ := htexts 1 tab switchId r htab hphase hok
  exact ⟨s, tab, switchId, r, body, hrun, hsafe, htab, hphase, hbody, htext⟩

end System

end SwitchSystem

end MicroRiscv
