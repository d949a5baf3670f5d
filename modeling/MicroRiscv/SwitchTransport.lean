import MicroRiscv.Lib.DelayLine
import MicroRiscv.SwitchClient
import Mathlib.Data.List.Perm.Basic

/-!
# Transport of frames by the client

What the client does with the frames of one host is a `Link`: a queue in front of a wire,
and the wire is a delay line of seven ticks. `link_step` reads every task of the script as
a step of each of the eight links, and `Link.Accounted` is kept by these steps.

1. `transports_run`: no frame is lost or duplicated, and a frame that has left its queue is
   submitted exactly once, seven ticks later, at its own port. This holds in every run.
2. `transport_iff`: the frames leave in the order in which they were sent exactly when no
   host sends two frames between two ticks. `pop` takes the newest frame of the queue.
-/

namespace MicroRiscv

namespace SwitchClient

/-! ## Links -/

/-- What has happened at one port: the frames sent, those in the queue, those on the wire
with their steps, and for each tick the frame that left the queue and the one submitted. -/
structure Link where
  sent : List Packet
  queue : List Packet
  wire : List (Packet × Nat)
  left : List (Option Packet)
  submitted : List (Option Packet)

namespace Link

def start : Link := ⟨[], [], [], [], []⟩

def send (packet : Packet) (l : Link) : Link :=
  { l with sent := l.sent ++ [packet], queue := l.queue ++ [packet] }

def tick (l : Link) : Link where
  sent := l.sent
  queue := l.queue.dropLast
  wire := (DelayLine.advance 7 l.wire).2 ++ (l.queue.getLast?.map (·, 1)).toList
  left := l.left ++ [l.queue.getLast?]
  submitted := l.submitted ++ [(DelayLine.advance 7 l.wire).1]

/-- Every frame sent is in the queue or has left it, and the wire delays what has left. -/
structure Accounted (l : Link) : Prop where
  conserved : l.sent.Perm (l.left.reduceOption ++ l.queue)
  wire : l.wire = DelayLine.line 7 1 l.left.reverse
  submitted : l.submitted = DelayLine.delayed 7 l.left

theorem accounted_start : start.Accounted :=
  ⟨.nil, rfl, rfl⟩

theorem Accounted.send {l : Link} (h : l.Accounted) (packet : Packet) :
    (l.send packet).Accounted where
  conserved := by
    have hmore := h.conserved.append_right [packet]
    rwa [List.append_assoc] at hmore
  wire := h.wire
  submitted := h.submitted

theorem perm_pop (queue : List Packet) :
    queue.Perm (queue.getLast?.toList ++ queue.dropLast) := by
  cases List.eq_nil_or_concat' queue with
  | inl hnil =>
    subst hnil
    exact .nil
  | inr hlast =>
    obtain ⟨older, packet, rfl⟩ := hlast
    rw [List.getLast?_concat, List.dropLast_concat]
    exact List.perm_append_singleton packet older

theorem Accounted.tick {l : Link} (h : l.Accounted) : l.tick.Accounted := by
  have hadvance := DelayLine.advance_line (by decide : 1 ≤ 7) l.left.reverse
  rw [← h.wire] at hadvance
  exact {
    conserved := by
      show l.sent.Perm ((l.left ++ [l.queue.getLast?]).reduceOption ++ l.queue.dropLast)
      rw [List.reduceOption_append, List.reduceOption_singleton, List.append_assoc]
      exact h.conserved.trans ((perm_pop l.queue).append_left _)
    wire := by
      show (DelayLine.advance 7 l.wire).2 ++ (l.queue.getLast?.map (·, 1)).toList = _
      rw [hadvance, Link.tick, List.reverse_concat, DelayLine.line_cons (by decide)]
    submitted := by
      show l.submitted ++ [(DelayLine.advance 7 l.wire).1] = _
      rw [hadvance, h.submitted]
      exact (DelayLine.delayed_concat (by decide) l.left _).symm }

end Link

/-! ## The client as eight links -/

/-- A frame on its way to the switch. -/
def Visual.item {φ : Type} (visual : Visual φ) : φ × Nat :=
  (visual.frameData, visual.frameStep)

namespace Traced

def link (t : Traced) (i : Port) : Link where
  sent := t.sent i
  queue := (t.host i).sendQueue
  wire := (t.host i).outgoing.map Visual.item
  left := t.left i
  submitted := t.posted.map fun entries => (entries i).frame

end Traced

theorem stepOutgoing_item (visuals : List (Visual Packet)) :
    ((stepOutgoing visuals).1, (stepOutgoing visuals).2.map Visual.item) =
      DelayLine.advance 7 (visuals.map Visual.item) := by
  induction visuals with
  | nil => rfl
  | cons visual visuals ih =>
    obtain ⟨packet, k, label⟩ := visual
    rw [List.map_cons, Visual.item, DelayLine.advance, ← ih, stepOutgoing]
    dsimp only
    split
    · rfl
    · rfl

theorem forPorts_eq_some {α : Type} {f : Port → Host → Option (α × Host)} {c c' : Client}
    {r : Port → α} (h : forPorts f c = some (r, c')) :
    (∀ i, f i (c.host i) = some (r i, c'.host i)) ∧
      c'.globalFrameCounter = c.globalFrameCounter := by
  unfold forPorts at h
  split at h
  · next hall =>
    cases h
    exact ⟨fun i => (Option.some_get (hall i)).symm, rfl⟩
  · cases h

theorem popSendQueue_eq_some {address : Port → MACAddress} {host host' : Host}
    (h : popSendQueue address host = some host') :
    host'.sendQueue = host.sendQueue.dropLast ∧ host'.outgoing.map Visual.item =
      host.outgoing.map Visual.item ++ (host.sendQueue.getLast?.map (·, 1)).toList := by
  unfold popSendQueue at h
  split at h
  · next hnone =>
    cases h
    rw [hnone, List.getLast?_eq_none_iff.mp hnone]
    exact ⟨rfl, (List.append_nil _).symm⟩
  · next packet hsome =>
    unfold enqueueOutgoing makeVisual at h
    split at h
    · cases h
      rw [hsome, List.map_append]
      exact ⟨rfl, rfl⟩
    · cases h

theorem tickHost_eq_some {address : Port → MACAddress} {i : Port} {host host' : Host}
    {entry : Entry} (h : tickHost address i host = some (entry, host')) :
    entry.frame = (DelayLine.advance 7 (host.outgoing.map Visual.item)).1 ∧
      host'.sendQueue = host.sendQueue.dropLast ∧ host'.outgoing.map Visual.item =
        (DelayLine.advance 7 (host.outgoing.map Visual.item)).2 ++
          (host.sendQueue.getLast?.map (·, 1)).toList := by
  unfold tickHost at h
  obtain ⟨incoming, -, h⟩ := Option.bind_eq_some_iff.mp h
  obtain ⟨popped, hpop, h⟩ := Option.bind_eq_some_iff.mp h
  cases h
  obtain ⟨hqueue, hwire⟩ := popSendQueue_eq_some hpop
  rw [← stepOutgoing_item]
  exact ⟨rfl, hqueue, hwire⟩

theorem answerHost_eq_some {address : Port → MACAddress} {answer : Answer} {host host' : Host}
    (h : answerHost address answer host = some host') :
    host'.sendQueue = host.sendQueue ∧ host'.outgoing = host.outgoing := by
  unfold answerHost at h
  dsimp only at h
  split at h
  · cases h
    exact ⟨rfl, rfl⟩
  · unfold enqueueIncoming makeVisual at h
    split at h
    · cases h
      exact ⟨rfl, rfl⟩
    · cases h

namespace Traced

theorem step_postTick {t t' : Traced} (h : t.step .postTick = some t') : ∃ entries,
    (∀ i, tickHost t.address i (t.host i) = some (entries i, t'.host i)) ∧
      t'.globalFrameCounter = t.globalFrameCounter ∧ t'.sent = t.sent ∧
      t'.left = (fun i => t.left i ++ [(t.host i).sendQueue.getLast?]) ∧
      t'.posted = t.posted ++ [entries] := by
  obtain ⟨⟨entries, c⟩, hpost, h⟩ := Option.bind_eq_some_iff.mp h
  cases h
  unfold postTick at hpost
  split at hpost
  · cases hpost
  · obtain ⟨_, hports, hpost⟩ := Option.bind_eq_some_iff.mp hpost
    cases hpost
    obtain ⟨hhost, hcounter⟩ := forPorts_eq_some hports
    exact ⟨_, hhost, hcounter, rfl, rfl, rfl⟩

theorem step_receiveAnswer {t t' : Traced} {answer : Port → Answer}
    (h : t.step (.receiveAnswer answer) = some t') :
    (∀ i, answerHost t.address (answer i) (t.host i) = some (t'.host i)) ∧
      t'.globalFrameCounter = t.globalFrameCounter ∧ t'.sent = t.sent ∧ t'.left = t.left ∧
      t'.posted = t.posted := by
  obtain ⟨c, hreceive, h⟩ := Option.bind_eq_some_iff.mp h
  cases h
  unfold receiveAnswer at hreceive
  split at hreceive
  · obtain ⟨_, hports, hreceive⟩ := Option.bind_eq_some_iff.mp hreceive
    cases hreceive
    obtain ⟨hhost, hcounter⟩ := forPorts_eq_some hports
    refine ⟨fun i => ?_, hcounter, rfl, rfl, rfl⟩
    obtain ⟨host, hanswer, heq⟩ := Option.map_eq_some_iff.mp (hhost i)
    cases heq
    exact hanswer
  · cases hreceive

/-- What a task does to the link of port `i`. -/
def onLink (t : Traced) (i : Port) : Event → Link → Link
  | .sendPacket src dest checksumOK, l =>
    if src = i then l.send (newPacket src dest checksumOK t.toClient) else l
  | .postTick, l => l.tick
  | _, l => l

theorem link_step {t t' : Traced} {event : Event} (h : t.step event = some t') (i : Port) :
    t'.link i = t.onLink i event (t.link i) := by
  cases event with
  | sendPacket src dest checksumOK =>
    cases h
    simp only [link, onLink, sendPacket, setHost]
    rcases eq_or_ne i src with rfl | hne
    · simp only [Function.update_self, if_pos, Link.send]
    · simp only [Function.update_of_ne hne, if_neg hne.symm]
  | selectVLAN j vlan =>
    cases h
    simp only [link, onLink, selectVLAN, setHost]
    rcases eq_or_ne i j with rfl | hne
    · rw [Function.update_self]
    · rw [Function.update_of_ne hne]
  | postTick =>
    obtain ⟨entries, hhost, -, hsent, hleft, hposted⟩ := step_postTick h
    obtain ⟨hframe, hqueue, hwire⟩ := tickHost_eq_some (hhost i)
    simp only [link, onLink, Link.tick, List.map_append, List.map_cons, List.map_nil, hsent, hleft,
      hposted, hframe, hqueue, hwire]
  | receiveAnswer answer =>
    obtain ⟨hhost, -, hsent, hleft, hposted⟩ := step_receiveAnswer h
    obtain ⟨hqueue, hwire⟩ := answerHost_eq_some (hhost i)
    simp only [link, onLink, hsent, hleft, hposted, hqueue, hwire]

theorem accounted_link_step {t t' : Traced} {event : Event} (h : t.step event = some t') {i : Port}
    (hacc : (t.link i).Accounted) : (t'.link i).Accounted := by
  rw [link_step h]
  cases event with
  | sendPacket src dest checksumOK =>
    rw [onLink]
    split
    · exact hacc.send _
    · exact hacc
  | selectVLAN j vlan => exact hacc
  | postTick => exact hacc.tick
  | receiveAnswer answer => exact hacc

/-! ## Frames that differ

The counter tells all frames apart. -/

structure Distinct (t : Traced) : Prop where
  fresh : ∀ i, ∀ packet ∈ t.sent i, packet.serial < t.globalFrameCounter
  nodup : ∀ i, (t.sent i).Nodup
  apart : ∀ i j, ∀ packet ∈ t.sent i, packet ∈ t.sent j → i = j

theorem distinct_start (address : Port → MACAddress) (counter : Nat) :
    (start address counter).Distinct where
  fresh _ _ h := absurd h List.not_mem_nil
  nodup _ := List.nodup_nil
  apart _ _ _ h := absurd h List.not_mem_nil

/-- A task that sends nothing. -/
theorem Distinct.of_sent_eq {t t' : Traced} (h : t.Distinct) (hsent : t'.sent = t.sent)
    (hcounter : t'.globalFrameCounter = t.globalFrameCounter) : t'.Distinct where
  fresh := by
    rw [hsent, hcounter]
    exact h.fresh
  nodup := by
    rw [hsent]
    exact h.nodup
  apart := by
    rw [hsent]
    exact h.apart

theorem Distinct.newPacket_notMem {t : Traced} (h : t.Distinct) (i src : Port)
    (dest : Fin (nPorts + 1)) (checksumOK : Bool) :
    newPacket src dest checksumOK t.toClient ∉ t.sent i :=
  fun hmem => Nat.lt_irrefl _ (h.fresh i _ hmem)

theorem Distinct.send {t t' : Traced} (h : t.Distinct) {src : Port} {dest : Fin (nPorts + 1)}
    {checksumOK : Bool} (hstep : t.step (.sendPacket src dest checksumOK) = some t') :
    t'.Distinct := by
  have hnew := fun i => h.newPacket_notMem i src dest checksumOK
  have hmem {i : Port} {packet : Packet} : packet ∈ t'.sent i →
      packet ∈ t.sent i ∨ i = src ∧ packet = newPacket src dest checksumOK t.toClient := by
    cases hstep
    dsimp only
    rcases eq_or_ne i src with rfl | hne
    · rw [Function.update_self, List.mem_append, List.mem_singleton]
      exact Or.imp_right fun heq => ⟨rfl, heq⟩
    · rw [Function.update_of_ne hne]
      exact .inl
  exact {
    fresh := fun i packet hp => by
      cases hstep
      cases hmem hp with
      | inl hold => exact Nat.lt_succ_of_lt (h.fresh i packet hold)
      | inr hlast =>
        obtain ⟨-, rfl⟩ := hlast
        exact Nat.lt_succ_self _
    nodup := fun i => by
      cases hstep
      dsimp only
      rcases eq_or_ne i src with rfl | hne
      · rw [Function.update_self]
        exact List.nodup_append.mpr ⟨h.nodup i, List.nodup_singleton _, fun p hp q hq heq =>
          hnew i (List.mem_singleton.mp hq ▸ heq ▸ hp)⟩
      · rw [Function.update_of_ne hne]
        exact h.nodup i
    apart := fun i j packet hi hj => by
      cases hmem hi with
      | inl hi =>
        cases hmem hj with
        | inl hj => exact h.apart i j packet hi hj
        | inr hj => exact absurd (hj.2 ▸ hi) (hnew i)
      | inr hi =>
        cases hmem hj with
        | inl hj => exact absurd (hi.2 ▸ hj) (hnew j)
        | inr hj => exact hi.1.trans hj.1.symm }

theorem distinct_step {t t' : Traced} {event : Event} (h : t.step event = some t')
    (hdist : t.Distinct) : t'.Distinct := by
  cases event with
  | sendPacket src dest checksumOK => exact hdist.send h
  | selectVLAN i vlan =>
    cases h
    exact hdist.of_sent_eq rfl rfl
  | postTick =>
    obtain ⟨_, _, hcounter, hsent, _⟩ := step_postTick h
    exact hdist.of_sent_eq hsent hcounter
  | receiveAnswer answer =>
    obtain ⟨_, hcounter, hsent, _⟩ := step_receiveAnswer h
    exact hdist.of_sent_eq hsent hcounter

/-! ## Transport -/

/-- What is promised of the frames in every state of a run, but for their order. -/
structure Transports (t : Traced) : Prop where
  conserved : ∀ i, (t.sent i).Perm ((t.host i).sendQueue ++
    ((t.host i).outgoing.map Visual.frameData ++ t.posted.filterMap fun entries =>
      (entries i).frame))
  distinctSteps : ∀ i, ((t.host i).outgoing.map Visual.frameStep).Nodup
  oneToSubmit : ∀ i, (t.host i).outgoing.countP (fun visual => visual.frameStep == 7) ≤ 1
  submittedOnce : ∀ i n packet, (t.left i)[n]? = some (some packet) →
    ∀ m entries, t.posted[m]? = some entries →
      ∀ j, (entries j).frame = some packet ↔ j = i ∧ m = n + 7

/-- The frames that have left the queue are the first that were sent, in this order. -/
def InOrder (t : Traced) : Prop :=
  ∀ i, (t.left i).reduceOption <+: t.sent i

theorem Distinct.left_nodup {t : Traced} (h : t.Distinct) {i : Port}
    (hacc : (t.link i).Accounted) : ((t.left i).reduceOption ++ (t.host i).sendQueue).Nodup :=
  hacc.conserved.nodup_iff.mp (h.nodup i)

theorem sent_of_left {t : Traced} {i : Port} (hacc : (t.link i).Accounted) {n : Nat}
    {packet : Packet} (h : (t.left i)[n]? = some (some packet)) : packet ∈ t.sent i :=
  hacc.conserved.mem_iff.mpr (List.mem_append_left _
    (List.reduceOption_mem_iff.mpr (List.mem_of_getElem? h)))

/-- No frame leaves its queue twice. -/
theorem left_injective {left : List (Option Packet)} (h : left.reduceOption.Nodup) {m n : Nat}
    {packet : Packet} (hm : left[m]? = some (some packet))
    (hn : left[n]? = some (some packet)) : m = n := by
  obtain ⟨hmlt, hm⟩ := List.getElem?_eq_some_iff.mp hm
  obtain ⟨hnlt, hn⟩ := List.getElem?_eq_some_iff.mp hn
  have hpair := List.pairwise_iff_getElem.mp (List.pairwise_filterMap.mp h)
  rcases Nat.lt_trichotomy m n with hlt | heq | hgt
  · exact absurd rfl (hpair m n hmlt hnlt hlt packet hm packet hn)
  · exact heq
  · exact absurd rfl (hpair n m hnlt hmlt hgt packet hn packet hm)

theorem outgoing_item {t : Traced} {i : Port} (hacc : (t.link i).Accounted) :
    (t.host i).outgoing.map Visual.item = DelayLine.line 7 1 (t.left i).reverse :=
  hacc.wire

theorem posted_frame {t : Traced} {i : Port} (hacc : (t.link i).Accounted) :
    (t.posted.map fun entries => (entries i).frame) = DelayLine.delayed 7 (t.left i) :=
  hacc.submitted

theorem frameStep_nodup {t : Traced} {i : Port} (hacc : (t.link i).Accounted) :
    ((t.host i).outgoing.map Visual.frameStep).Nodup := by
  have hnodup := DelayLine.nodup_steps_line 7 1 (t.left i).reverse
  rwa [← outgoing_item hacc, List.map_map] at hnodup

theorem submitted_getElem? {t : Traced} {j : Port} (hacc : (t.link j).Accounted) {m : Nat}
    {entries : Port → Entry} (h : t.posted[m]? = some entries) {packet : Packet} :
    (entries j).frame = some packet ↔ 7 ≤ m ∧ (t.left j)[m - 7]? = some (some packet) := by
  have hframe : (DelayLine.delayed 7 (t.left j))[m]? = some (entries j).frame := by
    rw [← posted_frame hacc, List.getElem?_map, h]
    rfl
  have hlt : m < (t.left j).length := by
    rw [← DelayLine.length_delayed 7]
    exact (List.getElem?_eq_some_iff.mp hframe).1
  rw [← Option.some_inj, ← hframe, DelayLine.delayed_eq_some, and_iff_right hlt]

theorem transports_of_accounted {t : Traced} (hacc : ∀ i, (t.link i).Accounted)
    (hdist : t.Distinct) : t.Transports where
  conserved i := by
    have hleft : (t.posted.filterMap fun entries => (entries i).frame) ++
        (t.host i).outgoing.map Visual.frameData = (t.left i).reduceOption := by
      rw [← DelayLine.reduceOption_delayed_append_line 7, ← outgoing_item (hacc i),
        ← posted_frame (hacc i), List.map_map, List.reduceOption, List.filterMap_map]
      rfl
    refine (hacc i).conserved.trans ?_
    show ((t.left i).reduceOption ++ (t.host i).sendQueue).Perm _
    rw [← hleft]
    exact List.perm_append_comm.trans (List.perm_append_comm.append_left _)
  distinctSteps i := frameStep_nodup (hacc i)
  oneToSubmit i := by
    have hcount := List.nodup_iff_count_le_one.mp (frameStep_nodup (hacc i)) 7
    rwa [List.count_eq_countP, List.countP_map] at hcount
  submittedOnce i n packet hleft m entries hentries j := by
    rw [submitted_getElem? (hacc j) hentries]
    constructor
    · rintro ⟨hle, hj⟩
      have heq := hdist.apart j i packet (sent_of_left (hacc j) hj) (sent_of_left (hacc i) hleft)
      subst heq
      have hn := left_injective (hdist.left_nodup (hacc j)).of_append_left hj hleft
      exact ⟨rfl, by omega⟩
    · rintro ⟨rfl, rfl⟩
      exact ⟨Nat.le_add_left 7 n, hleft⟩

theorem accounted_run {address : Port → MACAddress} {counter : Nat} {events : Nat → Event}
    {n : Nat} {t : Traced} (h : run address counter events n = some t) :
    (∀ i, (t.link i).Accounted) ∧ t.Distinct := by
  induction n generalizing t with
  | zero =>
    cases h
    exact ⟨fun _ => Link.accounted_start, distinct_start address counter⟩
  | succ n ih =>
    obtain ⟨s, hs, hstep⟩ := Option.bind_eq_some_iff.mp h
    obtain ⟨hacc, hdist⟩ := ih hs
    exact ⟨fun i => accounted_link_step hstep (hacc i), distinct_step hstep hdist⟩

/-- In every run no frame is lost or duplicated. -/
theorem transports_run {address : Port → MACAddress} {counter : Nat} {events : Nat → Event}
    {n : Nat} {t : Traced} (h : run address counter events n = some t) : t.Transports :=
  transports_of_accounted (accounted_run h).1 (accounted_run h).2

end Traced

/-! ## Order -/

namespace Link

/-- The queue goes on from where the frames that have left it end, and `waiting` frames are
in it. -/
structure Steady (l : Link) (waiting : Nat) : Prop where
  inOrder : l.sent = l.left.reduceOption ++ l.queue
  waiting : l.queue.length = waiting

theorem Steady.send {l : Link} {waiting : Nat} (h : l.Steady waiting) (packet : Packet) :
    (l.send packet).Steady (waiting + 1) where
  inOrder := by
    show l.sent ++ [packet] = l.left.reduceOption ++ (l.queue ++ [packet])
    rw [h.inOrder, List.append_assoc]
  waiting := by
    show (l.queue ++ [packet]).length = waiting + 1
    rw [List.length_append, h.waiting, List.length_singleton]

/-- The newest frame of a queue is also its oldest one only in a queue of one frame. -/
theorem pop_isPrefix_iff {queue : List Packet} (h : queue.Nodup) :
    queue.getLast?.toList <+: queue ↔ queue.length ≤ 1 := by
  cases queue with
  | nil => simp
  | cons oldest rest =>
    cases rest with
    | nil => simp
    | cons next rest =>
      obtain ⟨newest, hnewest⟩ := Option.isSome_iff_exists.mp
        (List.getLast?_isSome.mpr (List.cons_ne_nil next rest))
      have hne : newest ≠ oldest := fun heq =>
        (List.nodup_cons.mp h).1 (heq ▸ List.mem_of_getLast? hnewest)
      rw [List.getLast?_cons_cons, hnewest]
      simp [hne]

theorem reduceOption_tick_left (l : Link) :
    l.tick.left.reduceOption = l.left.reduceOption ++ l.queue.getLast?.toList := by
  rw [Link.tick, List.reduceOption_append, List.reduceOption_singleton]

theorem Steady.tick_isPrefix_iff {l : Link} {waiting : Nat} (h : l.Steady waiting)
    (hnodup : l.queue.Nodup) : l.tick.left.reduceOption <+: l.tick.sent ↔ waiting ≤ 1 := by
  show _ <+: l.sent ↔ _
  rw [reduceOption_tick_left, h.inOrder, List.prefix_append_right_inj, pop_isPrefix_iff hnodup,
    h.waiting]

theorem Steady.tick {l : Link} {waiting : Nat} (h : l.Steady waiting) (hle : waiting ≤ 1) :
    l.tick.Steady 0 := by
  have hdrop : l.queue.dropLast = [] := by
    apply List.length_eq_zero_iff.mp
    rw [List.length_dropLast, h.waiting]
    exact Nat.sub_eq_zero_of_le hle
  have hlast : l.queue.getLast?.toList = l.queue := by
    cases hqueue : l.queue with
    | nil => rfl
    | cons packet rest =>
      rw [hqueue] at hdrop
      cases rest with
      | nil => rfl
      | cons next rest => cases hdrop
  exact {
    inOrder := by
      show l.sent = l.tick.left.reduceOption ++ l.queue.dropLast
      rw [reduceOption_tick_left, hdrop, hlast, List.append_nil, h.inOrder]
    waiting := List.length_eq_zero_iff.mpr hdrop }

end Link

namespace Traced

/-- The frames that host `src` has sent since the last tick, before the `n`-th task. -/
def burst (events : Nat → Event) (src : Port) : Nat → Nat
  | 0 => 0
  | n + 1 =>
    match events n with
    | .sendPacket s _ _ => if s = src then burst events src n + 1 else burst events src n
    | .postTick => 0
    | _ => burst events src n

theorem steady_step {events : Nat → Event} {n : Nat} {t t' : Traced}
    (h : t.step (events n) = some t') {i : Port} (hs : (t.link i).Steady (burst events i n))
    (hle : events n = .postTick → burst events i n ≤ 1) :
    (t'.link i).Steady (burst events i (n + 1)) := by
  rw [link_step h, burst]
  cases hevent : events n with
  | sendPacket src dest checksumOK =>
    simp only [onLink]
    split
    · exact hs.send _
    · exact hs
  | selectVLAN j vlan => exact hs
  | postTick => exact hs.tick (hle hevent)
  | receiveAnswer answer => exact hs

/-- A run whose ticks find at most one new frame at each host, if its states so far are
steady. -/
theorem steady_run {address : Port → MACAddress} {counter : Nat} {events : Nat → Event}
    (hbound : ∀ n t t', run address counter events n = some t → t.step (events n) = some t' →
      (∀ i, (t.link i).Steady (burst events i n)) → events n = .postTick →
        ∀ i, burst events i n ≤ 1)
    {n : Nat} {t : Traced} (h : run address counter events n = some t) (i : Port) :
    (t.link i).Steady (burst events i n) := by
  induction n generalizing t i with
  | zero =>
    cases h
    exact ⟨rfl, rfl⟩
  | succ n ih =>
    obtain ⟨s, hs, hstep⟩ := Option.bind_eq_some_iff.mp h
    exact steady_step hstep (ih hs i) fun htick => hbound n s t hs hstep (ih hs) htick i

theorem inOrder_of_steady {t : Traced} {waiting : Port → Nat}
    (h : ∀ i, (t.link i).Steady (waiting i)) : t.InOrder := fun i => by
  rw [show t.sent i = _ from (h i).inOrder]
  exact List.prefix_append _ _

theorem burst_le_of_inOrder {t t' : Traced} (hstep : t.step .postTick = some t')
    (hdist : t.Distinct) {i : Port} (hacc : (t.link i).Accounted) {waiting : Nat}
    (hs : (t.link i).Steady waiting) (hord : t'.InOrder) : waiting ≤ 1 := by
  have hprefix : (t'.link i).left.reduceOption <+: (t'.link i).sent := hord i
  rw [link_step hstep] at hprefix
  exact (hs.tick_isPrefix_iff (hdist.left_nodup hacc).of_append_right).mp hprefix

/-- The client transports the frames without loss, duplication and reordering exactly when
no tick finds two new frames of one host. -/
theorem transport_iff (address : Port → MACAddress) (counter : Nat) (events : Nat → Event) :
    (∀ n t, run address counter events n = some t → t.Transports ∧ t.InOrder) ↔
      ∀ n, events n = .postTick → (run address counter events (n + 1)).isSome →
        ∀ src, burst events src n ≤ 1 := by
  have hrun {n : Nat} {t t' : Traced} (ht : run address counter events n = some t)
      (hstep : t.step (events n) = some t') : run address counter events (n + 1) = some t' :=
    Option.bind_eq_some_iff.mpr ⟨t, ht, hstep⟩
  constructor
  · intro h n htick hsome src
    have hbound (n : Nat) (t t' : Traced) (ht : run address counter events n = some t)
        (hstep : t.step (events n) = some t') (hs : ∀ i, (t.link i).Steady (burst events i n))
        (htick : events n = .postTick) (i : Port) : burst events i n ≤ 1 := by
      obtain ⟨hacc, hdist⟩ := accounted_run ht
      exact burst_le_of_inOrder (htick ▸ hstep) hdist (hacc i) (hs i) (h _ t' (hrun ht hstep)).2
    obtain ⟨t', ht'⟩ := Option.isSome_iff_exists.mp hsome
    obtain ⟨t, ht, hstep⟩ := Option.bind_eq_some_iff.mp ht'
    exact hbound n t t' ht hstep (steady_run hbound ht) htick src
  · intro h n t ht
    refine ⟨transports_run ht, inOrder_of_steady (steady_run ?_ ht)⟩
    intro n t t' ht hstep _ htick
    exact h n htick (Option.isSome_iff_exists.mpr ⟨t', hrun ht hstep⟩)

/-! Host 0 sends to host 1, then to host 2; two ticks follow. -/

def ownAddress (i : Port) : MACAddress := Vector.replicate 6 (BitVec.ofNat 8 i.val)

def twoSends : Nat → Event
  | 0 => .sendPacket 0 1 true
  | 1 => .sendPacket 0 2 true
  | 2 => .postTick
  | 3 => .receiveAnswer fun _ => ⟨1, none⟩
  | _ => .postTick

theorem twoSends_run :
    (run ownAddress 0 twoSends 5).map (fun t => ((t.sent 0).map Packet.serial,
      (t.left 0).reduceOption.map Packet.serial)) = some ([0, 1], [1, 0]) := by
  decide +kernel

/-- The second frame leaves the queue in front of the first. -/
theorem twoSends_reordered : ¬ ∀ (address : Port → MACAddress) (counter : Nat)
    (events : Nat → Event) (n : Nat) (t : Traced),
      run address counter events n = some t → t.Transports ∧ t.InOrder := by
  intro hall
  obtain ⟨t, ht, hserials⟩ := Option.map_eq_some_iff.mp twoSends_run
  obtain ⟨hsent, hleft⟩ := Prod.mk.inj hserials
  have hprefix := ((hall ownAddress 0 twoSends 5 t ht).2 0).map Packet.serial
  rw [hsent, hleft] at hprefix
  revert hprefix
  decide

end Traced

end SwitchClient

end MicroRiscv
