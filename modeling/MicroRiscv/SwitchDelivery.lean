import Mathlib.Data.List.GetD
import MicroRiscv.SwitchSessions

/-!
# From a host to the switch

1. `system_components`: a run of the system is a run of the server on the requests it serves and a
   run of each script on the tasks of its tab, whatever the JSON library does.
2. `frames_processed`: what the switch finds at a port in a tick of a tab is the frame that left
   the queue of the host there seven ticks before, and a frame that has been sent is in its queue,
   on its wire, in a tick that has not succeeded, or has been found by the switch.
3. `vlan_posted`: a VLAN choice other than 0 is posted again in every tick, because the switch
   shows 0 whatever it was told.
-/

namespace MicroRiscv

namespace SwitchSystem

open SwitchServer (Server Response EthernetFrame Request Served)
open SwitchClient (Entry Port MACAddress)

variable {F : Type} {wire : Wire F} {events : Nat → Event} {n k : Nat} {s : System F} {tab : Tab F}

/-! ## 1. Components -/

/-- The request of a tab that waits for the server. -/
def Tab.request (wire : Wire F) (tab : Tab F) : Option Request :=
  match tab.phase with
  | .helo => some .helo
  | .ticking switchId entries => some (.tick (some switchId) (wire.stringify entries))
  | _ => none

/-- The request that the server serves in a step. -/
def System.request (wire : Wire F) (s : System F) : Event → Option Request
  | .serve k => s.server.bind fun _ => (s.tabs k).bind fun tab => tab.request wire
  | _ => none

/-- What the server makes of it. -/
def System.result (wire : Wire F) (s : System F) (event : Event) : Option (Served F) := do
  let server ← s.server
  let request ← s.request wire event
  return SwitchServer.serve wire.codec s.served request server

/-- The task of the script in a step. One that throws does nothing here. -/
def Tab.task (tab : Tab F) (event : Event) : Option SwitchClient.Event :=
  let task : Option SwitchClient.Event := match event, tab.phase with
    | .send _ src dest checksumOK, _ => some (.sendPacket src dest checksumOK)
    | .select _ i vlan, _ => some (.selectVLAN i vlan)
    | .post _, .idle _ => some .postTick
    | .receive _, .answered _ r =>
      if r.status = .successOk then (r.body.bind SwitchWire.readAnswers).map .receiveAnswer
      else none
    | _, _ => none
  task.filter fun task => (tab.script.step task).isSome

def Phase.response? : Phase F → Option (Response F)
  | .greeted r | .answered _ r => some r
  | .helo | .idle _ | .ticking _ _ | .stopped _ => none

/-- A tick on its way to the server has the body that the script has posted last. -/
def Tab.Posted (tab : Tab F) : Prop :=
  ∀ entries, tab.phase.body? = some entries → tab.script.posted.getLast? = some entries

theorem Tab.posted_of_none (h : tab.phase.body? = none) : tab.Posted := by
  intro entries hbody
  cases h.symm.trans hbody

/-- The requests that the server serves before the `n`-th step. -/
def requests (wire : Wire F) (events : Nat → Event) : Nat → List Request
  | 0 => []
  | n + 1 => requests wire events n ++
    ((run wire events n).bind fun s => s.request wire (events n)).toList

/-- The tasks that the script of tab `k` runs before the `n`-th step. -/
def tasks (wire : Wire F) (events : Nat → Event) (k : Nat) : Nat → List SwitchClient.Event
  | 0 => []
  | n + 1 => tasks wire events k n ++
    ((run wire events n).bind fun s => (s.tabs k).bind fun tab =>
      if (events n).tab = k then tab.task (events n) else none).toList

/-- The response to the last request of tab `k` that was served before the `n`-th step. -/
def lastResponse (wire : Wire F) (events : Nat → Event) (k : Nat) : Nat → Option (Response F)
  | 0 => none
  | n + 1 =>
    match (run wire events n).bind fun s => s.result wire (events n) with
    | some result =>
      if (events n).tab = k then result.written.head? else lastResponse wire events k n
    | none => lastResponse wire events k n

/-- The server behind some requests. -/
def serverAfter (wire : Wire F) (requests : List Request) : Option Server :=
  SwitchServer.run wire.codec (fun i => requests.getD i .helo) requests.length

/-- The script behind some tasks. -/
def scriptAfter (address : Port → MACAddress) (counter : Nat) (tasks : List SwitchClient.Event) :
    Option SwitchClient.Traced :=
  SwitchClient.Traced.run address counter (fun i => tasks.getD i .postTick) tasks.length

/-- The server runs on the requests that it serves, every script on its tasks since the tab was
opened, and what is on its way between them is what the one has posted and the other written
last. -/
structure Components (wire : Wire F) (events : Nat → Event) (n : Nat) (s : System F) : Prop where
  served : (requests wire events n).length = s.served
  server : serverAfter wire (requests wire events n) = s.server
  unopened : ∀ k, s.tabs k = none → tasks wire events k n = []
  script : ∀ k tab, s.tabs k = some tab → ∃ i address counter, i < n ∧
    events i = .load k address counter ∧
    scriptAfter address counter (tasks wire events k n) = some tab.script
  posted : ∀ k tab, s.tabs k = some tab → tab.Posted
  response : ∀ k tab r, s.tabs k = some tab → tab.phase.response? = some r →
    lastResponse wire events k n = some r

section Components

variable {s' : System F} {tab' : Tab F} {event : Event}

theorem server_run_succ (requests : Nat → Request) (m : Nat) :
    SwitchServer.run wire.codec requests (m + 1) =
      (SwitchServer.run wire.codec requests m).bind fun server =>
        let result := SwitchServer.serve wire.codec m (requests m) server
        match result.aborted with
        | none => some result.server
        | some _ => none := by
  rw [SwitchServer.run]
  cases SwitchServer.run wire.codec requests m with
  | none => rfl
  | some server =>
    dsimp only [Option.bind_some]
    cases (SwitchServer.serve wire.codec m (requests m) server).aborted <;> rfl

theorem serverAfter_concat (requests : List Request) (request : Request) :
    serverAfter wire (requests ++ [request]) = (serverAfter wire requests).bind fun server =>
      let result := SwitchServer.serve wire.codec requests.length request server
      match result.aborted with
      | none => some result.server
      | some _ => none := by
  have hearlier : ∀ m, m ≤ requests.length →
      SwitchServer.run wire.codec (fun i => (requests ++ [request]).getD i .helo) m =
        SwitchServer.run wire.codec (fun i => requests.getD i .helo) m := by
    intro m hm
    induction m with
    | zero => rfl
    | succ m ih =>
      rw [server_run_succ, server_run_succ, ih (Nat.le_of_succ_le hm),
        List.getD_append _ _ _ _ hm]
  unfold serverAfter
  rw [List.length_append, List.length_singleton, server_run_succ, hearlier _ le_rfl,
    List.getD_append_right _ _ _ _ le_rfl, Nat.sub_self]
  rfl

theorem scriptAfter_concat {address : Port → MACAddress} {counter : Nat}
    (tasks : List SwitchClient.Event) (task : SwitchClient.Event) :
    scriptAfter address counter (tasks ++ [task]) =
      (scriptAfter address counter tasks).bind fun t => t.step task := by
  have hsucc : ∀ (tasks : Nat → SwitchClient.Event) m,
      SwitchClient.Traced.run address counter tasks (m + 1) =
        (SwitchClient.Traced.run address counter tasks m).bind fun t => t.step (tasks m) :=
    fun _ _ => rfl
  have hearlier : ∀ m, m ≤ tasks.length →
      SwitchClient.Traced.run address counter (fun i => (tasks ++ [task]).getD i .postTick) m =
        SwitchClient.Traced.run address counter (fun i => tasks.getD i .postTick) m := by
    intro m hm
    induction m with
    | zero => rfl
    | succ m ih => rw [hsucc, hsucc, ih (Nat.le_of_succ_le hm), List.getD_append _ _ _ _ hm]
  unfold scriptAfter
  rw [List.length_append, List.length_singleton, hsucc, hearlier _ le_rfl,
    List.getD_append_right _ _ _ _ le_rfl, Nat.sub_self]
  rfl

/-- The script of the tab has run the task, if there is one. -/
def Ran (tab tab' : Tab F) : Option SwitchClient.Event → Prop
  | some task => tab.script.step task = some tab'.script
  | none => tab'.script = tab.script

theorem Ran.filter {task : SwitchClient.Event} (h : tab.script.step task = some tab'.script) :
    Ran tab tab' ((some task).filter fun task => (tab.script.step task).isSome) := by
  have hsome : (tab.script.step task).isSome = true := by
    rw [h]
    rfl
  rw [Option.filter_some, if_pos hsome]
  exact h

theorem Ran.throws {task : SwitchClient.Event} (h : tab.script.step task = none)
    (hsame : tab'.script = tab.script) :
    Ran tab tab' ((some task).filter fun task => (tab.script.step task).isSome) := by
  have hnone : ¬ (tab.script.step task).isSome = true := by
    rw [h]
    exact Bool.false_ne_true
  rw [Option.filter_some, if_neg hnone]
  exact hsame

theorem ran_act {task : SwitchClient.Event} (hact : tab.act task = some tab') :
    Ran tab tab' ((some task).filter fun task => (tab.script.step task).isSome) ∧
      tab'.phase = tab.phase := by
  obtain ⟨script, hstep, rfl⟩ := Option.map_eq_some_iff.mp hact
  exact ⟨Ran.filter hstep, rfl⟩

/-- A click posts nothing. -/
theorem Tab.Posted.act {task : SwitchClient.Event} (h : tab.Posted)
    (hclick : ∀ t', tab.script.step task = some t' → t'.posted = tab.script.posted)
    (hact : tab.act task = some tab') : tab'.Posted := by
  obtain ⟨script, hstep, rfl⟩ := Option.map_eq_some_iff.mp hact
  intro entries hbody
  have hsame : script.posted = tab.script.posted := hclick script hstep
  rw [hsame]
  exact h entries hbody

theorem ran_post (hpost : tab.post = some tab') :
    Ran tab tab' (tab.task (.post k)) ∧ tab'.phase.response? = none ∧ tab'.Posted := by
  obtain ⟨script, phase, session, processed⟩ := tab
  unfold Tab.post at hpost
  cases phase with
  | idle switchId =>
    dsimp only at hpost
    cases hentries : SwitchClient.postTick script.toClient with
    | none =>
      have hstep : script.step .postTick = none := Option.bind_eq_none_iff.mpr fun a ha => by
        cases hentries.symm.trans ha
      rw [hentries] at hpost
      cases hpost
      exact ⟨Ran.throws hstep rfl, rfl, Tab.posted_of_none rfl⟩
    | some p =>
      have hstep : script.step .postTick = some _ := Option.bind_eq_some_iff.mpr ⟨p, hentries, rfl⟩
      rw [hentries, hstep] at hpost
      cases hpost
      refine ⟨Ran.filter hstep, rfl, fun entries hbody => ?_⟩
      obtain rfl := Option.some.inj hbody
      exact List.getLast?_concat
  | _ => cases hpost

theorem ran_receive (hreceive : tab.receive = some tab') :
    Ran tab tab' (tab.task (.receive k)) ∧ tab'.phase.response? = none ∧
      tab'.phase.body? = none := by
  obtain ⟨script, phase, session, processed⟩ := tab
  unfold Tab.receive at hreceive
  cases phase with
  | greeted r =>
    dsimp only at hreceive
    split at hreceive
    · cases hreceive
      exact ⟨rfl, rfl, rfl⟩
    · cases hreceive
      exact ⟨rfl, rfl, rfl⟩
  | answered switchId r =>
    dsimp only at hreceive
    unfold Tab.task
    dsimp only
    split at hreceive
    · next hok =>
      rw [if_pos hok]
      cases hanswer : r.body.bind SwitchWire.readAnswers with
      | none =>
        rw [hanswer] at hreceive
        cases hreceive
        exact ⟨rfl, rfl, rfl⟩
      | some answer =>
        rw [hanswer] at hreceive
        dsimp only at hreceive
        cases hstep : script.step (.receiveAnswer answer) with
        | none =>
          rw [hstep] at hreceive
          cases hreceive
          exact ⟨Ran.throws hstep rfl, rfl, rfl⟩
        | some script' =>
          rw [hstep] at hreceive
          cases hreceive
          exact ⟨Ran.filter hstep, rfl, rfl⟩
    · next hfailed =>
      rw [if_neg hfailed]
      cases hreceive
      exact ⟨rfl, rfl, rfl⟩
  | _ => cases hreceive

/-- A step without the server. -/
structure OwnStep (wire : Wire F) (s s' : System F) (event : Event) (tab tab' : Tab F) : Prop where
  waiting : s.request wire event = none
  server : s'.server = s.server
  served : s'.served = s.served
  response : ∀ r, tab'.phase.response? = some r → tab.phase.response? = some r

/-- The server serves the request of the tab. -/
structure ServerStep (wire : Wire F) (s s' : System F) (event : Event) (tab' : Tab F)
    (server : Server) (request : Request) : Prop where
  running : s.server = some server
  waiting : s.request wire event = some request
  next :
    let result := SwitchServer.serve wire.codec s.served request server
    s'.server = match result.aborted with
      | none => some result.server
      | some _ => none
  served : s'.served = s.served + 1
  response : ∀ r, tab'.phase.response? = some r →
    (SwitchServer.serve wire.codec s.served request server).written.head? = some r

theorem request_serve {server : Server} (hserver : s.server = some server)
    (hk : s.tabs k = some tab) : s.request wire (.serve k) = tab.request wire := by
  show s.server.bind _ = _
  rw [hserver, Option.bind_some, hk, Option.bind_some]

theorem request_serve_none (hserver : s.server = none) : s.request wire (.serve k) = none := by
  show s.server.bind _ = _
  rw [hserver, Option.bind_none]

/-- The tab gets the response, if there is one. -/
theorem conclude_cases (result : Served F) (answered : Response F → Tab F) (lost : Tab F) :
    ∃ tab', (s.conclude k result answered lost).tabs = Function.update s.tabs k (some tab') ∧
      (tab' = lost ∨ ∃ r, result.written.head? = some r ∧ tab' = answered r) := by
  unfold System.conclude
  cases result.written.head? with
  | none => exact ⟨lost, rfl, .inl rfl⟩
  | some r => exact ⟨answered r, rfl, .inr ⟨r, rfl, rfl⟩⟩

theorem serve_cases (hk : s.tabs k = some tab) (hserve : s.serve wire k tab = some s') :
    ∃ tab', s'.tabs = Function.update s.tabs k (some tab') ∧ tab'.script = tab.script ∧
      tab'.phase.body? = none ∧ (OwnStep wire s s' (.serve k) tab tab' ∨
        ∃ server request, ServerStep wire s s' (.serve k) tab' server request) := by
  obtain ⟨script, phase, session, processed⟩ := tab
  unfold System.serve at hserve
  cases hserver : s.server with
  | none =>
    have hlost : s' = s.setTab k ⟨script, .stopped none, session, processed⟩ := by
      rw [hserver] at hserve
      cases phase <;> cases hserve <;> rfl
    subst hlost
    exact ⟨_, rfl, rfl, rfl, .inl ⟨request_serve_none hserver, rfl, rfl, fun r hr => by cases hr⟩⟩
  | some server =>
    have hrequest : s.request wire (.serve k) = _ := request_serve hserver hk
    rw [hserver] at hserve
    cases phase with
    | helo =>
      cases hserve
      obtain ⟨tab', htabs, rfl | ⟨r, hhead, rfl⟩⟩ := conclude_cases (s := s) (k := k)
        (SwitchServer.serve wire.codec s.served .helo server)
        (fun r => ⟨script, .greeted r, s.helos + 1, processed⟩)
        ⟨script, .stopped none, session, processed⟩
      · exact ⟨_, htabs, rfl, rfl, .inr ⟨server, _, hserver, hrequest, rfl, rfl,
          fun r hr => by cases hr⟩⟩
      · exact ⟨_, htabs, rfl, rfl, .inr ⟨server, _, hserver, hrequest, rfl, rfl,
          fun r' hr => hhead.trans hr⟩⟩
    | ticking switchId entries =>
      cases hserve
      obtain ⟨tab', htabs, rfl | ⟨r, hhead, rfl⟩⟩ := conclude_cases (s := s) (k := k)
        (SwitchServer.serve wire.codec s.served
          (.tick (some switchId) (wire.stringify entries)) server)
        (fun r => ⟨script, .answered switchId r, session,
          if r.status = .successOk then
            processed ++ [found wire.codec s.served server (wire.stringify entries)]
          else processed⟩)
        ⟨script, .stopped none, session, processed⟩
      · exact ⟨_, htabs, rfl, rfl, .inr ⟨server, _, hserver, hrequest, rfl, rfl,
          fun r hr => by cases hr⟩⟩
      · exact ⟨_, htabs, rfl, rfl, .inr ⟨server, _, hserver, hrequest, rfl, rfl,
          fun r' hr => hhead.trans hr⟩⟩
    | _ => cases hserve

/-- A step in a tab that is open. -/
structure TabStep (wire : Wire F) (s s' : System F) (event : Event) (tab tab' : Tab F) : Prop where
  before : s.tabs event.tab = some tab
  after : s'.tabs = Function.update s.tabs event.tab (some tab')
  ran : Ran tab tab' (tab.task event)
  posted : tab.Posted → tab'.Posted
  request : OwnStep wire s s' event tab tab' ∨
    ∃ server request, ServerStep wire s s' event tab' server request

theorem step_cases (hstep : s.step wire event = some s') :
    (∃ k address counter, event = .load k address counter ∧ s.tabs k = none ∧
      s' = s.setTab k (Tab.start address counter)) ∨
    ∃ tab tab', TabStep wire s s' event tab tab' := by
  cases event with
  | load k address counter =>
    unfold System.step at hstep
    dsimp only at hstep
    split at hstep
    · next hk =>
      cases hstep
      exact .inl ⟨k, address, counter, rfl, hk, rfl⟩
    · cases hstep
  | send k src dest ok =>
    obtain ⟨tab, hk, hstep⟩ := Option.bind_eq_some_iff.mp hstep
    obtain ⟨tab', hact, hstep⟩ := Option.bind_eq_some_iff.mp hstep
    cases hstep
    obtain ⟨hran, hphase⟩ := ran_act hact
    have hclick : ∀ t', tab.script.step (.sendPacket src dest ok) = some t' →
        t'.posted = tab.script.posted := fun t' ht => by
      cases ht
      rfl
    exact .inr ⟨tab, tab', hk, rfl, hran, fun h => h.act hclick hact,
      .inl ⟨rfl, rfl, rfl, fun r hr => hphase ▸ hr⟩⟩
  | select k i vlan =>
    obtain ⟨tab, hk, hstep⟩ := Option.bind_eq_some_iff.mp hstep
    obtain ⟨tab', hact, hstep⟩ := Option.bind_eq_some_iff.mp hstep
    cases hstep
    obtain ⟨hran, hphase⟩ := ran_act hact
    have hclick : ∀ t', tab.script.step (.selectVLAN i vlan) = some t' →
        t'.posted = tab.script.posted := fun t' ht => by
      cases ht
      rfl
    exact .inr ⟨tab, tab', hk, rfl, hran, fun h => h.act hclick hact,
      .inl ⟨rfl, rfl, rfl, fun r hr => hphase ▸ hr⟩⟩
  | post k =>
    obtain ⟨tab, hk, hstep⟩ := Option.bind_eq_some_iff.mp hstep
    obtain ⟨tab', hpost, hstep⟩ := Option.bind_eq_some_iff.mp hstep
    cases hstep
    obtain ⟨hran, hresponse, hposted⟩ := ran_post hpost
    exact .inr ⟨tab, tab', hk, rfl, hran, fun _ => hposted, .inl ⟨rfl, rfl, rfl, fun r hr => by
      cases hresponse.symm.trans hr⟩⟩
  | serve k =>
    obtain ⟨tab, hk, hstep⟩ := Option.bind_eq_some_iff.mp hstep
    obtain ⟨tab', htabs, hscript, hbody, hserver⟩ := serve_cases hk hstep
    exact .inr ⟨tab, tab', hk, htabs, hscript, fun _ => Tab.posted_of_none hbody, hserver⟩
  | receive k =>
    obtain ⟨tab, hk, hstep⟩ := Option.bind_eq_some_iff.mp hstep
    obtain ⟨tab', hreceive, hstep⟩ := Option.bind_eq_some_iff.mp hstep
    cases hstep
    obtain ⟨hran, hresponse, hbody⟩ := ran_receive hreceive
    exact .inr ⟨tab, tab', hk, rfl, hran, fun _ => Tab.posted_of_none hbody,
      .inl ⟨rfl, rfl, rfl, fun r hr => by cases hresponse.symm.trans hr⟩⟩

theorem requests_succ (hrun : run wire events n = some s) :
    requests wire events (n + 1) =
      requests wire events n ++ (s.request wire (events n)).toList := by
  rw [requests, hrun, Option.bind_some]

theorem tasks_succ (hrun : run wire events n = some s) :
    tasks wire events k (n + 1) = tasks wire events k n ++
      ((s.tabs k).bind fun tab =>
        if (events n).tab = k then tab.task (events n) else none).toList := by
  rw [tasks, hrun, Option.bind_some]

theorem tasks_other (hne : k ≠ (events n).tab) :
    tasks wire events k (n + 1) = tasks wire events k n := by
  have hnone : ∀ tab : Tab F, (if (events n).tab = k then tab.task (events n) else none) = none :=
    fun _ => if_neg hne.symm
  rw [tasks]
  simp only [hnone, Option.bind_fun_none, Option.toList_none, List.append_nil]

theorem lastResponse_other (hne : k ≠ (events n).tab) :
    lastResponse wire events k (n + 1) = lastResponse wire events k n := by
  rw [lastResponse]
  split
  · rw [if_neg hne.symm]
  · rfl

theorem lastResponse_own (hrun : run wire events n = some s)
    (hrequest : s.request wire (events n) = none) :
    lastResponse wire events k (n + 1) = lastResponse wire events k n := by
  have hresult : s.result wire (events n) = none := by
    unfold System.result
    rw [hrequest]
    exact Option.bind_fun_none _
  rw [lastResponse, hrun, Option.bind_some, hresult]

theorem lastResponse_server (hrun : run wire events n = some s) {server : Server}
    {request : Request} (hserver : s.server = some server)
    (hrequest : s.request wire (events n) = some request) :
    lastResponse wire events (events n).tab (n + 1) =
      (SwitchServer.serve wire.codec s.served request server).written.head? := by
  have hresult : s.result wire (events n) =
      some (SwitchServer.serve wire.codec s.served request server) := by
    unfold System.result
    rw [hserver, hrequest]
    rfl
  rw [lastResponse, hrun, Option.bind_some, hresult]
  exact if_pos rfl

/-- A step goes on with the server and with one tab. -/
theorem Components.update (h : Components wire events n s)
    (hafter : s'.tabs = Function.update s.tabs (events n).tab (some tab'))
    (hserved : (requests wire events (n + 1)).length = s'.served)
    (hserver : serverAfter wire (requests wire events (n + 1)) = s'.server)
    (hscript : ∃ i address counter, i < n + 1 ∧ events i = .load (events n).tab address counter ∧
      scriptAfter address counter (tasks wire events (events n).tab (n + 1)) = some tab'.script)
    (hposted : tab'.Posted)
    (hresponse : ∀ r, tab'.phase.response? = some r →
      lastResponse wire events (events n).tab (n + 1) = some r) :
    Components wire events (n + 1) s' := by
  refine ⟨hserved, hserver, fun j hj => ?_, fun j tabj hj => ?_, fun j tabj hj => ?_,
    fun j tabj r hj hr => ?_⟩
  all_goals
    rw [hafter] at hj
    rcases eq_or_ne j (events n).tab with rfl | hne
  · rw [Function.update_self] at hj
    cases hj
  · rw [Function.update_of_ne hne] at hj
    rw [tasks_other hne]
    exact h.unopened j hj
  · rw [Function.update_self] at hj
    cases hj
    exact hscript
  · rw [Function.update_of_ne hne] at hj
    obtain ⟨i, address, counter, hi, hload, hscript⟩ := h.script j tabj hj
    rw [tasks_other hne]
    exact ⟨i, address, counter, Nat.lt_succ_of_lt hi, hload, hscript⟩
  · rw [Function.update_self] at hj
    cases hj
    exact hposted
  · rw [Function.update_of_ne hne] at hj
    exact h.posted j tabj hj
  · rw [Function.update_self] at hj
    cases hj
    exact hresponse r hr
  · rw [Function.update_of_ne hne] at hj
    rw [lastResponse_other hne]
    exact h.response j tabj r hj hr

theorem Components.load (h : Components wire events n s) (hrun : run wire events n = some s)
    {address : Port → MACAddress} {counter : Nat} (hevent : events n = .load k address counter)
    (hk : s.tabs k = none) :
    Components wire events (n + 1) (s.setTab k (Tab.start address counter)) := by
  have hrequest : s.request wire (events n) = none := by
    rw [hevent]
    rfl
  have hrequests : requests wire events (n + 1) = requests wire events n := by
    rw [requests_succ hrun, hrequest]
    exact List.append_nil _
  have htab : (events n).tab = k := by
    rw [hevent]
    rfl
  have htasks : tasks wire events k (n + 1) = [] := by
    rw [tasks_succ hrun, hk, h.unopened k hk]
    rfl
  have hafter : (s.setTab k (Tab.start address counter)).tabs =
      Function.update s.tabs (events n).tab (some (Tab.start address counter)) := by
    rw [htab]
    rfl
  refine h.update hafter (hrequests ▸ h.served) (hrequests ▸ h.server) ?_
    (Tab.posted_of_none rfl) fun r hr => ?_
  · rw [htab, htasks]
    exact ⟨n, address, counter, Nat.lt_succ_self n, hevent, rfl⟩
  · cases hr

theorem Components.step (h : Components wire events n s) (hrun : run wire events n = some s)
    (hstep : TabStep wire s s' (events n) tab tab') : Components wire events (n + 1) s' := by
  obtain ⟨hbefore, hafter, hran, hposted, hrequest⟩ := hstep
  have hserver : (requests wire events (n + 1)).length = s'.served ∧
      serverAfter wire (requests wire events (n + 1)) = s'.server := by
    rw [requests_succ hrun]
    rcases hrequest with hown | ⟨server, request, hserve⟩
    · rw [hown.waiting, hown.server, hown.served, Option.toList_none, List.append_nil]
      exact ⟨h.served, h.server⟩
    · rw [hserve.waiting, hserve.served, hserve.next, Option.toList_some, serverAfter_concat,
        h.server, hserve.running, List.length_append, h.served]
      exact ⟨rfl, rfl⟩
  refine h.update hafter hserver.1 hserver.2 ?_ (hposted (h.posted _ tab hbefore)) fun r hr => ?_
  · obtain ⟨i, address, counter, hi, hload, hscript⟩ := h.script _ tab hbefore
    refine ⟨i, address, counter, Nat.lt_succ_of_lt hi, hload, ?_⟩
    rw [tasks_succ hrun, hbefore, Option.bind_some, if_pos rfl]
    cases htask : tab.task (events n) with
    | none =>
      rw [htask] at hran
      have hsame : tab'.script = tab.script := hran
      rw [Option.toList_none, List.append_nil, hscript, hsame]
    | some task =>
      rw [htask] at hran
      rw [Option.toList_some, scriptAfter_concat, hscript]
      exact hran
  · rcases hrequest with hown | ⟨server, request, hserve⟩
    · rw [lastResponse_own hrun hown.waiting]
      exact h.response _ tab r hbefore (hown.response r hr)
    · rw [lastResponse_server hrun hserve.running hserve.waiting]
      exact hserve.response r hr

/-- What is known of every run of the server and of every run of a script holds in the system. -/
theorem system_components (hrun : run wire events n = some s) : Components wire events n s := by
  induction n generalizing s with
  | zero =>
    cases hrun
    refine ⟨rfl, rfl, fun _ _ => rfl, fun k tab hk => ?_, fun k tab hk => ?_,
      fun k tab r hk _ => ?_⟩
    all_goals cases hk
  | succ n ih =>
    obtain ⟨s0, hs0, hstep⟩ := Option.bind_eq_some_iff.mp hrun
    rcases step_cases hstep with ⟨k, address, counter, hevent, hk, rfl⟩ | ⟨tab, tab', htab⟩
    · exact (ih hs0).load hs0 hevent hk
    · exact (ih hs0).step hs0 htab

theorem system_components_twoTabs : ∃ s, run sampleWire twoTabs 38 = some s ∧
    Components sampleWire twoTabs 38 s ∧ (requests sampleWire twoTabs 38).length = 12 := by
  obtain ⟨s, -, -, -, hs, hserved, -⟩ := twoTabs_stopped
  have hcomponents := system_components hs
  exact ⟨s, hs, hcomponents, hcomponents.served.trans hserved⟩

end Components

/-! ## 2. Frames -/

/-- A frame of the script as the server decodes it. -/
def atServer (packet : SwitchClient.Packet) : EthernetFrame := SwitchWire.received packet.frame

/-- The ticks of the tab that have not succeeded. -/
def Tab.unprocessed (tab : Tab F) : List (Port → Entry) :=
  tab.script.posted.drop tab.processed.length

theorem TabInv.posted {helos : Nat} (h : TabInv helos tab) : ∃ earlier,
    tab.script.posted = earlier ++ tab.unprocessed ∧ tab.processed = earlier.map atSwitch ∧
    (tab.unprocessed = [] ∨ ∃ entries, tab.unprocessed = [entries] ∧
      ((∃ switchId, tab.phase = .ticking switchId entries) ∨ tab.session < helos)) := by
  obtain ⟨earlier, rest, hposted, hprocessed, hrest⟩ : ∃ earlier rest,
      tab.script.posted = earlier ++ rest ∧ tab.processed = earlier.map atSwitch ∧
      (rest = [] ∨ ∃ entries, rest = [entries] ∧
        ((∃ switchId, tab.phase = .ticking switchId entries) ∨ tab.session < helos)) := by
    have hphase := h.phase
    cases hphase with
    | helo _ hnew _ => exact ⟨[], [], hnew, rfl, .inl rfl⟩
    | greeted _ hnew _ _ _ => exact ⟨[], [], hnew, rfl, .inl rfl⟩
    | @idle script _ _ _ _ _ =>
      exact ⟨script.posted, [], (List.append_nil _).symm, rfl, .inl rfl⟩
    | @answered script _ _ _ _ _ =>
      exact ⟨script.posted, [], (List.append_nil _).symm, rfl, .inl rfl⟩
    | @ticking _ _ earlier entries _ hposted _ _ _ =>
      exact ⟨earlier, [entries], hposted, rfl, .inr ⟨entries, rfl, .inl ⟨_, rfl⟩⟩⟩
    | @superseded _ _ earlier entries hposted _ hlt =>
      exact ⟨earlier, [entries], hposted, rfl, .inr ⟨entries, rfl, .inr hlt⟩⟩
    | @stopped _ _ earlier entries hposted _ hlt =>
      exact ⟨earlier, [entries], hposted, rfl, .inr ⟨entries, rfl, .inr hlt⟩⟩
  have hunprocessed : tab.unprocessed = rest := by
    unfold Tab.unprocessed
    rw [hposted, hprocessed, List.length_map, List.drop_left]
  rw [hunprocessed]
  exact ⟨earlier, hposted, hprocessed, hrest⟩

/-- What the switch finds at a port in some ticks. -/
theorem filterMap_atSwitch (bodies : List (Port → Entry)) (p : Port) :
    (bodies.map atSwitch).filterMap (fun found => found p) =
      (bodies.filterMap fun entries => (entries p).frame).map atServer := by
  rw [List.filterMap_map, List.map_filterMap]
  rfl

/-- In a tick of the tab that succeeded the switch finds at each port the frame that left the
queue of its host seven ticks before. None of the frames of the host is lost or doubled up to the
posted bodies, and then up to the switch: only the last body may be one that the switch has not
processed, as long as the tick is on its way or because a newer session has superseded it. -/
theorem frames_processed (hwire : ∀ n s, run wire events n = some s → wire.Parses s)
    (hrun : run wire events n = some s) (hk : s.tabs k = some tab) :
    (∀ m found p frame, tab.processed[m]? = some found → (found p = some frame ↔
      ∃ packet, atServer packet = frame ∧ 7 ≤ m ∧
        (tab.script.left p)[m - 7]? = some (some packet))) ∧
    tab.script.Transports ∧
    (∀ p, ((tab.script.sent p).map atServer).Perm
      (((tab.script.host p).sendQueue ++
          ((tab.script.host p).outgoing.map SwitchClient.Visual.frameData ++
            tab.unprocessed.filterMap fun entries => (entries p).frame)).map atServer ++
        tab.processed.filterMap fun found => found p)) ∧
    (tab.unprocessed = [] ∨ ∃ entries, tab.unprocessed = [entries] ∧
      ((∃ switchId, tab.phase = .ticking switchId entries) ∨ tab.session < s.helos)) := by
  have htab := (inv_run hwire hrun).tab k tab hk
  have htransports := SwitchClient.Traced.transports_of_accounted htab.accounted htab.distinct
  obtain ⟨earlier, hposted, hprocessed, hlast⟩ := htab.posted
  refine ⟨fun m found p frame hm => ?_, htransports, fun p => ?_, hlast⟩
  · rw [hprocessed, List.getElem?_map, Option.map_eq_some_iff] at hm
    obtain ⟨entries, hentries, rfl⟩ := hm
    have hsubmitted : tab.script.posted[m]? = some entries := by
      rw [hposted, List.getElem?_append_left (List.getElem?_eq_some_iff.mp hentries).1]
      exact hentries
    show (entries p).frame.map atServer = some frame ↔ _
    rw [Option.map_eq_some_iff]
    refine exists_congr fun packet => ?_
    rw [SwitchClient.Traced.submitted_getElem? (htab.accounted p) hsubmitted]
    exact and_comm
  · have hconserved := (htransports.conserved p).map atServer
    rw [hposted, List.filterMap_append] at hconserved
    rw [hprocessed, filterMap_atSwitch, ← List.map_append]
    refine hconserved.trans (List.Perm.map _ ?_)
    rw [List.append_assoc, List.append_assoc]
    exact (List.perm_append_comm.append_left _).append_left _

/-- The frame of the last host has been processed, and the ninth tick superseded. -/
theorem frames_processed_twoTabs : ∃ s tab found packet entries,
    run sampleWire twoTabs 38 = some s ∧ s.tabs 0 = some tab ∧ tab.processed.length = 8 ∧
    tab.processed[7]? = some found ∧ found lastPort = some (atServer packet) ∧
    (tab.script.left lastPort)[0]? = some (some packet) ∧ tab.unprocessed = [entries] ∧
    tab.session < s.helos := by
  obtain ⟨s, tab, found, frame, hs, -, htab, ⟨status, hstopped⟩, hposted, hlen, hfound, hframe⟩ :=
    twoTabs_stopped
  obtain ⟨hfrom, -, -, hlast⟩ := frames_processed twoTabs_parses hs htab
  obtain ⟨packet, rfl, -, hleft⟩ := (hfrom 7 found lastPort frame hfound).mp hframe
  have hrest : tab.unprocessed.length = 1 := by
    unfold Tab.unprocessed
    rw [List.length_drop, hposted, hlen]
  rcases hlast with hnil | ⟨entries, hentries, ⟨switchId, hticking⟩ | hlt⟩
  · rw [hnil] at hrest
    cases hrest
  · cases hstopped.symm.trans hticking
  · exact ⟨s, tab, found, packet, entries, hs, htab, hlen, hfound, hframe, hleft, hentries, hlt⟩

/-! ## 3. VLANs -/

/-- The next tick of a tab posts the choice of every port in the first request, and in every
later one the choices that are not 0. -/
theorem vlan_posted (hwire : ∀ n s, run wire events n = some s → wire.Parses s)
    (hrun : run wire events n = some s) (hk : s.tabs k = some tab) {switchId : String}
    (hphase : tab.phase = .idle switchId) :
    ∃ s' tab' entries, s.step wire (.post k) = some s' ∧ s'.tabs k = some tab' ∧
      tab'.phase = .ticking switchId entries ∧ ∀ i, (entries i).vlan =
        if tab.script.posted = [] ∨ (tab.script.host i).targetVLAN ≠ 0 then
          some (tab.script.host i).targetVLAN
        else none := by
  have htab := (inv_run hwire hrun).tab k tab hk
  have hinv := htab.phase
  cases hinv with
  | @idle script m hidle hstatus _ _ =>
    cases hphase
    obtain ⟨client, t', hentries, hstep, -⟩ := step_post htab.quiet hidle
    have hpost : (⟨script, .idle (sessionId m), m, script.posted.map atSwitch⟩ : Tab F).post =
        some ⟨t', .ticking (sessionId m) fun i => entryOf (script.host i), m,
          script.posted.map atSwitch⟩ := by
      unfold Tab.post
      dsimp only at hentries hstep ⊢
      rw [hentries, hstep]
    refine ⟨_, _, _, Option.bind_eq_some_iff.mpr ⟨_, hk, Option.bind_eq_some_iff.mpr
      ⟨_, hpost, rfl⟩⟩, Function.update_self _ _ _, rfl, fun i => ?_⟩
    show (if some (script.host i).targetVLAN ≠ (script.host i).statusVLAN then _ else _) = _
    rw [hstatus i]
    cases script.posted with
    | nil => rw [if_pos nofun, if_pos (.inl rfl)]
    | cons entries posted =>
      show (if some (script.host i).targetVLAN ≠ some 0 then _ else _) = _
      simp
  | _ => cases hphase

/-- The second request of tab 0: the last port gets its VLAN again, and port 0 none. -/
theorem vlan_posted_twoTabs : ∃ s s' tab' switchId entries, run sampleWire twoTabs 9 = some s ∧
    s.step sampleWire (.post 0) = some s' ∧ s'.tabs 0 = some tab' ∧
      tab'.phase = .ticking switchId entries ∧ (entries lastPort).vlan = some 7 ∧
      (entries 0).vlan = none := by
  obtain ⟨s, tab, hs, htab, ⟨switchId, hidle⟩, hposted, hlast, hzero⟩ := twoTabs_idle
  obtain ⟨s', tab', entries, hstep, htab', hphase, hvlan⟩ :=
    vlan_posted twoTabs_parses hs htab hidle
  have hlater : ¬ tab.script.posted = [] := by
    intro hnil
    rw [hnil] at hposted
    cases hposted
  refine ⟨s, s', tab', switchId, entries, hs, hstep, htab', hphase, ?_, ?_⟩
  · rw [hvlan lastPort, hlast]
    exact if_pos (.inr (by decide))
  · rw [hvlan 0, hzero]
    exact if_neg fun h => h.elim hlater fun hne => hne rfl

end SwitchSystem

end MicroRiscv
