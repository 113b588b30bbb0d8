import Netpull.Client.Bookkeeping

/-!
# PullObjectSuccess

The end of `FileIntegrityTask::Run`, and what a lost connection leaves: a worker that has erased a
path opens a connection of its own and reports the success. `reportStep` adds this to the events of
the client, and `ReportInv.booked` says what its books and its reports are worth, as long as the set
of the paths that are not complete changes in atomic steps.
-/

namespace Netpull

open scoped List
open PullObject

/-- Where a worker stands behind the erasure of a path. -/
inductive Report
  | connecting (pull : PullObject)
  | sending (pull : PullObject)
deriving DecidableEq

def Report.pull : Report → PullObject
  | .connecting pull | .sending pull => pull

/-- A client with what its busy workers have to report, one entry for each, and with the requests that
were given to `SendProtobufMessage`. After `Done` no task is started any more, and the main thread
waits for the workers to come to an end. -/
structure ReportingClient where
  client : ClientState
  done : Bool
  reports : List (Option Report)
  sent : List PullRequest

/-- An event of the client, or a `Connect` or a `SendProtobufMessage` in a worker. -/
inductive ReportEvent
  | client (event : ClientEvent)
  | connect (j : Nat) (connects : Bool)
  | send (j : Nat)
deriving DecidableEq

namespace ReportingClient

def start (cfg : ClientConfig) : ReportingClient where
  client := .start cfg
  done := false
  reports := []
  sent := []

/-- What the worker at `j` leaves when it goes on: a report, if it erases the path of a file, and no
entry, if it is free again. -/
def goOn (s : ReportingClient) (j : Nat) : Option ClientRun → List (Option Report)
  | some (.erasing pull) => s.reports.set j (some (.connecting pull))
  | some .returned => s.reports.eraseIdx j
  | _ => s.reports

/-- An event. A worker that reports does nothing else. -/
def reportStep (cfg : ClientConfig) (s : ReportingClient) (event : ReportEvent) :
    Option ReportingClient :=
  if s.client.pc.isOver then none
  else
    match event with
    | .client (.receive none) =>
      if s.client.pc = .reading ∧ s.done = false then some { s with done := true } else none
    | .client (.pop i) =>
      if s.done then none
      else (clientStep cfg s.client (.pop i)).map fun client =>
        { s with client, reports := s.reports ++ [none] }
    | .client (.run j) =>
      if s.reports[j]? = some none then
        (clientStep cfg s.client (.run j)).map fun client =>
          { s with client, reports := s.goOn j s.client.pool.running[j]? }
      else none
    | .client (.overrun j wsCol) =>
      if s.reports[j]? = some none then
        (clientStep cfg s.client (.overrun j wsCol)).map fun client => { s with client }
      else none
    | .client event =>
      if s.done then none
      else (clientStep cfg s.client event).map fun client => { s with client }
    | .connect j connects =>
      match s.reports[j]? with
      | some (some (.connecting pull)) =>
        some { s with
          reports := s.reports.set j (if connects then some (.sending pull) else none) }
      | _ => none
    | .send j =>
      match s.reports[j]? with
      | some (some (.sending pull)) =>
        some { s with
          reports := s.reports.set j none
          sent := s.sent ++ [.success (cstr s.client.jobId) pull.path] }
      | _ => none

/-- What an event does. -/
inductive ReportStep (cfg : ClientConfig) (s : ReportingClient) : ReportEvent → ReportingClient → Prop
  | loses (pc : s.client.pc = .reading) (goes : s.done = false) :
      ReportStep cfg s (.client (.receive none)) { s with done := true }
  | client (event : ClientEvent) (client : ClientState) (lost : event ≠ .receive none)
      (pop : ∀ i, event ≠ .pop i) (run : ∀ j, event ≠ .run j)
      (step : clientStep cfg s.client event = some client) :
      ReportStep cfg s (.client event) { s with client }
  | pops (i : Nat) (client : ClientState) (step : clientStep cfg s.client (.pop i) = some client) :
      ReportStep cfg s (.client (.pop i)) { s with client, reports := s.reports ++ [none] }
  | runs (j : Nat) (client : ClientState) (free : s.reports[j]? = some none)
      (step : clientStep cfg s.client (.run j) = some client) :
      ReportStep cfg s (.client (.run j))
        { s with client, reports := s.goOn j s.client.pool.running[j]? }
  | connects (j : Nat) (pull : PullObject) (connects : Bool)
      (entry : s.reports[j]? = some (some (.connecting pull))) :
      ReportStep cfg s (.connect j connects)
        { s with reports := s.reports.set j (if connects then some (.sending pull) else none) }
  | sends (j : Nat) (pull : PullObject) (entry : s.reports[j]? = some (some (.sending pull))) :
      ReportStep cfg s (.send j)
        { s with
          reports := s.reports.set j none
          sent := s.sent ++ [.success (cstr s.client.jobId) pull.path] }

theorem reportStep_live {cfg : ClientConfig} {s s' : ReportingClient} {event : ReportEvent}
    (hs : reportStep cfg s event = some s') : s.client.pc.isOver = false := by
  unfold reportStep at hs
  split at hs
  · cases hs
  · next hover => exact Bool.eq_false_iff.2 hover

theorem reportStep_cases {cfg : ClientConfig} {s s' : ReportingClient} {event : ReportEvent}
    (hs : reportStep cfg s event = some s') : ReportStep cfg s event s' := by
  unfold reportStep at hs
  split at hs
  · cases hs
  · split at hs
    · split at hs
      · next h => exact Option.some.inj hs ▸ .loses h.1 h.2
      · cases hs
    · next i =>
      split at hs
      · cases hs
      · obtain ⟨client, hclient, rfl⟩ := Option.map_eq_some_iff.1 hs
        exact .pops i client hclient
    · next j =>
      split at hs
      · next hfree =>
        obtain ⟨client, hclient, rfl⟩ := Option.map_eq_some_iff.1 hs
        exact .runs j client hfree hclient
      · cases hs
    · next j wsCol =>
      split at hs
      · obtain ⟨client, hclient, rfl⟩ := Option.map_eq_some_iff.1 hs
        exact .client _ client ClientEvent.noConfusion (fun _ => ClientEvent.noConfusion)
          (fun _ => ClientEvent.noConfusion) hclient
      · cases hs
    · next event hlost hpop hrun hoverrun =>
      split at hs
      · cases hs
      · obtain ⟨client, hclient, rfl⟩ := Option.map_eq_some_iff.1 hs
        exact .client event client hlost hpop hrun hclient
    · next j connects =>
      split at hs
      · next pull hj => exact Option.some.inj hs ▸ .connects j pull connects hj
      · cases hs
    · next j =>
      split at hs
      · next pull hj => exact Option.some.inj hs ▸ .sends j pull hj
      · cases hs

/-! ## What is reported -/

/-- The path of a success. -/
def successPath : PullRequest → Option Bytes
  | .success _ path => some path
  | _ => none

/-- The path a worker has to report. -/
def duePath (report : Option Report) : Option Bytes := report.map (·.pull.path)

/-- The paths whose success is still to be reported. -/
def due (s : ReportingClient) : List Bytes := s.reports.filterMap duePath

/-- The paths whose success is or will be reported. -/
def reported (s : ReportingClient) : List Bytes := s.due ++ s.sent.filterMap successPath

/-- What comes before the report of a success: the file was streamed, its digest found to be right,
its metadata set, and its path erased. -/
structure Earned (cfg : ClientConfig) (s : ClientState) (pull : PullObject) : Prop where
  received : pull ∈ objectsOf s.received
  transfer : pull.transfer.isSome
  succeeds : ¬ cfg.Fails pull
  streamed : (.streamed, pull.path) ∈ s.deeds
  verified : (.verified, pull.path) ∈ s.deeds
  settled : (.settled, pull.path) ∈ s.deeds
  erased : pull.path ∉ s.toComplete

variable {cfg : ClientConfig} {s s' : ReportingClient} {c c' : ClientState}

/-- It stays so, as long as no object in hand has the path. -/
theorem Earned.step {pull : PullObject} (h : Earned cfg c pull) (hmoves : c.Moves cfg c')
    (hhands : pull.path ∉ c.hands.map (·.path)) : Earned cfg c' pull := by
  obtain ⟨hreceived, htransfer, hsucceeds, hstreamed, hverified, hsettled, herased⟩ := h
  cases hmoves with
  | receives q hands objects toComplete deeds =>
    refine ⟨?_, htransfer, hsucceeds, deeds ▸ hstreamed, deeds ▸ hverified,
      deeds ▸ hsettled, toComplete ▸ herased⟩
    rw [objects]
    exact List.mem_append_left _ hreceived
  | inserts q mem hands objects toComplete deeds =>
    refine ⟨objects ▸ hreceived, htransfer, hsucceeds, deeds ▸ hstreamed, deeds ▸ hverified,
      deeds ▸ hsettled, ?_⟩
    rw [toComplete]
    intro hlisted
    rcases GuardedSet.mem_insert.1 hlisted with hpath | hlisted
    · exact hhands (List.mem_map.2 ⟨q, hands.mem_iff.1 mem, hpath.symm⟩)
    · exact herased hlisted
  | does q new mem hands succeeds objects toComplete deeds =>
    have hmore : ∀ x ∈ c.deeds, x ∈ c'.deeds := by
      rw [deeds]
      exact fun x hx => List.mem_append_right _ hx
    exact ⟨objects ▸ hreceived, htransfer, hsucceeds, hmore _ hstreamed, hmore _ hverified,
      hmore _ hsettled, toComplete ▸ herased⟩
  | fails q hands fails objects toComplete deeds =>
    exact ⟨objects ▸ hreceived, htransfer, hsucceeds, deeds ▸ hstreamed, deeds ▸ hverified,
      deeds ▸ hsettled, toComplete ▸ herased⟩
  | erases q hands objects toComplete deeds =>
    refine ⟨objects ▸ hreceived, htransfer, hsucceeds, deeds ▸ hstreamed, deeds ▸ hverified,
      deeds ▸ hsettled, ?_⟩
    rw [toComplete]
    exact fun hlisted => herased (GuardedSet.mem_erase.1 hlisted).2
  | stays hands objects toComplete deeds =>
    exact ⟨objects ▸ hreceived, htransfer, hsucceeds, deeds ▸ hstreamed, deeds ▸ hverified,
      deeds ▸ hsettled, toComplete ▸ herased⟩
  | dies pc objects toComplete deeds =>
    exact ⟨objects.subset hreceived, htransfer, hsucceeds, deeds ▸ hstreamed, deeds ▸ hverified,
      deeds ▸ hsettled, toComplete ▸ herased⟩

theorem received_grows (hmoves : c.Moves cfg c') :
    objectsOf c.received <+: objectsOf c'.received := by
  cases hmoves with
  | receives q hands objects toComplete deeds =>
    rw [objects]
    exact List.prefix_append _ _
  | inserts q mem hands objects toComplete deeds => exact objects ▸ List.prefix_refl _
  | does q new mem hands succeeds objects toComplete deeds => exact objects ▸ List.prefix_refl _
  | fails q hands fails objects toComplete deeds => exact objects ▸ List.prefix_refl _
  | erases q hands objects toComplete deeds => exact objects ▸ List.prefix_refl _
  | stays hands objects toComplete deeds => exact objects ▸ List.prefix_refl _
  | dies pc objects toComplete deeds => exact objects

theorem map_subperm {α β : Type} {l l' : List α} (f : α → β) (h : l <+~ l') :
    l.map f <+~ l'.map f := by
  obtain ⟨m, hperm, hsub⟩ := h
  exact ⟨m.map f, hperm.map f, hsub.map f⟩

theorem nodup_of_subperm {α : Type} {l l' : List α} (h : l <+~ l') (hl' : l'.Nodup) : l.Nodup := by
  obtain ⟨m, hperm, hsub⟩ := h
  exact hperm.nodup_iff.1 (hl'.sublist hsub)

/-- The objects in hand and some other ones are different received objects. -/
def Apart (c : ClientState) (others : List Bytes) : Prop :=
  c.hands.map (·.path) ++ others <+~ (objectsOf c.received).map (·.path)

theorem Apart.step {others : List Bytes} (h : Apart c others) (hmoves : c.Moves cfg c')
    (hlive : c'.pc ≠ .dead) : Apart c' others := by
  unfold Apart at *
  -- No thread takes an object in hand that it did not receive.
  have hfewer : c'.hands <+~ c.hands → objectsOf c'.received = objectsOf c.received →
      c'.hands.map (·.path) ++ others <+~ (objectsOf c'.received).map (·.path) := by
    intro hhands hobjects
    rw [hobjects]
    exact ((List.subperm_append_right others).2 (map_subperm _ hhands)).trans h
  cases hmoves with
  | receives q hands objects toComplete deeds =>
    rw [objects, List.map_append, List.map_singleton]
    have hperm := (List.perm_append_singleton q.path ((objectsOf c.received).map (·.path))).symm
    have hhands := (hands.map (·.path)).append_right others
    exact hhands.subperm.trans (((List.subperm_cons q.path).2 h).trans hperm.subperm)
  | inserts q mem hands objects toComplete deeds => exact hfewer hands.subperm objects
  | does q new mem hands succeeds objects toComplete deeds => exact hfewer hands.subperm objects
  | fails q hands fails objects toComplete deeds =>
    exact hfewer ((List.sublist_cons_self _ _).subperm.trans hands.symm.subperm) objects
  | erases q hands objects toComplete deeds =>
    exact hfewer ((List.sublist_cons_self _ _).subperm.trans hands.symm.subperm) objects
  | stays hands objects toComplete deeds => exact hfewer hands.subperm objects
  | dies pc objects toComplete deeds => exact absurd pc hlive

/-! ## The invariant -/

structure ReportInv (cfg : ClientConfig) (s : ReportingClient) : Prop where
  client : ClientInv cfg s.client
  exact : s.client.pc = .dead ∨ s.client.Exact cfg ∧ Apart s.client s.reported
  once : s.reported.Nodup
  earned : ∀ path ∈ s.reported, ∃ pull, pull.path = path ∧ Earned cfg s.client pull

theorem ReportInv.start (cfg : ClientConfig) : ReportInv cfg (.start cfg) where
  client := .start
  exact := .inr ⟨.start cfg, List.nil_subperm⟩
  once := .nil
  earned := by rintro path ⟨⟩

/-- Nothing more is reported. -/
theorem ReportInv.fewer (h : ReportInv cfg s) (hclient : s'.client = s.client)
    (hreported : s'.reported <+~ s.reported) : ReportInv cfg s' := by
  refine ⟨hclient ▸ h.client, ?_, nodup_of_subperm hreported h.once, ?_⟩
  · rw [hclient]
    refine h.exact.imp_right fun ⟨hexact, hapart⟩ => ⟨hexact, ?_⟩
    exact ((List.subperm_append_left _).2 hreported).trans hapart
  · rw [hclient]
    exact fun path hpath => h.earned path (hreported.subset hpath)

/-- An event of the client that leaves the reports. -/
theorem ReportInv.clientEvent (h : ReportInv cfg s) {event : ClientEvent}
    (hs : clientStep cfg s.client event = some c')
    (hdistinct : ((objectsOf c'.received).map (·.path)).Nodup) (hlive : s.client.pc ≠ .dead) :
    ReportInv cfg { s with client := c' } := by
  obtain ⟨hexact, hapart⟩ := h.exact.resolve_left hlive
  have hmoves := ClientState.clientStep_moves hexact.files hs
  have hbefore := hdistinct.sublist ((received_grows hmoves).sublist.map (·.path))
  have hnodup := nodup_of_subperm hapart hbefore
  refine ⟨h.client.step hbefore hs, ?_, h.once, ?_⟩
  · by_cases hdead : c'.pc = .dead
    · exact .inl hdead
    · exact .inr ⟨(hexact.step hs).resolve_left hdead, hapart.step hmoves hdead⟩
  · intro path hpath
    obtain ⟨pull, rfl, hearned⟩ := h.earned path hpath
    refine ⟨pull, rfl, hearned.step hmoves fun hhands => ?_⟩
    exact List.disjoint_of_nodup_append hnodup hhands hpath

/-- A worker erases the path of a file, and has to report it. -/
theorem ReportInv.erase (hfinish : ∀ path, (cfg.calls path).integrity.finish.isSome)
    (h : ReportInv cfg s) {j : Nat} {pull : PullObject} (hlive : s.client.pc.isOver = false)
    (hj : s.client.pool.running[j]? = some (.erasing pull)) (hfree : s.reports[j]? = some none)
    (hs : clientStep cfg s.client (.run j) = some c')
    (hdistinct : ((objectsOf c'.received).map (·.path)).Nodup) :
    ReportInv cfg { s with
      client := c', reports := s.reports.set j (some (.connecting pull)) } := by
  have hnotdead : s.client.pc ≠ .dead := ClientPc.ne_dead_of_live hlive
  obtain ⟨hexact, hapart⟩ := h.exact.resolve_left hnotdead
  have hc' : clientRunStep cfg s.client j (.erasing pull) = c' := by
    cases clientStep_cases hs with
    | runs j r hr =>
      cases hj.symm.trans hr
      rfl
  have hclient := h.clientEvent hs hdistinct hnotdead
  have hlive' : c'.pc ≠ .dead := hc' ▸ hnotdead
  obtain ⟨hexact', -⟩ := hclient.exact.resolve_left hlive'
  -- The path moves from the hands of the worker to what is due.
  have hhands : s.client.hands ~ pull :: c'.hands := by
    have hhanded := ClientState.handed_returned s.client hj rfl
    rw [← hc']
    exact (hhanded.append_left _).trans List.perm_middle
  have hdue : (s.reports.set j (some (.connecting pull))).filterMap duePath ~
      pull.path :: s.due :=
    WorkerPool.filterMap_perm_set (f := duePath) hfree (some (.connecting pull))
  have hreported : (s.reports.set j (some (.connecting pull))).filterMap duePath ++
      s.sent.filterMap successPath ~ pull.path :: s.reported := hdue.append_right _
  have hapart' : c'.hands.map (·.path) ++ pull.path :: s.reported <+~
      (objectsOf c'.received).map (·.path) := by
    have hmoved : c'.hands.map (·.path) ++ pull.path :: s.reported ~
        s.client.hands.map (·.path) ++ s.reported :=
      List.perm_middle.trans ((hhands.map (·.path)).symm.append_right _)
    have hobjects : objectsOf c'.received = objectsOf s.client.received := by
      rw [← hc']
      rfl
    rw [hobjects]
    exact hmoved.subperm.trans hapart
  have hnodup := nodup_of_subperm hapart' hdistinct
  refine ⟨hclient.client, .inr ⟨hexact', ?_⟩, ?_, ?_⟩
  · exact ((List.subperm_append_left _).2 hreported.subperm).trans hapart'
  · exact hreported.nodup_iff.2 (List.Nodup.of_append_right hnodup)
  · intro path hpath
    rcases List.mem_cons.1 (hreported.mem_iff.1 hpath) with rfl | hpath
    · obtain ⟨hpull, hdeeds⟩ := h.client.holds_run hj rfl
      have hchecked := hdeeds .checked (.tail _ (.tail _ (.head _)))
      have hverified := h.client.compared.verified_of_checked (hfinish pull.path) hchecked
      have hsettled : Settled s.client.deeds pull :=
        fun deed hdeed => hdeeds deed (deedsFor_subset pull hdeed)
      have hbefore : ((objectsOf s.client.received).map (·.path)).Nodup := by
        rw [← hc'] at hdistinct
        exact hdistinct
      have hsucceeds := hexact.not_fails h.client hbefore hfinish hpull hsettled
      refine ⟨pull, rfl, ?_⟩
      rw [← hc']
      refine ⟨hpull, ?_, hsucceeds, hdeeds .streamed (.tail _ (.head _)), hverified,
        hdeeds .settled (.tail _ (.tail _ (.tail _ (.head _)))), ?_⟩
      · exact hexact.files pull (List.mem_append_right _ (ClientState.mem_handed _ hj rfl))
      · exact fun hlisted => (GuardedSet.mem_erase.1 hlisted).1 rfl
    · exact hclient.earned path hpath

/-- **Every event keeps the invariant.** -/
theorem ReportInv.step (hfinish : ∀ path, (cfg.calls path).integrity.finish.isSome)
    (h : ReportInv cfg s) {event : ReportEvent} (hs : reportStep cfg s event = some s')
    (hdistinct : ((objectsOf s'.client.received).map (·.path)).Nodup) : ReportInv cfg s' := by
  have hlive := reportStep_live hs
  have hnotdead : s.client.pc ≠ .dead := ClientPc.ne_dead_of_live hlive
  cases reportStep_cases hs with
  | loses => exact h.fewer rfl (.refl _)
  | client _ c' _ _ _ hc' => exact h.clientEvent hc' hdistinct hnotdead
  | pops i c' hc' =>
    refine (h.clientEvent hc' hdistinct hnotdead).fewer rfl ?_
    rw [reported, due, List.filterMap_append, show [none].filterMap duePath = [] from rfl,
      List.append_nil]
    exact .refl _
  | runs j c' hfree hc' =>
    have hclient := h.clientEvent hc' hdistinct hnotdead
    cases hj : s.client.pool.running[j]? with
    | none => exact hclient
    | some r =>
      cases r with
      | erasing pull => exact h.erase hfinish hlive hj hfree hc' hdistinct
      | returned =>
        refine hclient.fewer rfl ?_
        have herase := WorkerPool.filterMap_perm_eraseIdx (f := duePath) hfree
        exact (herase.symm.append_right _).subperm
      | streaming pull | preparing pull | submitting pull | checking pull | settling pull =>
        exact hclient
  | connects j pull connects hj =>
    refine h.fewer rfl ?_
    refine (List.subperm_append_right _).2 ?_
    cases connects with
    | true =>
      have hset := WorkerPool.filterMap_perm_set (f := duePath) hj (some (.sending pull))
      exact ((List.perm_append_left_iff [pull.path]).1 hset).subperm
    | false =>
      have hset := WorkerPool.filterMap_perm_set (f := duePath) hj none
      exact (List.sublist_cons_self pull.path _).subperm.trans hset.subperm
  | sends j pull hj =>
    refine h.fewer rfl ?_
    have hset := WorkerPool.filterMap_perm_set (f := duePath) hj none
    -- The path moves from what is due to what was sent.
    rw [reported, List.filterMap_append]
    have hlast : s.sent.filterMap successPath ++ [pull.path] ~
        [pull.path] ++ s.sent.filterMap successPath := List.perm_append_comm
    refine ((hlast.append_left _).trans ?_).subperm
    rw [← List.append_assoc]
    exact (List.perm_append_comm.trans hset).append_right _

/-- Beside its reports, a client takes the steps of a client. -/
theorem reportStep_client {event : ReportEvent} (hs : reportStep cfg s event = some s') :
    s'.client = s.client ∧ (∀ e, event = .client e → e = .receive none) ∨
      ∃ e, event = .client e ∧ clientStep cfg s.client e = some s'.client := by
  cases reportStep_cases hs with
  | loses =>
    refine .inl ⟨rfl, ?_⟩
    rintro e ⟨⟩
    rfl
  | client e c' _ _ _ hc' => exact .inr ⟨e, rfl, hc'⟩
  | pops _ c' hc' => exact .inr ⟨_, rfl, hc'⟩
  | runs _ c' _ hc' => exact .inr ⟨_, rfl, hc'⟩
  | connects | sends => exact .inl ⟨rfl, by rintro e ⟨⟩⟩

theorem reportStep_received {event : ReportEvent} (hs : reportStep cfg s event = some s') :
    s.client.received <+: s'.client.received := by
  rcases reportStep_client hs with ⟨hsame, -⟩ | ⟨e, -, hstep⟩
  · exact hsame ▸ List.prefix_refl _
  · rcases clientStep_received hstep with hsame | ⟨resp, -, hmore⟩
    · exact hsame ▸ List.prefix_refl _
    · exact hmore ▸ List.prefix_append _ _

theorem ReportInv.run (hfinish : ∀ path, (cfg.calls path).integrity.finish.isSome)
    {events : List ReportEvent}
    (hrun : Transition.script (reportStep cfg) (.start cfg) events = some s)
    (hdistinct : ((objectsOf s.client.received).map (·.path)).Nodup) : ReportInv cfg s := by
  have hstep : ∀ s event s',
      (((objectsOf s.client.received).map (·.path)).Nodup → ReportInv cfg s) →
      reportStep cfg s event = some s' →
      ((objectsOf s'.client.received).map (·.path)).Nodup → ReportInv cfg s' := by
    intro s event s' hinv hs hdistinct
    refine (hinv ?_).step hfinish hs hdistinct
    exact hdistinct.sublist (((reportStep_received hs).filterMap _).sublist.map _)
  exact Transition.script_invariant hstep (fun _ => .start cfg) hrun hdistinct

/-- **The books of the client**: it reports as incomplete exactly the received objects for which a
step failed. The success of a file is sent at most once, and only when the file was streamed to its
size, its digest was the announced one, its metadata was set and its path erased. -/
structure Booked (cfg : ClientConfig) (s : ReportingClient) : Prop where
  incomplete : ∀ incomplete, s.client.pc = .reported incomplete → ∀ path, path ∈ incomplete ↔
    ∃ pull ∈ objectsOf s.client.received, pull.path = path ∧ cfg.Fails pull
  earned : ∀ job path, .success job path ∈ s.sent →
    ∃ pull transfer, Earned cfg s.client pull ∧ pull.path = path ∧ pull.transfer = some transfer ∧
      (cfg.calls path).stream.completes transfer.bytes = true ∧
      (cfg.calls path).integrity.finish = some transfer.sha256 ∧
      setMetadata (cfg.calls path).metadata pull = true
  once : (s.sent.filterMap successPath).Nodup

theorem ReportInv.booked (h : ReportInv cfg s)
    (hfinish : ∀ path, (cfg.calls path).integrity.finish.isSome)
    (hdistinct : ((objectsOf s.client.received).map (·.path)).Nodup) : Booked cfg s := by
  refine ⟨?_, ?_, List.Nodup.of_append_right h.once⟩
  · intro incomplete hpc path
    obtain ⟨hexact, -⟩ := h.exact.resolve_left (by rw [hpc]; exact ClientPc.noConfusion)
    exact hexact.reported_iff h.client hdistinct hfinish hpc path
  · intro job path hsent
    have hreported : path ∈ s.reported :=
      List.mem_append_right _ (List.mem_filterMap.2 ⟨_, hsent, rfl⟩)
    obtain ⟨pull, rfl, hearned⟩ := h.earned path hreported
    obtain ⟨transfer, htransfer⟩ := Option.isSome_iff_exists.1 hearned.transfer
    obtain ⟨hstreaming, hcomparing⟩ := mem_goalsFor_file hearned.transfer
    have hstreamed := cfg.succeeds_of_goal hearned.succeeds hstreaming
    have hverified := cfg.succeeds_of_goal hearned.succeeds hcomparing
    have hsettled := cfg.succeeds_of_goal hearned.succeeds (mem_goalsFor_settled pull)
    simp only [ClientConfig.succeeds, htransfer, Option.getD_some] at hstreamed hverified
    refine ⟨pull, transfer, hearned, rfl, htransfer, hstreamed, ?_, hsettled⟩
    exact IntegrityCalls.finish_of_verified _ _ (of_decide_eq_true hverified)

end ReportingClient

/-- A client with one worker, for which the call that creates the directory `d` fails, and every file
is empty. -/
def oneFailure : ClientConfig where
  dest := text "/dest"
  calls path :=
    { creates := path ≠ text "d"
      stream := ⟨true, true, true, true, [], [], [], []⟩
      integrity := ⟨true, [], true, fun bytes => if bytes = [] then some emptyDigest else none⟩
      metadata := ⟨true, true, true⟩ }
  workers := 1
  disposition := .sigDfl
  wcwidth := latinWcwidth

end Netpull
