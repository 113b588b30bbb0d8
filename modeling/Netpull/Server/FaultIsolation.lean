import Netpull.Server.JobTable

/-!
# Faults of single clients

The accept loop runs beside the threads that it has started, in one process. A client can stop it
with its connection, if it sends no request or continues a job whose log has no end; and its job can
stop it later, if the visit of its path fails its assertion or its crawl comes to a symlink that
cannot be sent.

`acceptLoop_faultIsolated_iff` says that it goes on in exactly the runs in which none of these
happens. A run is followed up to where a thread would read a job that the table has moved; what the
process does after that is undefined.
-/

namespace Netpull

open Transition

/-! ## When a thread brings the process down -/

/-- Handling the object returns: its path lies below its root, and its target can be sent if it is a
symlink that was not completed. -/
def FsObject.Sendable (ctx : CrawlContext) (o : FsObject) : Prop :=
  ∃ relativePath, relativeTo o.path o.root = .ok relativePath ∧
    (ctx.job.isCompleted relativePath = false → o.type = .symlink →
      ∃ data, symlinkData o.root o.linkTarget = .ok data)

/-- The next step of the manager thread returns: the place that its visit begins at is resolved, and
the object that it comes to can be sent. -/
def SessionConfig.Survives (cfg : SessionConfig) : ManagerPc → Prop
  | .starting => Accepts cfg → isResolved cfg.visitRoot = true
  | .crawling (o :: _) => o.Sendable cfg.ctx
  | _ => True

section Manager

variable {cfg : SessionConfig} {s s' : SessionState}

theorem outgoing_ok_iff (ctx : CrawlContext) (total : Int32) (drawn : Nat) (o : FsObject) :
    (∃ out, outgoing ctx total drawn o = .ok out) ↔ o.Sendable ctx := by
  unfold outgoing FsObject.Sendable
  cases hrel : relativeTo o.path o.root with
  | error e => simp
  | ok relativePath =>
    rw [ok_bind]
    cases hcompleted : ctx.job.isCompleted relativePath with
    | true => simp [pure, Except.pure, hcompleted]
    | false =>
      unfold pullObject objectData
      by_cases htype : o.type = .symlink
      · have hfile : o.type ≠ .file := by simp [htype]
        cases symlinkData o.root o.linkTarget <;>
          simp [Except.map, pure, Except.pure, htype, hcompleted]
      · by_cases hfile : o.type = .file <;>
          simp [hfile, htype, pure, Except.pure]

/-- A step of the manager thread brings the process down exactly if it is not one that returns. -/
theorem managerStep_dead_iff (hs : managerStep cfg s = some s') :
    s'.pc = .dead ↔ ¬ cfg.Survives s.pc := by
  cases hpc : s.pc with
  | starting =>
    simp only [managerStep, hpc] at hs
    unfold SessionConfig.Survives Accepts
    split at hs
    · next hpath =>
      obtain rfl := Option.some.inj hs
      rw [Bool.or_eq_true, Bool.not_eq_true', Bool.not_eq_true'] at hpath
      rcases hpath with hpath | hpath <;> simp [hpath]
    · next hpath =>
      rw [Bool.or_eq_true, not_or, Bool.not_eq_true', Bool.not_eq_true', Bool.not_eq_false,
        Bool.not_eq_false] at hpath
      split at hs
      · next hvisit =>
        obtain rfl := Option.some.inj hs
        simp [hvisit]
      · next hvisit =>
        obtain rfl := Option.some.inj hs
        simp [hpath, hvisit]
  | crawling todo =>
    cases todo with
    | nil =>
      simp only [managerStep, hpc] at hs
      obtain rfl := Option.some.inj hs
      simp [SessionConfig.Survives]
    | cons o todo =>
      simp only [managerStep, hpc] at hs
      obtain rfl := Option.some.inj hs
      rw [SessionConfig.Survives, ← outgoing_ok_iff cfg.ctx s.total s.drawn o]
      unfold handleStep
      cases hout : outgoing cfg.ctx s.total s.drawn o with
      | error e => simp
      | ok out => rcases out with _ | ⟨pull⟩ | ⟨id, ready, pull⟩ <;> simp
  | waiting =>
    simp only [managerStep, hpc] at hs
    split at hs
    · obtain rfl := Option.some.inj hs
      simp [SessionConfig.Survives]
    · cases hs
  | sending | preparing | submitting | finishing =>
    simp only [managerStep, hpc] at hs
    obtain rfl := Option.some.inj hs
    simp [SessionConfig.Survives]
  | done | rejected | dead =>
    simp only [managerStep, hpc] at hs
    cases hs

/-- A thread that does not survive its next step takes it. -/
theorem managerStep_some_of_not_survives (h : ¬ cfg.Survives s.pc) :
    ∃ s', managerStep cfg s = some s' := by
  cases hpc : s.pc with
  | starting =>
    simp only [managerStep, hpc]
    split
    · exact ⟨_, rfl⟩
    · split <;> exact ⟨_, rfl⟩
  | crawling todo => cases todo <;> exact ⟨_, by simp only [managerStep, hpc]; rfl⟩
  | _ => exact absurd (by rw [hpc]; trivial) h

/-- Only a step of the manager thread can bring the process down. -/
theorem sessionStep_dead {event : SessionEvent} (hs : sessionStep cfg s event = some s')
    (hdead : s'.pc = .dead) : event = .manager ∧ ¬ cfg.Survives s.pc := by
  have hlive := sessionStep_live hs
  cases sessionStep_cases hs with
  | manager hmanager => exact ⟨rfl, (managerStep_dead_iff hmanager).1 hdead⟩
  | pops | runs | finishes => exact absurd hdead hlive

end Manager

/-! ## When the loop goes on -/

/-- **Fault isolation**: the loop is at `Accept`, and a connection for which the server has nothing
to do leaves what the threads share as it was found. -/
structure FaultIsolated (cfg : SystemConfig) (g : Growth) (t : TableSystem) : Prop where
  goesOn : t.sys.ended = false ∧ t.sys.loop = .next
  unharmed : ∀ a t', Refused cfg.server t.sys.server a →
    tableStep cfg g t (.connection a) = some t' →
      t'.sys.server = t.sys.server ∧ t'.table = t.table

/-- The event does not stop the loop. A thread that reads its job goes on, and an admitted client
sends a request that names no log without end. -/
def KeepsRunning (cfg : SystemConfig) (t : TableSystem) : ServerEvent → Prop
  | .connection a => Admitted cfg.server a.conn.peer → a.Manageable cfg.server
  | .session i .manager => ∀ manager, t.sys.server.managers[i]? = some manager →
      ((t.sys.sessions i).pc.usesJob = true → (t.table.readJob i).isSome = true) →
        (cfg.managed t.sys i manager).Survives (t.sys.sessions i).pc
  | .session _ _ | .pop _ => True

section Loop

variable {cfg : SystemConfig} {g : Growth} {t t' : TableSystem}

/-- A refused request leaves the table of the jobs as it was. -/
theorem JobTable.handleConnection_refused {cfg : ServerConfig} {table : JobTable} {s : ServerState}
    {a : Accepted} (hlookup : table.jobs.lookup = s.jobs) (h : Refused cfg s a) :
    table.handleConnection g cfg a = table := by
  unfold JobTable.handleConnection
  cases hread : requestRead cfg a.conn with
  | none => rfl
  | some r =>
    obtain ⟨_ | req, conn⟩ := r
    · rfl
    · have hadm : Admitted cfg a.conn.peer := (requestRead_isSome cfg a.conn).1 (by rw [hread]; rfl)
      have hframed : framedMessage cfg.protobuf a.conn.incoming = some req := by
        rw [← readProtobufMessage_eq cfg.endian a.onlyEintr]
        unfold requestRead at hread
        rw [hadm.1, hadm.2] at hread
        simp only [Bool.false_eq_true, if_false, Bool.not_true, Option.some.injEq] at hread
        rw [hread]
      have hunknown := h hadm req hframed
      simp only
      cases req with
      | start path =>
        have hnone : Job.new a.newCalls a.newId a.now path = none := hunknown
        rw [JobTable.handleRequest, hnone]
      | continue_ id =>
        have hnone : Job.load cfg.env a.openLog id = none := hunknown
        rw [JobTable.handleRequest, hnone]
      | success id path =>
        have hnone : s.jobs id = none := hunknown
        rw [← hlookup, SlotMap.lookup_eq_none_iff] at hnone
        rw [JobTable.handleRequest, SlotMap.find, if_neg hnone]
      | file id | unset => rfl

theorem TableInv.faultIsolated (h : TableInv t) (hended : t.sys.ended = false)
    (hloop : t.sys.loop = .next) : FaultIsolated cfg g t := by
  refine ⟨⟨hended, hloop⟩, ?_⟩
  intro a t' hrefused ht'
  obtain ⟨htable, hserver, -⟩ := tableStep_connection ht'
  exact ⟨hserver.trans (handleConnection_refused hrefused),
    htable.trans (JobTable.handleConnection_refused h.lookup hrefused)⟩

/-- How the loop stands after a connection. -/
theorem tableStep_loop {a : Accepted} (h : tableStep cfg g t (.connection a) = some t') :
    t'.sys.loop = (handleConnection cfg.server t.sys.server a).2 ∧
      t'.sys.ended = (handleConnection cfg.server t.sys.server a).2.exits := by
  obtain ⟨-, -, hsys⟩ := systemStep_connection (tableStep_sys h)
  rw [hsys]
  exact ⟨rfl, rfl⟩

/-- How the process stands after a step of a session. -/
theorem tableStep_session {i : Nat} {event : SessionEvent}
    (h : tableStep cfg g t (.session i event) = some t') :
    ∃ manager s, t.sys.server.managers[i]? = some manager ∧
      sessionStep (cfg.managed t.sys i manager)
        { t.sys.sessions i with readyFiles := t.sys.server.readyFiles } event = some s ∧
      t'.sys.loop = t.sys.loop ∧ t'.sys.ended = decide (s.pc = .dead) := by
  have hs := tableStep_sys h
  unfold systemStep at hs
  split at hs
  · cases hs
  · simp only at hs
    split at hs
    · cases hs
    · next manager hmanager =>
      obtain ⟨s, hsession, hsys⟩ := Option.map_eq_some_iff.1 hs
      exact ⟨manager, s, hmanager, hsession, by rw [← hsys], by rw [← hsys]⟩

/-- The loop is at `Accept`, and the table is a layout of its jobs. -/
structure Accepting (t : TableSystem) : Prop extends TableInv t where
  ended : t.sys.ended = false
  loop : t.sys.loop = .next

theorem Accepting.step (h : Accepting t) {event : ServerEvent} (hgood : KeepsRunning cfg t event)
    (hs : tableStep cfg g t event = some t') : Accepting t' := by
  obtain ⟨hinv, hended, hloop⟩ := h
  suffices hstands : t'.sys.ended = false ∧ t'.sys.loop = .next from
    ⟨hinv.step hs, hstands.1, hstands.2⟩
  cases event with
  | connection a =>
    obtain ⟨hloop', hended'⟩ := tableStep_loop hs
    have hnext := (handleConnection_next_iff cfg.server t.sys.server a).2 hgood
    rw [hended', hloop', hnext]
    exact ⟨rfl, rfl⟩
  | session i event =>
    obtain ⟨manager, s, hmanager, hsession, hloop', hended'⟩ := tableStep_session hs
    refine ⟨?_, hloop'.trans hloop⟩
    rw [hended', decide_eq_false_iff_not]
    intro hdead
    obtain ⟨rfl, hnot⟩ := sessionStep_dead hsession hdead
    refine hnot (hgood manager hmanager fun huses => ?_)
    by_contra hnone
    rw [Bool.not_eq_true, Option.isSome_eq_false_iff] at hnone
    rw [tableStep, huses, hnone] at hs
    cases hs
  | pop i =>
    have hsys := tableStep_sys hs
    unfold systemStep at hsys
    rw [hended] at hsys
    obtain hsys := Option.some.inj hsys
    rw [← hsys]
    exact ⟨rfl, hloop⟩

/-- An event that stops the loop takes place. -/
theorem Accepting.stops (h : Accepting t) {event : ServerEvent} (hbad : ¬ KeepsRunning cfg t event) :
    ∃ t', tableStep cfg g t event = some t' ∧ ¬ FaultIsolated cfg g t' := by
  obtain ⟨hinv, hended, hloop⟩ := h
  cases event with
  | connection a =>
    obtain ⟨t', ht'⟩ := tableStep_connection_some cfg g hended hloop a
    refine ⟨t', ht', fun hisolated => hbad ?_⟩
    have hnext := hisolated.goesOn.2
    rw [(tableStep_loop ht').1] at hnext
    exact (handleConnection_next_iff cfg.server t.sys.server a).1 hnext
  | session i event =>
    cases event with
    | manager =>
      unfold KeepsRunning at hbad
      push Not at hbad
      obtain ⟨manager, hmanager, hreads, hnot⟩ := hbad
      let found := { t.sys.sessions i with readyFiles := t.sys.server.readyFiles }
      obtain ⟨s, hs⟩ := managerStep_some_of_not_survives (s := found) hnot
      have hlive : found.pc ≠ .dead := by
        intro hdead
        rw [managerStep, hdead] at hs
        cases hs
      have hsession : sessionStep (cfg.managed t.sys i manager) found .manager = some s :=
        (if_neg hlive).trans hs
      have hgoes : (tableStep cfg g t (.session i .manager)).isSome = true := by
        rw [tableStep_session_isSome cfg g hended hmanager fun _ => hreads, hsession]
        rfl
      obtain ⟨t', ht'⟩ := Option.isSome_iff_exists.1 hgoes
      refine ⟨t', ht', fun hisolated => ?_⟩
      obtain ⟨manager', s', hmanager', hsession', -, hended'⟩ := tableStep_session ht'
      obtain rfl := Option.some.inj (hmanager.symm.trans hmanager')
      obtain rfl := Option.some.inj (hsession.symm.trans hsession')
      rw [hisolated.goesOn.1, eq_comm, decide_eq_false_iff_not] at hended'
      exact hended' ((managerStep_dead_iff hs).2 hnot)
    | pop j | run j | finish j => exact absurd trivial hbad
  | pop i => exact absurd trivial hbad

end Loop

/-- **The loop isolates the faults of its clients** in exactly the runs in which every admitted one
sends a request that can be read and names no log without end, and no thread that was started for a
job comes to a path or a symlink that brings the process down. -/
theorem acceptLoop_faultIsolated_iff (cfg : SystemConfig) (g : Growth) (events : List ServerEvent) :
    EachState (tableStep cfg g) (FaultIsolated cfg g) (.start cfg) events ↔
      EachStep (tableStep cfg g) (KeepsRunning cfg) (.start cfg) events :=
  eachState_iff (fun _ (h : Accepting _) => h.toTableInv.faultIsolated h.ended h.loop)
    (fun _ _ _ h hgood hs => h.step hgood hs) (fun _ _ h hbad => h.stops hbad)
    ⟨.start cfg, rfl, rfl⟩

/-! ## Three clients that stop the server -/

/-- A coding of two requests: for the job `/`, and to continue the job `../../dev/ptmx`. -/
def rootAndDevice : Protobuf PullRequest where
  byteSizeLong _ := 1
  serializeAsString req := if req = .start [slash] then [1] else [2]
  parseFromString bytes :=
    if bytes = [1] then some (.start [slash])
    else if bytes = [2] then some (.continue_ (text "../../dev/ptmx")) else none

/-- A server of `/` for the local host. -/
def wholeRootServer : SystemConfig where
  server := { localServer with protobuf := rootAndDevice }
  session _ := requestFor [slash] [slash]

/-- A client on the local host that makes a request; there is a device. -/
def faultyClient (body : UInt8) : Accepted :=
  { requesting body with
    logAt := fun path =>
      if path = text "/cache/netpull/../../dev/ptmx" then .endless else .none }

/-- A client that sends nothing and closes, one that asks for all of `/`, and one that continues a
job whose log is a device: each of them stops the server. -/
theorem single_client_stops_server :
    let isolates := EachState (tableStep wholeRootServer flatHashMap)
      (FaultIsolated wholeRootServer flatHashMap) (.start wholeRootServer)
    ¬ isolates [.connection silentClient] ∧
      ¬ isolates [.connection (faultyClient 1), .session 0 .manager] ∧
      ¬ isolates [.connection (faultyClient 2)] := by
  intro isolates
  have hstops : ∀ events : List ServerEvent, ∀ stands : Bool × Control,
      (script (tableStep wholeRootServer flatHashMap) (.start wholeRootServer) events).map
        (fun t => (t.sys.ended, t.sys.loop)) = some stands → stands ≠ (false, .next) →
      ¬ isolates events := by
    intro events stands hrun hstopped hisolated
    obtain ⟨t, ht, rfl⟩ := Option.map_eq_some_iff.1 hrun
    obtain ⟨hended, hloop⟩ := (hisolated events [] t (List.append_nil _).symm ht).goesOn
    exact hstopped (Prod.ext hended hloop)
  refine ⟨?_, ?_, ?_⟩
  · exact hstops _ (true, .exit 1) rfl (by decide)
  · exact hstops _ (true, .next) rfl (by decide)
  · exact hstops _ (false, .hangs) rfl (by decide)

end Netpull
