import Netpull.Lib.SlotMap
import Netpull.Server.Tickets

/-!
# The table of jobs

The accept loop keeps the jobs in a table whose insertions may move them, and starts each manager
thread with a reference into it, which the thread reads until its crawl is over. The system here is
that of the tickets with the table laid out in slots; a thread whose reference has gone stale has no
next step, since what reading it does is undefined.

`jobsKept_iff` says in which runs every thread keeps its job. In any run, what a thread reads, if it
reads anything, is the job that the accept loop has under its id (`tableRun_reads`), which is the one
that a session of the tickets works with; so up to where a stale reference is read, the runs of this
system are runs of that one (`tableRun_sys`).
-/

namespace Netpull

/-- `Job job;` -/
def Job.blank : Job := ⟨[], [], [], .empty⟩

/-- The table and, for each manager thread in the order of their starts, its reference. -/
structure JobTable where
  jobs : SlotMap Bytes Job
  refs : List Slot

namespace JobTable

/-- What a job's manager thread is started with. -/
def startManager (g : Growth) (t : JobTable) (job : Job) : JobTable :=
  let (jobs, ref) := (t.jobs.emplace g job.id job).subscript g job.id .blank
  { jobs, refs := t.refs ++ [ref] }

/-- What the loop does to the table for a request. -/
def handleRequest (g : Growth) (cfg : ServerConfig) (t : JobTable) (a : Accepted) :
    PullRequest → JobTable
  | .start path =>
    match Job.new a.newCalls a.newId a.now path with
    | some job => t.startManager g job
    | none => t
  | .continue_ id =>
    match Job.load cfg.env a.openLog id with
    | some job => t.startManager g job
    | none => t
  | .success id path =>
    match t.jobs.find id with
    | some _ => { t with jobs := t.jobs.modify id fun job => job.markCompleted path }
    | none => t
  | .file _ | .unset => t

def handleConnection (g : Growth) (cfg : ServerConfig) (t : JobTable) (a : Accepted) : JobTable :=
  match requestRead cfg a.conn with
  | some (some req, _) => t.handleRequest g cfg a req
  | _ => t

/-- What the `i`th manager thread reads of its job. -/
def readJob (t : JobTable) (i : Nat) : Option Job :=
  ((t.refs[i]?).bind t.jobs.read).map Prod.snd

end JobTable

/-- The next step of the thread reads its job. -/
def ManagerPc.usesJob : ManagerPc → Bool
  | .starting | .crawling (_ :: _) => true
  | _ => false

/-- The thread has such a step before it. -/
def ManagerPc.willUseJob : ManagerPc → Bool
  | .starting => true
  | .crawling todo | .sending _ todo | .preparing _ todo | .submitting _ todo => !todo.isEmpty
  | .waiting | .finishing | .done | .rejected | .dead => false

theorem ManagerPc.willUseJob_of_usesJob {pc : ManagerPc} (h : pc.usesJob = true) :
    pc.willUseJob = true := by
  cases pc with
  | starting => rfl
  | crawling todo =>
    cases todo with
    | nil => cases h
    | cons o todo => rfl
  | sending | preparing | submitting | waiting | finishing | done | rejected | dead => cases h

/-- The server with its table of jobs. -/
structure TableSystem where
  sys : ServerSystem
  table : JobTable

def TableSystem.start (cfg : SystemConfig) : TableSystem := ⟨.start cfg, ⟨.empty, []⟩⟩

/-- An event of the server. -/
def tableStep (cfg : SystemConfig) (g : Growth) (t : TableSystem) (event : ServerEvent) :
    Option TableSystem :=
  match event with
  | .connection a =>
    (systemStep cfg t.sys event).map fun sys =>
      { sys, table := t.table.handleConnection g cfg.server a }
  | .session i .manager =>
    if (t.sys.sessions i).pc.usesJob && (t.table.readJob i).isNone then none
    else (systemStep cfg t.sys event).map fun sys => { t with sys }
  | .session _ _ | .pop _ => (systemStep cfg t.sys event).map fun sys => { t with sys }

/-! ## The law of the references -/

/-- A manager thread that will use its job again refers to the slot where the table has the job
stored under its id. -/
def TableSystem.JobsLive (t : TableSystem) : Prop :=
  ∀ i manager, t.sys.server.managers[i]? = some manager →
    (t.sys.sessions i).pc.willUseJob = true →
      ∃ ref job, t.table.refs[i]? = some ref ∧ t.table.jobs.find manager.2 = some ref ∧
        t.table.jobs.read ref = some (manager.2, job) ∧ t.sys.server.jobs manager.2 = some job

/-- **Running jobs keep their `Job`** in every state that a run of the server reaches. -/
def JobsKept (cfg : SystemConfig) (g : Growth) (events : List ServerEvent) : Prop :=
  Transition.EachState (tableStep cfg g) TableSystem.JobsLive (.start cfg) events

/-- The job that a connection starts a manager thread for. -/
def StartsJob (cfg : ServerConfig) (a : Accepted) (job : Job) : Prop :=
  ∃ req conn, requestRead cfg a.conn = some (some req, conn) ∧
    ((∃ path, req = .start path ∧ Job.new a.newCalls a.newId a.now path = some job) ∨
      ∃ id, req = .continue_ id ∧ Job.load cfg.env a.openLog id = some job)

theorem StartsJob.unique {cfg : ServerConfig} {a : Accepted} {job job' : Job}
    (h : StartsJob cfg a job) (h' : StartsJob cfg a job') : job = job' := by
  obtain ⟨req, conn, hread, hstarts⟩ := h
  obtain ⟨req', conn', hread', hstarts'⟩ := h'
  obtain ⟨rfl, -⟩ : req = req' ∧ conn = conn' := by simpa [hread] using hread'
  rcases hstarts with ⟨path, rfl, hjob⟩ | ⟨id, rfl, hjob⟩ <;>
    rcases hstarts' with ⟨path', hreq, hjob'⟩ | ⟨id', hreq, hjob'⟩ <;>
    cases hreq
  · exact Option.some.inj (hjob.symm.trans hjob')
  · exact Option.some.inj (hjob.symm.trans hjob')

/-- The table does not grow while a manager thread will use its job again. -/
def GrowsIdle (cfg : SystemConfig) (g : Growth) (t : TableSystem) (event : ServerEvent) : Prop :=
  ∀ a job, event = .connection a → t.sys.ended = false → t.sys.loop = .next →
    StartsJob cfg.server a job → t.table.jobs.Grows g job.id →
      ∀ i manager, t.sys.server.managers[i]? = some manager →
        (t.sys.sessions i).pc.willUseJob = false

/-! ## What a connection does -/

namespace JobTable

variable {g : Growth} {t : JobTable}

theorem startManager_eq (g : Growth) (t : JobTable) (job : Job) :
    t.startManager g job = ⟨t.jobs.emplace g job.id job,
      t.refs ++ [(t.jobs.emplace g job.id job).slot job.id]⟩ := by
  rw [startManager, SlotMap.subscript_emplace]

/-- Inserting a job is what it is for the map. -/
theorem lookup_startManager {s : ServerState} (h : t.jobs.lookup = s.jobs) (job : Job) :
    (t.startManager g job).jobs.lookup = emplace s.jobs job.id job := by
  rw [startManager_eq, emplace, ← h]
  by_cases hmem : job.id ∈ t.jobs
  · rw [SlotMap.emplace_of_mem g hmem]
    cases hlookup : t.jobs.lookup job.id with
    | none => exact absurd hmem (SlotMap.lookup_eq_none_iff.1 hlookup)
    | some _ => rfl
  · rw [SlotMap.lookup_emplace g hmem, SlotMap.lookup_eq_none_iff.2 hmem]

end JobTable

/-- What a connection does to the table and to the server, seen side by side. -/
inductive Handled (g : Growth) (cfg : ServerConfig) (a : Accepted) (t : JobTable) (s : ServerState)
    (t' : JobTable) (s' : ServerState) : Prop
  | starts (job : Job) (manager : SocketConnection × Bytes) :
      StartsJob cfg a job → t' = t.startManager g job → s'.managers = s.managers ++ [manager] →
      manager.2 = job.id → s'.jobs = emplace s.jobs job.id job → Handled g cfg a t s t' s'
  | keeps : (∀ job, ¬ StartsJob cfg a job) → t'.refs = t.refs → t'.jobs.find = t.jobs.find →
      t'.jobs.generation = t.jobs.generation →
      (t.jobs.lookup = s.jobs → t'.jobs.lookup = s'.jobs) → s'.managers = s.managers →
      Handled g cfg a t s t' s'

theorem handled_request {g : Growth} {cfg : ServerConfig} {a : Accepted} {req : PullRequest}
    {conn : SocketConnection} (hread : requestRead cfg a.conn = some (some req, conn))
    (t : JobTable) (s : ServerState) :
    Handled g cfg a t s (t.handleRequest g cfg a req) (handleRequest cfg s a conn req) := by
  have hnone : ∀ job, StartsJob cfg a job →
      (∃ path, req = .start path ∧ Job.new a.newCalls a.newId a.now path = some job) ∨
        ∃ id, req = .continue_ id ∧ Job.load cfg.env a.openLog id = some job := by
    rintro job ⟨req', conn', hread', hstarts⟩
    rw [hread, Option.some.injEq, Prod.mk.injEq, Option.some.injEq] at hread'
    obtain ⟨rfl, -⟩ := hread'
    exact hstarts
  cases req with
  | start path =>
    rw [JobTable.handleRequest, handleRequest]
    cases hjob : Job.new a.newCalls a.newId a.now path with
    | none =>
      refine .keeps ?_ rfl rfl rfl (fun h => h) rfl
      intro job hstarts
      rcases hnone job hstarts with ⟨path', hreq, hnew⟩ | ⟨id, hreq, -⟩
      · cases hreq
        rw [hjob] at hnew
        cases hnew
      · cases hreq
    | some job =>
      exact .starts job (conn, job.id) ⟨_, conn, hread, Or.inl ⟨path, rfl, hjob⟩⟩ rfl rfl rfl rfl
  | continue_ id =>
    rw [JobTable.handleRequest, handleRequest]
    cases hjob : Job.load cfg.env a.openLog id with
    | none =>
      refine .keeps ?_ rfl rfl rfl (fun h => h) rfl
      intro job hstarts
      rcases hnone job hstarts with ⟨path, hreq, -⟩ | ⟨id', hreq, hload⟩
      · cases hreq
      · cases hreq
        rw [hjob] at hload
        cases hload
    | some job =>
      exact .starts job (conn, job.id) ⟨_, conn, hread, Or.inr ⟨id, rfl, hjob⟩⟩ rfl rfl rfl rfl
  | file id =>
    refine .keeps ?_ rfl rfl rfl ?_ ?_
    · intro job hstarts
      rcases hnone job hstarts with ⟨path, hreq, -⟩ | ⟨id', hreq, -⟩ <;> cases hreq
    · intro h
      rw [handleRequest]
      split <;> exact h
    · rw [handleRequest]
      split <;> rfl
  | success id path =>
    have hnot : ∀ job, ¬ StartsJob cfg a job := by
      intro job hstarts
      rcases hnone job hstarts with ⟨path', hreq, -⟩ | ⟨id', hreq, -⟩ <;> cases hreq
    rw [JobTable.handleRequest, handleRequest]
    refine .keeps hnot ?_ ?_ ?_ ?_ ?_
    · split <;> rfl
    · split
      · exact SlotMap.find_modify _ _ _
      · rfl
    · split <;> rfl
    · intro h
      rw [← h]
      by_cases hmem : id ∈ t.jobs
      · obtain ⟨job, -, hlookup⟩ := SlotMap.read_of_find (SlotMap.find_of_mem hmem)
        rw [SlotMap.find_of_mem hmem, hlookup]
        exact SlotMap.lookup_modify hlookup _
      · rw [SlotMap.lookup_eq_none_iff.2 hmem, SlotMap.find, if_neg hmem]
        exact h
    · split <;> rfl
  | unset =>
    refine .keeps ?_ rfl rfl rfl (fun h => h) rfl
    intro job hstarts
    rcases hnone job hstarts with ⟨path, hreq, -⟩ | ⟨id', hreq, -⟩ <;> cases hreq

theorem handled_connection (g : Growth) (cfg : ServerConfig) (a : Accepted) (t : JobTable)
    (s : ServerState) :
    Handled g cfg a t s (t.handleConnection g cfg a) (handleConnection cfg s a).1 := by
  rw [handleConnection_eq, JobTable.handleConnection]
  rcases hread : requestRead cfg a.conn with _ | ⟨_ | req, conn⟩
  · refine .keeps ?_ rfl rfl rfl (fun h => h) rfl
    rintro job ⟨req, conn, hread', -⟩
    rw [hread] at hread'
    cases hread'
  · refine .keeps ?_ rfl rfl rfl (fun h => h) rfl
    rintro job ⟨req, conn', hread', -⟩
    rw [hread] at hread'
    cases hread'
  · exact handled_request hread t s

/-! ## What a step of a thread does -/

/-- A thread that will use its job after a step was going to use it before. -/
theorem managerStep_willUseJob {cfg : SessionConfig} {s s' : SessionState}
    (h : managerStep cfg s = some s') (huse : s'.pc.willUseJob = true) :
    s.pc.willUseJob = true := by
  cases managerStep_cases h with
  | rejects hpc | starts hpc | dies hpc | handles _ _ hpc =>
    rw [hpc]
    rfl
  | sends _ _ hpc | prepares _ _ hpc | submits _ _ hpc => rwa [hpc]
  | visited | drained | finishes => cases huse

theorem sessionStep_willUseJob {cfg : SessionConfig} {s s' : SessionState} {e : SessionEvent}
    (h : sessionStep cfg s e = some s') (huse : s'.pc.willUseJob = true) :
    s.pc.willUseJob = true := by
  cases sessionStep_cases h with
  | manager hmanager => exact managerStep_willUseJob hmanager huse
  | pops | runs | finishes => exact huse

/-- What an event that is no connection leaves of the jobs. -/
structure JobsUntouched (sys sys' : ServerSystem) : Prop where
  jobs : sys'.server.jobs = sys.server.jobs
  managers : sys'.server.managers = sys.server.managers
  willUseJob : ∀ i, (sys'.sessions i).pc.willUseJob = true →
    (sys.sessions i).pc.willUseJob = true

theorem systemStep_untouched {cfg : SystemConfig} {sys sys' : ServerSystem} {event : ServerEvent}
    (hevent : ∀ a, event ≠ .connection a) (h : systemStep cfg sys event = some sys') :
    JobsUntouched sys sys' := by
  unfold systemStep at h
  split at h
  · cases h
  · cases event with
    | connection a => exact absurd rfl (hevent a)
    | pop i =>
      obtain rfl := Option.some.inj h
      exact ⟨rfl, rfl, fun _ huse => huse⟩
    | session i e =>
      simp only at h
      split at h
      · cases h
      · obtain ⟨s, hs, rfl⟩ := Option.map_eq_some_iff.1 h
        refine ⟨rfl, rfl, ?_⟩
        intro j huse
        by_cases hj : j = i
        · subst hj
          simp only [Function.update_self] at huse
          exact (sessionStep_willUseJob hs huse :)
        · simp only [Function.update_of_ne hj] at huse
          exact huse

/-! ## What holds in every run -/

/-- The table is a layout of the map of the accept loop, and each thread refers to the slot of its
job, or to one from before the table has grown. -/
structure TableInv (t : TableSystem) : Prop where
  refs : t.table.refs.length = t.sys.server.managers.length
  lookup : t.table.jobs.lookup = t.sys.server.jobs
  slots : ∀ (i : Nat) (manager : SocketConnection × Bytes) (ref : Slot),
    t.sys.server.managers[i]? = some manager → t.table.refs[i]? = some ref →
      t.table.jobs.find manager.2 = some ref ∨ ref.generation < t.table.jobs.generation

section Runs

variable {cfg : SystemConfig} {g : Growth} {t t' : TableSystem}

/-- An event of the server with its table is one of the server. -/
theorem tableStep_sys {event : ServerEvent} (h : tableStep cfg g t event = some t') :
    systemStep cfg t.sys event = some t'.sys := by
  unfold tableStep at h
  split at h
  · obtain ⟨sys', hsys, rfl⟩ := Option.map_eq_some_iff.1 h
    exact hsys
  · split at h
    · cases h
    · obtain ⟨sys', hsys, rfl⟩ := Option.map_eq_some_iff.1 h
      exact hsys
  · obtain ⟨sys', hsys, rfl⟩ := Option.map_eq_some_iff.1 h
    exact hsys
  · obtain ⟨sys', hsys, rfl⟩ := Option.map_eq_some_iff.1 h
    exact hsys

/-- An event that is no connection leaves the table as it is. -/
theorem tableStep_table {event : ServerEvent} (hevent : ∀ a, event ≠ .connection a)
    (h : tableStep cfg g t event = some t') : t'.table = t.table := by
  unfold tableStep at h
  split at h
  · next a => exact absurd rfl (hevent a)
  · split at h
    · cases h
    · obtain ⟨sys', hsys, rfl⟩ := Option.map_eq_some_iff.1 h
      rfl
  · obtain ⟨sys', hsys, rfl⟩ := Option.map_eq_some_iff.1 h
    rfl
  · obtain ⟨sys', hsys, rfl⟩ := Option.map_eq_some_iff.1 h
    rfl

/-- What a connection does. -/
theorem tableStep_connection {a : Accepted} (h : tableStep cfg g t (.connection a) = some t') :
    t'.table = t.table.handleConnection g cfg.server a ∧
      t'.sys.server = (handleConnection cfg.server t.sys.server a).1 ∧
      t'.sys.sessions = t.sys.sessions := by
  obtain ⟨sys', hsys, rfl⟩ := Option.map_eq_some_iff.1 h
  obtain ⟨-, -, rfl⟩ := systemStep_connection hsys
  exact ⟨rfl, rfl, rfl⟩

theorem tableStep_connection_some (cfg : SystemConfig) (g : Growth) {t : TableSystem}
    (hended : t.sys.ended = false) (hloop : t.sys.loop = .next) (a : Accepted) :
    ∃ t', tableStep cfg g t (.connection a) = some t' := by
  obtain ⟨sys', hsys⟩ := systemStep_connection_some cfg hended hloop a
  exact ⟨⟨sys', t.table.handleConnection g cfg.server a⟩, by rw [tableStep, hsys]; rfl⟩

/-- A session whose thread reads its job, if the step does, has every step that it has by itself. -/
theorem tableStep_session_isSome (cfg : SystemConfig) (g : Growth) {t : TableSystem}
    (hended : t.sys.ended = false) {i : Nat} {manager : SocketConnection × Bytes}
    (hmanager : t.sys.server.managers[i]? = some manager) {event : SessionEvent}
    (hreads : event = .manager → (t.sys.sessions i).pc.usesJob = true →
      (t.table.readJob i).isSome = true) :
    (tableStep cfg g t (.session i event)).isSome = (sessionStep (cfg.managed t.sys i manager)
      { t.sys.sessions i with readyFiles := t.sys.server.readyFiles } event).isSome := by
  have hsystem : (systemStep cfg t.sys (.session i event)).isSome =
      (sessionStep (cfg.managed t.sys i manager)
        { t.sys.sessions i with readyFiles := t.sys.server.readyFiles } event).isSome := by
    unfold systemStep
    rw [hended, if_neg Bool.false_ne_true]
    simp only [hmanager, Option.isSome_map]
  rw [← hsystem]
  cases event with
  | manager =>
    rw [tableStep, if_neg, Option.isSome_map]
    rw [Bool.and_eq_true, not_and, Option.isNone_iff_eq_none]
    intro huses hnone
    have hsome := hreads rfl huses
    rw [hnone] at hsome
    cases hsome
  | pop j | run j | finish j =>
    rw [tableStep, Option.isSome_map]
    rintro ⟨⟩

theorem TableInv.start (cfg : SystemConfig) : TableInv (.start cfg) := by
  refine ⟨rfl, rfl, ?_⟩
  intro i manager ref h
  cases h

theorem TableInv.step (h : TableInv t) {event : ServerEvent}
    (hstep : tableStep cfg g t event = some t') : TableInv t' := by
  by_cases hevent : ∀ a, event ≠ .connection a
  · obtain ⟨hjobs, hmanagers, -⟩ := systemStep_untouched hevent (tableStep_sys hstep)
    have htable := tableStep_table hevent hstep
    refine ⟨?_, ?_, ?_⟩
    · rw [htable, hmanagers]
      exact h.refs
    · rw [htable, hjobs]
      exact h.lookup
    · rw [htable, hmanagers]
      exact h.slots
  · push Not at hevent
    obtain ⟨a, rfl⟩ := hevent
    obtain ⟨htable, hserver, -⟩ := tableStep_connection hstep
    obtain ⟨job, manager, -, hstarts, hmanagers, hid, hjobs⟩ |
        ⟨-, hrefs, hfind, hgeneration, hlookup, hmanagers⟩ :=
      handled_connection g cfg.server a t.table t.sys.server
    · rw [JobTable.startManager_eq] at hstarts
      have hmem := SlotMap.mem_emplace g t.table.jobs job.id job
      refine ⟨?_, ?_, ?_⟩
      · rw [htable, hstarts, hserver, hmanagers, List.length_append, List.length_append, h.refs]
        rfl
      · rw [htable, hserver, hjobs, hstarts,
          ← JobTable.lookup_startManager (g := g) h.lookup job, JobTable.startManager_eq]
      · intro i manager' ref hmanager' href
        rw [hserver, hmanagers] at hmanager'
        rw [htable, hstarts] at href ⊢
        by_cases hi : i < t.sys.server.managers.length
        · rw [List.getElem?_append_left hi] at hmanager'
          rw [List.getElem?_append_left (h.refs ▸ hi)] at href
          by_cases hgrows : t.table.jobs.Grows g job.id
          · right
            rw [SlotMap.generation_emplace hgrows]
            rcases h.slots i manager' ref hmanager' href with hslot | hold
            · rw [SlotMap.generation_of_find hslot]
              exact Nat.lt_succ_self _
            · exact Nat.lt_succ_of_lt hold
          · rcases h.slots i manager' ref hmanager' href with hslot | hold
            · exact .inl (SlotMap.find_emplace hgrows hslot)
            · right
              rwa [SlotMap.generation_emplace_of_not_grows hgrows]
        · have hlt := (List.getElem?_eq_some_iff.1 hmanager').1
          rw [List.length_append, List.length_singleton] at hlt
          obtain rfl : i = t.sys.server.managers.length := by omega
          rw [List.getElem?_append_right le_rfl, Nat.sub_self] at hmanager'
          obtain rfl : manager = manager' := Option.some.inj hmanager'
          rw [List.getElem?_append_right h.refs.le, ← h.refs, Nat.sub_self] at href
          obtain rfl := Option.some.inj href
          left
          rw [hid]
          exact SlotMap.find_of_mem hmem
    · refine ⟨?_, ?_, ?_⟩
      · rw [htable, hrefs, hserver, hmanagers]
        exact h.refs
      · rw [htable, hlookup h.lookup, hserver]
      · rw [htable, hrefs, hfind, hgeneration, hserver, hmanagers]
        exact h.slots

/-- A thread that reads its job reads what is stored under its id. -/
theorem TableInv.reads (h : TableInv t) {i : Nat} {manager : SocketConnection × Bytes} {job : Job}
    (hmanager : t.sys.server.managers[i]? = some manager) (hread : t.table.readJob i = some job) :
    t.sys.server.jobs manager.2 = some job := by
  obtain ⟨v, hv, rfl⟩ := Option.map_eq_some_iff.1 hread
  obtain ⟨ref, href, hslot⟩ := Option.bind_eq_some_iff.1 hv
  rcases h.slots i manager ref hmanager href with hfind | hold
  · obtain ⟨job, hjob, hlookup⟩ := SlotMap.read_of_find hfind
    obtain rfl := Option.some.inj (hjob.symm.trans hslot)
    rw [← h.lookup]
    exact hlookup
  · unfold SlotMap.read at hslot
    rw [if_neg (Nat.ne_of_lt hold)] at hslot
    cases hslot

/-- **What a thread reads of its job** in any run, if its reference reads anything, is the job that
the accept loop has under its id. -/
theorem tableRun_reads {events : List ServerEvent}
    (hrun : Transition.script (tableStep cfg g) (.start cfg) events = some t) {i : Nat}
    {manager : SocketConnection × Bytes} {job : Job}
    (hmanager : t.sys.server.managers[i]? = some manager) (hread : t.table.readJob i = some job) :
    t.sys.server.jobs manager.2 = some job := by
  have hinv : TableInv t :=
    Transition.script_invariant (fun _ _ _ h hs => h.step hs) (.start cfg) hrun
  exact hinv.reads hmanager hread

end Runs

/-! ## Threads that keep their jobs -/

structure JobTableInv (t : TableSystem) : Prop extends TableInv t where
  live : ∀ i manager, t.sys.server.managers[i]? = some manager →
    (t.sys.sessions i).pc.willUseJob = true →
      ∃ ref, t.table.refs[i]? = some ref ∧ t.table.jobs.find manager.2 = some ref

namespace JobTableInv

variable {cfg : SystemConfig} {g : Growth} {t t' : TableSystem}

theorem start (cfg : SystemConfig) : JobTableInv (.start cfg) := by
  refine ⟨.start cfg, ?_⟩
  intro i manager h
  cases h

theorem jobsLive (h : JobTableInv t) : t.JobsLive := by
  intro i manager hmanager huse
  obtain ⟨ref, href, hfind⟩ := h.live i manager hmanager huse
  obtain ⟨job, hread, hlookup⟩ := SlotMap.read_of_find hfind
  exact ⟨ref, job, href, hfind, hread, h.lookup ▸ hlookup⟩

/-- A thread finds its slot if it has one that is not from before the table has grown. -/
theorem of_generation (h : TableInv t)
    (hnow : ∀ i manager ref, t.sys.server.managers[i]? = some manager →
      (t.sys.sessions i).pc.willUseJob = true → t.table.refs[i]? = some ref →
        ref.generation = t.table.jobs.generation) : JobTableInv t := by
  refine ⟨h, ?_⟩
  intro i manager hmanager huse
  have hlt : i < t.table.refs.length := h.refs ▸ (List.getElem?_eq_some_iff.1 hmanager).1
  have href := List.getElem?_eq_getElem hlt
  refine ⟨_, href, ?_⟩
  rcases h.slots i manager _ hmanager href with hfind | hold
  · exact hfind
  · exact absurd (hnow i manager _ hmanager huse href) (Nat.ne_of_lt hold)

theorem generation (h : JobTableInv t) {i : Nat} {manager : SocketConnection × Bytes} {ref : Slot}
    (hmanager : t.sys.server.managers[i]? = some manager)
    (huse : (t.sys.sessions i).pc.willUseJob = true) (href : t.table.refs[i]? = some ref) :
    ref.generation = t.table.jobs.generation := by
  obtain ⟨ref', href', hfind⟩ := h.live i manager hmanager huse
  obtain rfl := Option.some.inj (href.symm.trans href')
  exact SlotMap.generation_of_find hfind

theorem step (h : JobTableInv t) {event : ServerEvent} (hgood : GrowsIdle cfg g t event)
    (hstep : tableStep cfg g t event = some t') : JobTableInv t' := by
  apply of_generation (h.toTableInv.step hstep)
  intro i manager ref hmanager huse href
  by_cases hevent : ∀ a, event ≠ .connection a
  · obtain ⟨-, hmanagers, hwill⟩ := systemStep_untouched hevent (tableStep_sys hstep)
    rw [tableStep_table hevent hstep] at href ⊢
    exact h.generation (hmanagers ▸ hmanager) (hwill i huse) href
  · push Not at hevent
    obtain ⟨a, rfl⟩ := hevent
    obtain ⟨htable, hserver, hsessions⟩ := tableStep_connection hstep
    obtain ⟨hended, hloop, -⟩ := systemStep_connection (tableStep_sys hstep)
    rw [hserver] at hmanager
    rw [hsessions] at huse
    rw [htable] at href ⊢
    obtain ⟨job, manager', hstarts, hstarted, hmanagers, -, -⟩ |
        ⟨-, hrefs, -, hgeneration, -, hmanagers⟩ :=
      handled_connection g cfg.server a t.table t.sys.server
    · rw [hstarted, JobTable.startManager_eq] at href ⊢
      rw [hmanagers] at hmanager
      by_cases hi : i < t.sys.server.managers.length
      · -- An older thread keeps its slot, as the table has not grown.
        rw [List.getElem?_append_left hi] at hmanager
        rw [List.getElem?_append_left (h.refs ▸ hi)] at href
        have hidle : ¬ t.table.jobs.Grows g job.id := by
          intro hgrows
          have hnot := hgood a job rfl hended hloop hstarts hgrows i manager hmanager
          rw [huse] at hnot
          cases hnot
        rw [SlotMap.generation_emplace_of_not_grows hidle]
        exact h.generation hmanager huse href
      · have hlt := (List.getElem?_eq_some_iff.1 href).1
        rw [List.length_append, List.length_singleton, h.refs] at hlt
        obtain rfl : i = t.table.refs.length := by
          have hlen := h.refs
          omega
        rw [List.getElem?_append_right le_rfl, Nat.sub_self] at href
        obtain rfl := Option.some.inj href
        rfl
    · rw [hmanagers] at hmanager
      rw [hrefs] at href
      rw [hgeneration]
      exact h.generation hmanager huse href

/-- A run whose table grows only when no thread will use its job. -/
theorem run {events : List ServerEvent}
    (hidle : Transition.EachStep (tableStep cfg g) (GrowsIdle cfg g) (.start cfg) events)
    (hrun : Transition.script (tableStep cfg g) (.start cfg) events = some t) : JobTableInv t := by
  refine Transition.eachState_of_steps (start cfg) ?_ events [] t (List.append_nil _).symm hrun
  intro before event after t₁ t' hevents ht₁ hinv hstep
  exact hinv.step (hidle before event after t₁ hevents ht₁) hstep

/-- A table that grows while a thread will use its job leaves the thread with a stale reference. -/
theorem stale (h : JobTableInv t) {event : ServerEvent} (hbad : ¬ GrowsIdle cfg g t event) :
    ∃ t', tableStep cfg g t event = some t' ∧ ¬ t'.JobsLive := by
  unfold GrowsIdle at hbad
  push Not at hbad
  obtain ⟨a, job, rfl, hended, hloop, hstarts, hgrows, i, manager, hmanager, huse⟩ := hbad
  rw [ne_eq, Bool.not_eq_false] at huse
  obtain ⟨t', ht'⟩ := tableStep_connection_some cfg g hended hloop a
  refine ⟨t', ht', ?_⟩
  intro hlive
  obtain ⟨htable, hserver, hsessions⟩ := tableStep_connection ht'
  obtain ⟨ref, href, hfind⟩ := h.live i manager hmanager huse
  obtain ⟨job', manager', hstarts', hstarted, hmanagers, -, -⟩ | ⟨hnot, -, -, -, -, -⟩ :=
    handled_connection g cfg.server a t.table t.sys.server
  · obtain rfl := hstarts.unique hstarts'
    have hmanager' : t'.sys.server.managers[i]? = some manager := by
      rw [hserver, hmanagers, List.getElem?_append_left (List.getElem?_eq_some_iff.1 hmanager).1]
      exact hmanager
    have huse' : (t'.sys.sessions i).pc.willUseJob = true := by rwa [hsessions]
    obtain ⟨ref', job', href', hfind', -⟩ := hlive i manager hmanager' huse'
    rw [htable, hstarted, JobTable.startManager_eq] at href' hfind'
    rw [List.getElem?_append_left (List.getElem?_eq_some_iff.1 href).1, href] at href'
    obtain rfl := Option.some.inj href'
    exact SlotMap.find_emplace_of_grows hgrows hfind hfind'
  · exact hnot job hstarts

end JobTableInv

/-- **A running job keeps its `Job`** in exactly the runs in which the table never grows while a
manager thread will use its job again. -/
theorem jobsKept_iff (cfg : SystemConfig) (g : Growth) (events : List ServerEvent) :
    JobsKept cfg g events ↔
      Transition.EachStep (tableStep cfg g) (GrowsIdle cfg g) (.start cfg) events :=
  Transition.eachState_iff (fun _ => JobTableInv.jobsLive)
    (fun _ _ _ hinv hgood hstep => hinv.step hgood hstep) (fun _ _ hinv hbad => hinv.stale hbad)
    (JobTableInv.start cfg)

/-- The growth of `absl::flat_hash_map`: an eighth of the slots stays free. -/
def flatHashMap : Growth where
  limit capacity := capacity - capacity / 8
  next capacity := 2 * capacity + 1

/-- A client on the local host that starts a job. -/
def jobStart (id : Bytes) : Accepted := { requesting 1 with newId := id }

/-- A second job is started while the first is crawled. -/
def secondStart : List ServerEvent :=
  [.connection (jobStart (text "a")), .session 0 .manager, .connection (jobStart (text "b"))]

/-- The insertion of the second job leaves the crawl of the first, which has come to a file, with a
reference that reads nothing. -/
theorem second_start_strands_first :
    (∃ t, Transition.script (tableStep ticketServer flatHashMap) (.start ticketServer) secondStart =
        some t ∧ (t.sys.sessions 0).pc = .crawling [srvFile] ∧ t.table.readJob 0 = none) ∧
      ¬ JobsKept ticketServer flatHashMap secondStart := by
  have hrun : (Transition.script (tableStep ticketServer flatHashMap) (.start ticketServer)
      secondStart).map (fun t => ((t.sys.sessions 0).pc, t.table.readJob 0,
        t.sys.server.managers.map Prod.snd)) =
      some (.crawling [srvFile], none, [text "a", text "b"]) := rfl
  obtain ⟨t, ht, hfacts⟩ := Option.map_eq_some_iff.1 hrun
  rw [Prod.mk.injEq, Prod.mk.injEq] at hfacts
  obtain ⟨hpc, hread, hmanagers⟩ := hfacts
  refine ⟨⟨t, ht, hpc, hread⟩, fun hkept => ?_⟩
  have hlive := hkept secondStart [] t (List.append_nil _).symm ht
  have hmanager : ∃ manager, t.sys.server.managers[0]? = some manager := by
    cases hlist : t.sys.server.managers with
    | nil =>
      rw [hlist] at hmanagers
      cases hmanagers
    | cons manager managers => exact ⟨manager, rfl⟩
  obtain ⟨manager, hmanager⟩ := hmanager
  obtain ⟨ref, job, href, -, hjob, -⟩ := hlive 0 manager hmanager (by rw [hpc]; rfl)
  rw [JobTable.readJob, href, Option.bind_some, hjob] at hread
  cases hread

end Netpull
