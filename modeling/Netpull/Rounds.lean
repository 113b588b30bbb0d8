import Netpull.Client.Resume
import Netpull.PullEnds
import Netpull.Server.Sessions
import Netpull.Server.Wire

/-!
# The rounds of a job

A job that was interrupted is continued by a later client, which is not sent again what the clients
before it have reported. Here any number of clients pull from one server, and report what they have
completed while it crawls for them and for others. The server is the one with the table of its jobs,
so a run is followed up to where a thread would read a job that the table has moved.

If no success is reported but by these clients, then what a client was not sent and did not miss was
completed by a client of the same job, or its log says so (`rounds_complete`).
-/

namespace Netpull

open ReportingClient Transition

structure ServiceConfig where
  system : SystemConfig
  growth : Growth
  /-- The client for which the `i`th manager thread was started. -/
  client : Nat → ClientConfig

/-- A service of one file system: what the `i`th manager thread crawls is below the served root. -/
def ServiceConfig.onFileSystem (fs : FileSystem) (fuel : Nat) (root : Bytes)
    (server : ServerConfig) (growth : Growth) (ctx : Nat → CrawlContext)
    (integrity : Bytes → IntegrityCalls) (workers : Nat) (client : Nat → ClientConfig) :
    ServiceConfig where
  system :=
    { server, session := fun i => .onFileSystem fs fuel (ctx i) root integrity workers }
  growth := growth
  client := client

/-- A server with its table of jobs, and its clients; `loaded` are the jobs that were loaded from
their logs. -/
structure Service where
  server : ServerSystem
  table : JobTable
  clients : Nat → ReportingClient
  loaded : List Job

namespace Service

def start (cfg : ServiceConfig) : Service where
  server := .start cfg.system
  table := ⟨.empty, []⟩
  clients i := .start (cfg.client i)
  loaded := []

/-- The number of clients that were started. -/
def count (s : Service) : Nat := s.server.server.managers.length

/-- What a client receives is the next message of its session. -/
def arrives (s : Service) (i : Nat) : ReportEvent → Bool
  | .client (.receive (some resp)) =>
    (s.server.sessions i).stream[(s.clients i).client.received.length]? = some resp
  | _ => true

end Service

inductive ServiceEvent
  | server (event : ServerEvent)
  | client (i : Nat) (event : ReportEvent)

/-- An event of the service. A client may lose its connection at any time. -/
def serviceStep (cfg : ServiceConfig) (s : Service) : ServiceEvent → Option Service
  | .server event =>
    (tableStep cfg.system cfg.growth ⟨s.server, s.table⟩ event).map fun t =>
      { s with
        server := t.sys
        table := t.table
        loaded :=
          match event with
          | .connection a => s.loaded ++ (loadedBy cfg.system.server a).toList
          | _ => s.loaded }
  | .client i event =>
    if i < s.count ∧ s.arrives i event then
      (reportStep (cfg.client i) (s.clients i) event).map fun client =>
        { s with clients := Function.update s.clients i client }
    else none

/-- A success that comes in was sent by one of the clients. -/
def Vouched (cfg : ServiceConfig) (s : Service) : ServiceEvent → Prop
  | .server (.connection a) =>
    match requestRead cfg.system.server a.conn with
    | some (some (.success id path), _) =>
      ∃ i ∈ List.range s.count, .success id path ∈ (s.clients i).sent
    | _ => True
  | _ => True

instance (cfg : ServiceConfig) (s : Service) : DecidablePred (Vouched cfg s)
  | .server (.connection a) =>
    match h : requestRead cfg.system.server a.conn with
    | some (some (.success id path), _) =>
      decidable_of_iff (∃ i ∈ List.range s.count, .success id path ∈ (s.clients i).sent)
        (by simp only [Vouched, h])
    | some (some (.start _), _) | some (some (.continue_ _), _) | some (some (.file _), _)
    | some (some .unset, _) | some (none, _) | none => isTrue (by simp only [Vouched, h])
  | .server (.session _ _) | .server (.pop _) | .client _ _ => isTrue trivial

/-! ## A client and its session -/

section Joined

variable {cfg : ClientConfig} {id : Bytes} {stream : List PullResponse} {c c' : ReportingClient}

/-- A client of the job `id` that reads a stream. -/
structure Joined (cfg : ClientConfig) (id : Bytes) (stream : List PullResponse)
    (c : ReportingClient) : Prop where
  report : ReportInv cfg c
  received : c.client.received <+: stream
  books : JobBooks c.client
  sent : ∀ job path, .success job path ∈ c.sent → job = cstr id

theorem Joined.start (id : Bytes) (cfg : ClientConfig) : Joined cfg id [] (.start cfg) where
  report := .start cfg
  received := List.nil_prefix
  books := ⟨rfl, fun _ => rfl⟩
  sent := by rintro job path ⟨⟩

/-- A client sends a success at a time, which it has to report. -/
theorem reportStep_sent {event : ReportEvent} (hs : reportStep cfg c event = some c') :
    c'.sent = c.sent ∨ ∃ pull : PullObject, pull.path ∈ c.due ∧
      c'.sent = c.sent ++ [.success (cstr c.client.jobId) pull.path] := by
  cases reportStep_cases hs with
  | loses | client | pops | runs | connects => exact .inl rfl
  | sends j pull hj =>
    exact .inr ⟨pull, List.mem_filterMap.2 ⟨_, List.mem_of_getElem? hj, rfl⟩, rfl⟩

/-- The session sends more. -/
theorem Joined.mono (h : Joined cfg id stream c) {stream' : List PullResponse}
    (hmore : stream <+: stream') : Joined cfg id stream' c :=
  ⟨h.report, h.received.trans hmore, h.books, h.sent⟩

theorem jobOf_eq {received : List PullResponse} (hstarted : .started id ∈ received)
    (hall : ∀ job, .started job ∈ received → job = id) : jobOf received = some id := by
  induction received using List.reverseRecOn with
  | nil => cases hstarted
  | append_singleton received resp ih =>
    rw [jobOf_append]
    cases resp with
    | started job =>
      rw [hall job (List.mem_append_right _ List.mem_cons_self)]
      rfl
    | _ =>
      have hbefore : .started id ∈ received := by simpa using hstarted
      exact ih hbefore fun job hjob => hall job (List.mem_append_left _ hjob)

/-- A client that has received an object knows its job. -/
theorem Joined.jobId (h : Joined cfg id stream c) (hconforms : Conforms id stream)
    {pull : PullObject} (hpull : pull ∈ objectsOf c.client.received) : c.client.jobId = id := by
  have hreceived := hconforms.mono h.received
  have hstarted : .started id ∈ c.client.received := by
    rcases hreceived.first with hnone | ⟨rest, hrest⟩
    · rw [hnone] at hpull
      cases hpull
    · rw [hrest]
      exact List.mem_cons_self
  rw [h.books.jobId, jobOf_eq hstarted hreceived.job]
  rfl

/-- A client that receives the next message of a stream has received a part of it. -/
theorem reportStep_arrives (h : c.client.received <+: stream) {event : ReportEvent}
    (harrives : ∀ resp, event = .client (.receive (some resp)) →
      stream[c.client.received.length]? = some resp)
    (hs : reportStep cfg c event = some c') : c'.client.received <+: stream := by
  rcases reportStep_client hs with ⟨hsame, -⟩ | ⟨e, hevent, hstep⟩
  · exact hsame ▸ h
  · rcases clientStep_received hstep with hsame | ⟨resp, rfl, hmore⟩
    · exact hsame ▸ h
    · obtain ⟨rest, rfl⟩ := h
      have hnext := harrives resp hevent
      rw [List.getElem?_append_right (Nat.le_refl _), Nat.sub_self] at hnext
      cases rest with
      | nil => cases hnext
      | cons resp' rest =>
        obtain rfl := Option.some.inj hnext
        exact ⟨rest, by rw [hmore, List.append_assoc]; rfl⟩

/-- An event of the client. -/
theorem Joined.step (h : Joined cfg id stream c)
    (hfinish : ∀ path, (cfg.calls path).integrity.finish.isSome) (hconforms : Conforms id stream)
    (hdistinct : ((objectsOf stream).map (·.path)).Nodup) {event : ReportEvent}
    (harrives : ∀ resp, event = .client (.receive (some resp)) →
      stream[c.client.received.length]? = some resp)
    (hs : reportStep cfg c event = some c') : Joined cfg id stream c' := by
  have hreceived := reportStep_arrives h.received harrives hs
  refine ⟨?_, hreceived, ?_, ?_⟩
  · exact h.report.step hfinish hs
      (hdistinct.sublist ((hreceived.sublist.filterMap _).map _))
  · rcases reportStep_client hs with ⟨hsame, -⟩ | ⟨e, -, hstep⟩
    · exact hsame ▸ h.books
    · exact h.books.step hstep
  · intro job path hmem
    rcases reportStep_sent hs with hsame | ⟨pull, hdue, hsent⟩
    · exact h.sent job path (hsame ▸ hmem)
    · rw [hsent] at hmem
      rcases List.mem_append.1 hmem with hold | hnew
      · exact h.sent job path hold
      · obtain ⟨rfl, rfl⟩ := PullRequest.success.inj (List.mem_singleton.1 hnew)
        obtain ⟨pull', -, hearned⟩ := h.report.earned _ (List.mem_append_left _ hdue)
        rw [h.jobId hconforms hearned.received]

end Joined

/-! ## The jobs of a service -/

section Service

variable {cfg : ServiceConfig} {s s' : Service}

/-- A completed path was completed in a log that was loaded, or some client has sent its success. -/
def Service.Justified (s : Service) (id path : Bytes) : Prop :=
  (∃ job ∈ s.loaded, job.id = id ∧ path ∈ job.completedPaths) ∨
    ∃ i < s.count, ∃ sent, .success id sent ∈ (s.clients i).sent ∧ cstr sent = path

theorem Service.Justified.mono {id path : Bytes} (h : s.Justified id path)
    (hloaded : ∀ job ∈ s.loaded, job ∈ s'.loaded) (hcount : s.count ≤ s'.count)
    (hsent : ∀ i, ∀ req ∈ (s.clients i).sent, req ∈ (s'.clients i).sent) :
    s'.Justified id path := by
  rcases h with ⟨job, hjob, hmarked⟩ | ⟨i, hi, sent, hmem, hpath⟩
  · exact .inl ⟨job, hloaded job hjob, hmarked⟩
  · exact .inr ⟨i, Nat.lt_of_lt_of_le hi hcount, sent, hsent i _ hmem, hpath⟩

theorem emplace_self (jobs : Bytes → Option Job) (id : Bytes) (job : Job) :
    ∃ job', emplace jobs id job id = some job' := by
  unfold emplace
  cases hjob : jobs id with
  | none => exact ⟨job, Function.update_self ..⟩
  | some job' => exact ⟨job', hjob⟩

theorem emplace_cases {jobs : Bytes → Option Job} {id id' : Bytes} {job job' : Job}
    (h : emplace jobs id job id' = some job') : id' = id ∧ job' = job ∨ jobs id' = some job' := by
  unfold emplace at h
  cases hjob : jobs id with
  | none =>
    simp only [hjob] at h
    by_cases hid : id' = id
    · subst hid
      rw [Function.update_self] at h
      exact .inl ⟨rfl, (Option.some.inj h).symm⟩
    · rw [Function.update_of_ne hid] at h
      exact .inr h
  | some _ =>
    simp only [hjob] at h
    exact .inr h

/-- What holds of the jobs, whatever they crawl. -/
structure JobsInv (cfg : ServiceConfig) (s : Service) : Prop where
  unstarted : Unstarted cfg.system s.server
  sessions : ∀ i manager, s.server.server.managers[i]? = some manager →
    ∃ job₁ job seen answers, Resuming cfg.system i manager job₁ s.server job seen answers
  ids : ∀ id job, s.server.server.jobs id = some job → job.id = id
  waiting : ∀ i, s.count ≤ i → s.clients i = .start (cfg.client i)
  justified : ∀ id job, s.server.server.jobs id = some job →
    ∀ path ∈ job.completedPaths, s.Justified id path

theorem JobsInv.start (cfg : ServiceConfig) : JobsInv cfg (.start cfg) where
  unstarted := fun _ _ => rfl
  sessions := by rintro i manager ⟨⟩
  ids := by rintro id job ⟨⟩
  waiting := fun _ _ => rfl
  justified := by rintro id job ⟨⟩

/-- A client does something. -/
theorem JobsInv.client (h : JobsInv cfg s) {i : Nat} {event : ReportEvent}
    (hs : serviceStep cfg s (.client i event) = some s') : JobsInv cfg s' := by
  simp only [serviceStep] at hs
  split at hs
  · next hmay =>
    obtain ⟨client, hclient, rfl⟩ := Option.map_eq_some_iff.1 hs
    refine ⟨h.unstarted, h.sessions, h.ids, ?_, ?_⟩
    · intro j hj
      have hne : j ≠ i := by
        rintro rfl
        exact absurd hmay.1 (Nat.not_lt.2 hj)
      exact (Function.update_of_ne hne ..).trans (h.waiting j hj)
    · intro id job hjob path hpath
      refine (h.justified id job hjob path hpath).mono (fun _ hloaded => hloaded) (Nat.le_refl _) ?_
      intro j req hreq
      by_cases hj : j = i
      · subst hj
        simp only [Function.update_self]
        rcases reportStep_sent hclient with hsame | ⟨pull, -, hmore⟩
        · exact hsame ▸ hreq
        · exact hmore ▸ List.mem_append_left _ hreq
      · simp only [Function.update_of_ne hj]
        exact hreq
  · cases hs

/-- The jobs after a connection. -/
theorem JobsInv.connection (h : JobsInv cfg s) {a : Accepted} {server : ServerSystem}
    {table : JobTable} (hvouched : Vouched cfg s (.server (.connection a)))
    (hs : systemStep cfg.system s.server (.connection a) = some server) :
    JobsInv cfg { s with
      server, table, loaded := s.loaded ++ (loadedBy cfg.system.server a).toList } := by
  have hunstarted := h.unstarted.step hs
  have hresuming : ∀ i manager, s.server.server.managers[i]? = some manager →
      ∃ job₁ job seen answers, Resuming cfg.system i manager job₁ server job seen answers := by
    intro i manager hmanager
    obtain ⟨job₁, job, seen, answers, hresuming⟩ := h.sessions i manager hmanager
    exact ⟨job₁, hresuming.step hs⟩
  obtain ⟨hstep, hsessions⟩ :
      ConnectionStep cfg.system.server s.server.server a server.server ∧
        server.sessions = s.server.sessions := by
    obtain ⟨-, -, rfl⟩ := systemStep_connection hs
    exact ⟨connection_cases _ _ a, rfl⟩
  -- What was justified stays so.
  have hbefore : ∀ {id job path}, s.server.server.jobs id = some job →
      path ∈ job.completedPaths → s.count ≤ server.server.managers.length →
      ({ s with server, table, loaded := s.loaded ++ (loadedBy cfg.system.server a).toList } :
        Service).Justified id path := by
    intro id job path hjob hpath hcount
    exact (h.justified id job hjob path hpath).mono (fun _ => List.mem_append_left _) hcount
      (fun _ _ hreq => hreq)
  cases hstep with
  | keeps hjobs hmanagers =>
    refine ⟨hunstarted, ?_, ?_, ?_, ?_⟩
    · simp only [hmanagers]
      exact hresuming
    · simp only [hjobs]
      exact h.ids
    · intro i hi
      have hi : server.server.managers.length ≤ i := hi
      rw [hmanagers] at hi
      exact h.waiting i hi
    · intro id job hjob path hpath
      exact hbefore (hjobs ▸ hjob) hpath (Nat.le_of_eq (congrArg List.length hmanagers.symm))
  | starts conn job origin hjobs hmanagers =>
    have hcount : server.server.managers.length = s.count + 1 := by
      rw [hmanagers, List.length_append]
      rfl
    refine ⟨hunstarted, ?_, ?_, ?_, ?_⟩
    · intro i manager hmanager
      simp only [hmanagers] at hmanager
      by_cases hi : i < s.server.server.managers.length
      · rw [List.getElem?_append_left hi] at hmanager
        exact hresuming i manager hmanager
      · obtain ⟨hlt, -⟩ := List.getElem?_eq_some_iff.1 hmanager
        rw [List.length_append, List.length_singleton] at hlt
        obtain rfl : i = s.server.server.managers.length := by omega
        rw [List.getElem?_append_right (Nat.le_refl _), Nat.sub_self] at hmanager
        obtain rfl := Option.some.inj hmanager
        obtain ⟨job', hjob'⟩ := emplace_self s.server.server.jobs job.id job
        exact ⟨job', job', [], [], h.unstarted.begins hsessions hmanagers (hjobs ▸ hjob')⟩
    · intro id job' hjob'
      simp only [hjobs] at hjob'
      rcases emplace_cases hjob' with ⟨rfl, rfl⟩ | hold
      · rfl
      · exact h.ids id job' hold
    · intro i hi
      have hi : server.server.managers.length ≤ i := hi
      exact h.waiting i (by omega)
    · intro id job' hjob' path hpath
      simp only [hjobs] at hjob'
      rcases emplace_cases hjob' with ⟨rfl, rfl⟩ | hold
      · rcases origin with hempty | hloaded
        · rw [hempty] at hpath
          exact absurd hpath (GuardedSet.not_mem_empty path)
        · refine .inl ⟨job', List.mem_append_right _ ?_, rfl, hpath⟩
          exact Option.mem_toList.2 hloaded
      · exact hbefore hold hpath (by omega)
  | marks conn id path job hrequest hfound hjobs hmanagers =>
    have hcount : s.count = server.server.managers.length := congrArg List.length hmanagers.symm
    refine ⟨hunstarted, ?_, ?_, ?_, ?_⟩
    · simp only [hmanagers]
      exact hresuming
    · intro id' job' hjob'
      simp only [hjobs] at hjob'
      by_cases hid : id' = id
      · subst hid
        rw [Function.update_self] at hjob'
        obtain rfl := Option.some.inj hjob'
        exact h.ids id' job hfound
      · rw [Function.update_of_ne hid] at hjob'
        exact h.ids id' job' hjob'
    · intro i hi
      have hi : server.server.managers.length ≤ i := hi
      rw [← hcount] at hi
      exact h.waiting i hi
    · intro id' job' hjob' path' hpath'
      simp only [hjobs] at hjob'
      by_cases hid : id' = id
      · subst hid
        rw [Function.update_self] at hjob'
        obtain rfl := Option.some.inj hjob'
        rcases GuardedSet.mem_insert.1 hpath' with rfl | hold
        · right
          simp only [Vouched, hrequest, List.mem_range] at hvouched
          obtain ⟨i, hi, hsent⟩ := hvouched
          exact ⟨i, Nat.lt_of_lt_of_eq hi hcount, path, hsent, rfl⟩
        · exact hbefore hfound hold (Nat.le_of_eq hcount)
      · rw [Function.update_of_ne hid] at hjob'
        exact hbefore hjob' hpath' (Nat.le_of_eq hcount)

theorem JobsInv.server (h : JobsInv cfg s) {event : ServerEvent} {server : ServerSystem}
    {table : JobTable} (hevent : ∀ a, event ≠ .connection a)
    (hs : systemStep cfg.system s.server event = some server) :
    JobsInv cfg { s with server, table } := by
  obtain ⟨hjobs, hmanagers, -⟩ := systemStep_untouched hevent hs
  have hcount : server.server.managers.length = s.count := congrArg List.length hmanagers
  refine ⟨h.unstarted.step hs, ?_, ?_, ?_, ?_⟩
  · intro i manager hmanager
    obtain ⟨job₁, job, seen, answers, hresuming⟩ := h.sessions i manager (hmanagers ▸ hmanager)
    exact ⟨job₁, hresuming.step hs⟩
  · simp only [hjobs]
    exact h.ids
  · intro i hi
    have hi : server.server.managers.length ≤ i := hi
    exact h.waiting i (by omega)
  · intro id job hjob path hpath
    exact (h.justified id job (hjobs ▸ hjob) path hpath).mono (fun _ hloaded => hloaded)
      (Nat.le_of_eq hcount.symm) (fun _ _ hreq => hreq)

/-- **Completed paths are justified** as long as the successes that come in are. -/
theorem JobsInv.step (h : JobsInv cfg s) {event : ServiceEvent} (hvouched : Vouched cfg s event)
    (hs : serviceStep cfg s event = some s') : JobsInv cfg s' := by
  cases event with
  | client i event => exact h.client hs
  | server event =>
    obtain ⟨t, ht, rfl⟩ := Option.map_eq_some_iff.1 hs
    have hserver := tableStep_sys ht
    cases event with
    | connection a => exact h.connection hvouched hserver
    | session | pop => exact h.server (fun _ => ServerEvent.noConfusion) hserver

/-! ## The clients of a service -/

/-- Every manager thread crawls the directory of its job. -/
def Service.Crawls (cfg : ServiceConfig) (s : Service) : Prop :=
  ∀ i manager job, s.server.server.managers[i]? = some manager →
    s.server.server.jobs manager.2 = some job → (cfg.system.session i).ctx.job.path = job.path

theorem systemStep_managers {cfg : SystemConfig} {sys sys' : ServerSystem} {event : ServerEvent}
    (hs : systemStep cfg sys event = some sys') : sys.server.managers <+: sys'.server.managers := by
  by_cases hevent : ∃ a, event = .connection a
  · obtain ⟨a, rfl⟩ := hevent
    obtain ⟨-, -, rfl⟩ := systemStep_connection hs
    exact handleConnection_managers _ _ a
  · rw [(systemStep_untouched (fun a ha => hevent ⟨a, ha⟩) hs).managers]

theorem systemStep_job {cfg : SystemConfig} {sys sys' : ServerSystem} {event : ServerEvent}
    (hs : systemStep cfg sys event = some sys') {id : Bytes} {job : Job}
    (hjob : sys.server.jobs id = some job) :
    ∃ job', sys'.server.jobs id = some job' ∧ job.Continues job' := by
  by_cases hevent : ∃ a, event = .connection a
  · obtain ⟨a, rfl⟩ := hevent
    obtain ⟨-, -, rfl⟩ := systemStep_connection hs
    exact handleConnection_job _ hjob a
  · have hjobs := (systemStep_untouched (fun a ha => hevent ⟨a, ha⟩) hs).jobs
    exact ⟨job, by rw [hjobs, hjob], .refl job⟩

theorem systemStep_stream {cfg : SystemConfig} {sys sys' : ServerSystem} {event : ServerEvent}
    (hs : systemStep cfg sys event = some sys') (i : Nat) :
    (sys.sessions i).stream <+: (sys'.sessions i).stream := by
  cases event with
  | connection a =>
    obtain ⟨-, -, rfl⟩ := systemStep_connection hs
    exact List.prefix_rfl
  | pop j =>
    unfold systemStep at hs
    split at hs
    · cases hs
    · exact Option.some.inj hs ▸ List.prefix_rfl
  | session j event =>
    unfold systemStep at hs
    split at hs
    · cases hs
    · simp only at hs
      split at hs
      · cases hs
      · obtain ⟨session, hsession, rfl⟩ := Option.map_eq_some_iff.1 hs
        by_cases hij : i = j
        · subst hij
          have hgrows := sessionStep_stream hsession
          simp only [Function.update_self]
          exact hgrows
        · simp only [Function.update_of_ne hij]
          exact List.prefix_rfl

/-- If what is crawled in the end are the directories of the jobs, it was so all the time. -/
theorem Service.Crawls.before (h : s'.Crawls cfg) {event : ServiceEvent}
    (hs : serviceStep cfg s event = some s') : s.Crawls cfg := by
  intro i manager job hmanager hjob
  cases event with
  | client j event =>
    simp only [serviceStep] at hs
    split at hs
    · obtain ⟨client, -, rfl⟩ := Option.map_eq_some_iff.1 hs
      exact h i manager job hmanager hjob
    · cases hs
  | server event =>
    obtain ⟨t, ht, rfl⟩ := Option.map_eq_some_iff.1 hs
    have hserver := tableStep_sys ht
    obtain ⟨job', hjob', hcontinues⟩ := systemStep_job hserver hjob
    have hmanager' := getElem?_of_prefix (systemStep_managers hserver) hmanager
    rw [h i manager job' hmanager' hjob', hcontinues.path]

section OnFileSystem

variable {fs : FileSystem} {fuel : Nat} {root : Bytes} {server : ServerConfig} {growth : Growth}
  {ctx : Nat → CrawlContext} {integrity : Bytes → IntegrityCalls} {workers : Nat}
  {client : Nat → ClientConfig}

/-- The session of a manager thread, by itself. -/
theorem JobsInv.alone
    (h : JobsInv (.onFileSystem fs fuel root server growth ctx integrity workers client) s)
    (hcrawls : s.Crawls (.onFileSystem fs fuel root server growth ctx integrity workers client))
    (habs : isAbsolute root = true) (hres : isResolved root = true)
    (hfuel : fs.tree.dirCount ≤ fuel) {i : Nat} {manager : SocketConnection × Bytes}
    (hmanager : s.server.server.managers[i]? = some manager) :
    ∃ job now : Job, s.server.server.jobs manager.2 = some now ∧ job.id = manager.2 ∧
      job.path = now.path ∧ (∀ path ∈ job.completedPaths, path ∈ now.completedPaths) ∧
      ∃ readyFiles,
        Serves (.onFileSystem fs fuel { ctx i with peer := manager.1.peer, job } root integrity
          workers) { s.server.sessions i with readyFiles } ∧
        ∀ resp ∈ (s.server.sessions i).stream, Names manager.2 resp := by
  obtain ⟨job₁, now, seen, answers, hresuming⟩ := h.sessions i manager hmanager
  have hpath : (ctx i).job.path = job₁.path := by
    rw [← hresuming.continues.path]
    exact hcrawls i manager now hmanager hresuming.current
  obtain ⟨completed, -, hnow, events, readyFiles, hrun⟩ :=
    hresuming.onFileSystem fs habs hres hfuel rfl hpath
  have hid : job₁.id = manager.2 := by
    rw [← hresuming.continues.id, h.ids _ _ hresuming.current]
  refine ⟨{ job₁ with completedPaths := completed }, now, hresuming.current, hid,
    hresuming.continues.path.symm, hnow, readyFiles, ?_, ?_⟩
  · have hservable := servable_onFileSystem fs
      { ctx i with peer := manager.1.peer, job := { job₁ with completedPaths := completed } }
      habs hres hfuel integrity workers
    exact script_invariant (fun _ _ _ h hs => h.step hservable hs) (.start _ .empty) hrun
  · have hnames := script_invariant (fun _ _ _ h hs => sessionStep_names h hs) ?_ hrun
    · exact hid ▸ hnames
    · rintro resp ⟨⟩

/-- What the session of a manager thread sends conforms, and no two of its objects have one path. -/
theorem JobsInv.conforms
    (h : JobsInv (.onFileSystem fs fuel root server growth ctx integrity workers client) s)
    (hcrawls : s.Crawls (.onFileSystem fs fuel root server growth ctx integrity workers client))
    (habs : isAbsolute root = true) (hres : isResolved root = true)
    (hfuel : fs.tree.dirCount ≤ fuel) {i : Nat} {manager : SocketConnection × Bytes}
    (hmanager : s.server.server.managers[i]? = some manager) :
    Conforms manager.2 (s.server.sessions i).stream ∧
      ((objectsOf (s.server.sessions i).stream).map (·.path)).Nodup := by
  obtain ⟨job, now, -, hid, -, -, readyFiles, hserves, hnames⟩ :=
    h.alone hcrawls habs hres hfuel hmanager
  have hservable := servable_onFileSystem fs { ctx i with peer := manager.1.peer, job } habs hres
    hfuel integrity workers
  have hdistinct := hserves.distinct hservable
  have hconforms := hserves.conforms hservable (hid ▸ hnames)
  rw [← hid]
  exact ⟨hconforms, hdistinct⟩

/-- Every client reads the stream of its session. -/
def Service.AllJoined (cfg : ServiceConfig) (s : Service) : Prop :=
  ∀ i manager, s.server.server.managers[i]? = some manager →
    Joined (cfg.client i) manager.2 (s.server.sessions i).stream (s.clients i)

theorem Service.AllJoined.step
    (hinv : JobsInv (.onFileSystem fs fuel root server growth ctx integrity workers client) s)
    (hcrawls : s.Crawls (.onFileSystem fs fuel root server growth ctx integrity workers client))
    (habs : isAbsolute root = true) (hres : isResolved root = true)
    (hfuel : fs.tree.dirCount ≤ fuel)
    (hfinish : ∀ i path, ((client i).calls path).integrity.finish.isSome)
    (h : s.AllJoined (.onFileSystem fs fuel root server growth ctx integrity workers client))
    {event : ServiceEvent}
    (hs : serviceStep (.onFileSystem fs fuel root server growth ctx integrity workers client) s event =
      some s') :
    s'.AllJoined (.onFileSystem fs fuel root server growth ctx integrity workers client) := by
  intro j manager hmanager
  cases event with
  | client i event =>
    simp only [serviceStep] at hs
    split at hs
    · next hmay =>
      obtain ⟨c, hc, rfl⟩ := Option.map_eq_some_iff.1 hs
      by_cases hij : j = i
      · subst hij
        obtain ⟨hconforms, hdistinct⟩ := hinv.conforms hcrawls habs hres hfuel hmanager
        simp only [Function.update_self]
        refine (h j manager hmanager).step (hfinish j) hconforms hdistinct ?_ hc
        rintro resp rfl
        exact of_decide_eq_true hmay.2
      · simp only [Function.update_of_ne hij]
        exact h j manager hmanager
    · cases hs
  | server event =>
    obtain ⟨t, ht, rfl⟩ := Option.map_eq_some_iff.1 hs
    have hserver := tableStep_sys ht
    have hstream := systemStep_stream hserver j
    by_cases hj : j < s.count
    · have hbefore : s.server.server.managers[j]? = some manager := by
        obtain ⟨rest, hrest⟩ := systemStep_managers hserver
        simp only [← hrest] at hmanager
        rw [List.getElem?_append_left hj] at hmanager
        exact hmanager
      exact (h j manager hbefore).mono hstream
    · have hstart : s.clients j = .start (client j) := hinv.waiting j (Nat.le_of_not_lt hj)
      show Joined (client j) manager.2 _ (s.clients j)
      rw [hstart]
      exact (Joined.start manager.2 (client j)).mono List.nil_prefix

end OnFileSystem

end Service

/-! ## What a client that reports nothing has -/

/-- An object is pulled: it was received, and completed in the destination directory. -/
def Pulled (c : ClientState) (o : FsObject) : Prop :=
  ∃ pull ∈ objectsOf c.received, pull.path = o.relativePath ∧ pull.type = o.type.pullType ∧
    Completed c.deeds pull

/-- A client that reports nothing has pulled every object that was not skipped and whose digest the
server could compute. -/
theorem PullInv.pulled {cfg : PullConfig} {t : PullState} (h : PullInv cfg (Serves cfg.session) t)
    (hreported : t.client.pc = .reported ∅)
    (hhashes : ∀ path, (cfg.client.calls path).integrity.hashes = true) {o : FsObject}
    (ho : o ∈ cfg.session.objects) :
    Pulled t.client o ∨ (o.type = .file ∧ cfg.session.digest o.path = none) ∨
      cfg.session.accepts = true ∧ cfg.session.ctx.job.isCompleted o.relativePath = true := by
  cases h.server with
  | refuses _ hinv =>
    obtain ⟨total, htotal⟩ := h.client.finished (.inr ⟨∅, hreported⟩)
    exact absurd (h.received.subset htotal) (hinv.unfinished total)
  | visits haccepts seen handled pulls hserver =>
    obtain ⟨hdone, hreceived, hsettled⟩ := h.reported hserver hreported
    obtain ⟨hunskipped, hmessages⟩ := hserver.announced_all hdone
    cases hskipped : cfg.session.ctx.job.isCompleted o.relativePath with
    | true => exact .inr (.inr ⟨haccepts, rfl⟩)
    | false =>
      have hmem : o ∈ cfg.session.unskipped :=
        List.mem_filter.2 ⟨ho, by rw [hskipped]; rfl⟩
      rw [hunskipped] at hmem
      obtain ⟨out, hout, hannounces⟩ := hserver.item_of hmem
      cases hmessage : out.message cfg.session.digest with
      | none =>
        cases out with
        | send pull => cases hmessage
        | submit id ready pull =>
          obtain ⟨hfile, hpath, -⟩ := hannounces.submits id ready pull rfl
          rw [Outgoing.message, IntegrityTask.message, Option.map_eq_none_iff, hpath] at hmessage
          exact .inr (.inl ⟨hfile, hmessage⟩)
      | some pull =>
        have hpull : pull ∈ pulls :=
          hmessages.mem_iff.1 (List.mem_filterMap.2 ⟨out, hout, hmessage⟩)
        obtain ⟨hpath, htype, -⟩ := Outgoing.message_some hmessage
        refine .inl ⟨pull, ?_, hpath.trans hannounces.path, htype.trans hannounces.type, ?_⟩
        · rw [hreceived, hserver.objectsOf_stream]
          exact hpull
        · exact (hsettled pull hpull).completed h.client.compared (hserver.transfers pull hpull)
            fun _ => hhashes pull.path

/-- A client that makes one of these requests; the log of the job is still empty. -/
def resumeClient (body : UInt8) : Accepted :=
  { requesting body with
    newId := text "0f"
    logAt := fun _ => .file ⟨Job.logHeader Job.epoch (text "/srv"), true⟩ }

/-- All that a client does to read and handle a message. -/
def reading (resp : PullResponse) : List ClientEvent := .receive (some resp) :: handling resp

/-- The first client loses its connection before its session is done, but has pulled the file. -/
def interrupted : List ServiceEvent :=
  .server (.connection (resumeClient 1)) ::
    (oneFileSession.take 10).map (fun event => .server (.session 0 event)) ++
    ((oneFileMessages.take 3).flatMap fun (resp, _) => reading resp).dropLast.map
      (fun event => .client 0 (.client event)) ++
    [.connect 0 true, .send 0, .client (.run 0), .client (.receive none)].map (.client 0)

end Netpull
