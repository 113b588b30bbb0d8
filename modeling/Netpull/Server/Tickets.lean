import Mathlib.Data.Nat.Pairing
import Netpull.Server.Admission
import Netpull.Server.RequestedPath

/-!
# Tickets for files

A crawler puts a file it announces under a fresh id into the ready files, and the client that
redeems the id gets the file. Any number of jobs and the accept loop share the ready files; the
system has one event for each atomic step of a job's threads, for each connection the accept loop
takes, and for each task a worker takes off the queue.

`tickets_sound` says that every ticket is redeemed once at most, by the client it was issued to, for
the file it was issued for, and that nobody else can spoil it.
-/

namespace Netpull

/-- What the server works with; the job of the `i`th manager thread is crawled as `session i` says. -/
structure SystemConfig where
  server : ServerConfig
  session : Nat → SessionConfig

/-- A `Put`: the job whose crawler did it, the id, the object and what was put. -/
structure TicketPut where
  job : Nat
  id : Bytes
  object : FsObject
  ready : ReadyFile

/-- A task the accept loop submitted, with the id that the request of the connection named. -/
structure Submission where
  id : Option Bytes
  task : ServerTask

/-- The state of the server, with what was put and submitted so far. The ready files are those of
`server`; `loop` says how the accept loop has gone on after the last connection, and `ended` that the
process has ended. -/
structure ServerSystem where
  server : ServerState
  sessions : Nat → SessionState
  loop : Control
  ended : Bool
  puts : List TicketPut
  submissions : List Submission

def ServerSystem.start (cfg : SystemConfig) : ServerSystem where
  server := ⟨fun _ => none, .empty, [], []⟩
  sessions i := .start (cfg.session i) .empty
  loop := .next
  ended := false
  puts := []
  submissions := []

/-- What the `i`th manager thread works with: the connection and the job it was started for. The
thread has a reference to the job, and finds what is stored under the id as long as the reference is
valid; `Server/JobTable` has the references. -/
def SystemConfig.managed (cfg : SystemConfig) (sys : ServerSystem) (i : Nat)
    (manager : SocketConnection × Bytes) : SessionConfig :=
  { cfg.session i with
    ctx := { (cfg.session i).ctx with
      peer := manager.1.peer
      job := (sys.server.jobs manager.2).getD (cfg.session i).ctx.job } }

/-- The `Put` of a step, if it makes one. -/
def putOf (cfg : SessionConfig) (job : Nat) (s : SessionState) : SessionEvent → Option TicketPut
  | .manager =>
    match s.pc with
    | .crawling (o :: _) =>
      match outgoing cfg.ctx s.total s.drawn o with
      | .ok (some (.submit id ready _)) => some ⟨job, id, o, ready⟩
      | _ => none
    | _ => none
  | _ => none

/-- The id that the request on a connection names, if it is read and asks for a file. -/
def requestedId (cfg : ServerConfig) (conn : SocketConnection) : Option Bytes :=
  match requestRead cfg conn with
  | some (some (.file id), _) => some id
  | _ => none

/-- The events of the server. -/
inductive ServerEvent
  | session (i : Nat) (event : SessionEvent)
  | connection (a : Accepted)
  | pop (i : Nat)

/-- An event of the server. A step of a manager thread that brings the process down, or a connection
that makes `main` return, ends it; after a connection whose log has no end, no other is accepted. -/
def systemStep (cfg : SystemConfig) (sys : ServerSystem) (event : ServerEvent) :
    Option ServerSystem :=
  if sys.ended then none
  else
    match event with
    | .session i e =>
      match sys.server.managers[i]? with
      | none => none
      | some manager =>
        let found := { sys.sessions i with readyFiles := sys.server.readyFiles }
        (sessionStep (cfg.managed sys i manager) found e).map fun s =>
          { sys with
            server := { sys.server with readyFiles := s.readyFiles }
            sessions := Function.update sys.sessions i s
            ended := s.pc = .dead
            puts := sys.puts ++ (putOf (cfg.managed sys i manager) i found e).toList }
    | .connection a =>
      if sys.loop = .next then
        let r := handleConnection cfg.server sys.server a
        some { sys with
          server := r.1
          loop := r.2
          ended := r.2.exits
          submissions := sys.submissions ++ (r.1.tasks.drop sys.server.tasks.length).map
            fun task => ⟨requestedId cfg.server a.conn, task⟩ }
      else none
    | .pop i =>
      some { sys with server := { sys.server with tasks := sys.server.tasks.eraseIdx i } }

/-! ## The law of the tickets -/

/-- No id is drawn twice, by one crawler or by two. -/
def SystemConfig.FreshIds (cfg : SystemConfig) : Prop :=
  ∀ i j m n, (cfg.session i).ctx.secureRandomId m = (cfg.session j).ctx.secureRandomId n →
    i = j ∧ m = n

/-- The ids that tasks were submitted for. -/
def ServerSystem.redeemed (sys : ServerSystem) : List (Option Bytes) := sys.submissions.map (·.id)

/-- **The law of the tickets.** -/
structure TicketsSound (cfg : SystemConfig) (sys : ServerSystem) : Prop where
  /-- A task is for a ticket: it carries the file that was put under the requested id, and goes to
  the address of the crawler's job connection. -/
  sound : ∀ sub ∈ sys.submissions, ∃ put ∈ sys.puts, ∃ conn manager,
    sub = ⟨some put.id, .fileStream conn put.object.path (readyBytes put.object.stat.stSize)⟩ ∧
      sys.server.managers[put.job]? = some manager ∧ conn.peer = manager.1.peer
  once : sys.redeemed.Nodup
  /-- A ticket that is not redeemed yet is there for its client. -/
  kept : ∀ put ∈ sys.puts, some put.id ∉ sys.redeemed →
    sys.server.readyFiles.data put.id = some put.ready
  /-- A request with an unknown id or from another address changes nothing. -/
  refused : ∀ a id, requestedId cfg.server a.conn = some id →
    (∀ ready, sys.server.readyFiles.data id = some ready → a.conn.peer ≠ ready.address) →
      (handleConnection cfg.server sys.server a).1 = sys.server
  /-- The client of a ticket that is not redeemed yet can redeem it. -/
  redeemable : ∀ put ∈ sys.puts, some put.id ∉ sys.redeemed → ∀ a,
    requestedId cfg.server a.conn = some put.id → a.conn.peer = put.ready.address →
      ∃ conn : SocketConnection, conn.peer = a.conn.peer ∧
        (handleConnection cfg.server sys.server a).1.tasks = sys.server.tasks ++
          [.fileStream conn put.object.path (readyBytes put.object.stat.stSize)]

/-! ## What a connection does to the system -/

/-- A connection that is accepted. -/
theorem systemStep_connection {cfg : SystemConfig} {sys sys' : ServerSystem} {a : Accepted}
    (h : systemStep cfg sys (.connection a) = some sys') :
    sys.ended = false ∧ sys.loop = .next ∧
      sys' = { sys with
        server := (handleConnection cfg.server sys.server a).1
        loop := (handleConnection cfg.server sys.server a).2
        ended := (handleConnection cfg.server sys.server a).2.exits
        submissions := sys.submissions ++
          ((handleConnection cfg.server sys.server a).1.tasks.drop sys.server.tasks.length).map
            fun task => ⟨requestedId cfg.server a.conn, task⟩ } := by
  unfold systemStep at h
  split at h
  · cases h
  · next hended =>
    simp only at h
    split at h
    · next hloop => exact ⟨Bool.eq_false_iff.2 hended, hloop, (Option.some.inj h).symm⟩
    · cases h

theorem systemStep_connection_some (cfg : SystemConfig) {sys : ServerSystem}
    (hended : sys.ended = false) (hloop : sys.loop = .next) (a : Accepted) :
    ∃ sys', systemStep cfg sys (.connection a) = some sys' := by
  unfold systemStep
  rw [hended]
  exact ⟨_, if_pos hloop⟩

/-! ## What a step does to the ready files -/

/-- What is submitted with an id is the file itself, for the client of the job. -/
theorem outgoing_submit {ctx : CrawlContext} {total : Int32} {drawn : Nat} {o : FsObject}
    {id : Bytes} {ready : ReadyFile} {pull : PullObject}
    (h : outgoing ctx total drawn o = .ok (some (.submit id ready pull))) :
    id = ctx.secureRandomId drawn ∧ ready = ⟨ctx.peer, o.path, readyBytes o.stat.stSize⟩ := by
  unfold outgoing at h
  cases hrel : relativeTo o.path o.root with
  | error e =>
    rw [hrel] at h
    cases h
  | ok relativePath =>
    rw [hrel, ok_bind] at h
    split at h
    · cases h
    · cases hpull : pullObject ctx.users (total + 1) relativePath o with
      | error e =>
        rw [hpull] at h
        cases h
      | ok pull' =>
        rw [hpull, ok_bind] at h
        split at h
        · simp only [pure, Except.pure, Except.ok.injEq, Option.some.injEq,
            Outgoing.submit.injEq] at h
          exact ⟨h.1.symm, h.2.1.symm⟩
        · cases h

/-- What a manager does to the ready files when it does not handle an object. -/
theorem managerStep_frame {cfg : SessionConfig} {s s' : SessionState}
    (hpc : ∀ o todo, s.pc ≠ .crawling (o :: todo)) (h : managerStep cfg s = some s') :
    s'.readyFiles = s.readyFiles ∧ s'.drawn = s.drawn := by
  cases managerStep_cases h with
  | handles o todo heq => exact absurd heq (hpc o todo)
  | rejects | starts | dies | visited | sends | prepares | submits | drained | finishes =>
    exact ⟨rfl, rfl⟩

/-- Handling an object either leaves the ready files and the ids alone or puts the file under the
next id. -/
theorem handleStep_cases (cfg : SessionConfig) (job : Nat) {s : SessionState} {o : FsObject}
    {todo : List FsObject} (hpc : s.pc = .crawling (o :: todo)) :
    (putOf cfg job s .manager = none ∧ (handleStep cfg s o todo).readyFiles = s.readyFiles ∧
        (handleStep cfg s o todo).drawn = s.drawn) ∨
      putOf cfg job s .manager = some ⟨job, cfg.ctx.secureRandomId s.drawn, o,
          ⟨cfg.ctx.peer, o.path, readyBytes o.stat.stSize⟩⟩ ∧
        (handleStep cfg s o todo).readyFiles = s.readyFiles.put (cfg.ctx.secureRandomId s.drawn)
          ⟨cfg.ctx.peer, o.path, readyBytes o.stat.stSize⟩ ∧
        (handleStep cfg s o todo).drawn = s.drawn + 1 := by
  unfold putOf handleStep
  rw [hpc]
  cases hout : outgoing cfg.ctx s.total s.drawn o with
  | error e => exact Or.inl ⟨by simp [hout], rfl, rfl⟩
  | ok out =>
    obtain _ | ⟨pull⟩ | ⟨id, ready, pull⟩ := out
    · exact Or.inl ⟨by simp [hout], rfl, rfl⟩
    · exact Or.inl ⟨by simp [hout], rfl, rfl⟩
    · obtain ⟨rfl, rfl⟩ := outgoing_submit hout
      exact Or.inr ⟨by simp [hout], rfl, rfl⟩

/-- A step of a job either leaves the ready files and the ids alone or puts a file under the next
id. -/
theorem sessionStep_puts {cfg : SessionConfig} {s s' : SessionState} {e : SessionEvent}
    (job : Nat) (h : sessionStep cfg s e = some s') :
    (putOf cfg job s e = none ∧ s'.readyFiles = s.readyFiles ∧ s'.drawn = s.drawn) ∨
      ∃ o, putOf cfg job s e = some ⟨job, cfg.ctx.secureRandomId s.drawn, o,
          ⟨cfg.ctx.peer, o.path, readyBytes o.stat.stSize⟩⟩ ∧
        s'.readyFiles = s.readyFiles.put (cfg.ctx.secureRandomId s.drawn)
          ⟨cfg.ctx.peer, o.path, readyBytes o.stat.stSize⟩ ∧
        s'.drawn = s.drawn + 1 := by
  cases sessionStep_cases h with
  | pops | runs | finishes => exact Or.inl ⟨rfl, rfl, rfl⟩
  | manager hmanager =>
    by_cases hpc : ∃ o todo, s.pc = .crawling (o :: todo)
    · obtain ⟨o, todo, hpc⟩ := hpc
      have hstep : managerStep cfg s = some (handleStep cfg s o todo) := by
        rw [managerStep, hpc]
      obtain rfl := Option.some.inj (hstep.symm.trans hmanager)
      exact (handleStep_cases cfg job hpc).imp_right fun hput => ⟨o, hput⟩
    · have hpc' : ∀ o todo, s.pc ≠ .crawling (o :: todo) := fun o todo h => hpc ⟨o, todo, h⟩
      refine Or.inl ⟨?_, managerStep_frame hpc' hmanager⟩
      simp only [putOf]

/-! ## What a connection does to them -/

/-- What a connection that does not redeem a ticket leaves alone. -/
structure NothingRedeemed (s s' : ServerState) : Prop where
  readyFiles : s'.readyFiles = s.readyFiles
  tasks : s'.tasks = s.tasks
  managers : s.managers <+: s'.managers

theorem NothingRedeemed.refl (s : ServerState) : NothingRedeemed s s :=
  ⟨rfl, rfl, List.prefix_rfl⟩

/-- What a request does that is not for a file. -/
theorem handleRequest_frame (cfg : ServerConfig) (s : ServerState) (a : Accepted)
    (conn : SocketConnection) {req : PullRequest} (hreq : ∀ id, req ≠ .file id) :
    NothingRedeemed s (handleRequest cfg s a conn req) := by
  have hstart : ∀ job, NothingRedeemed s (s.startManager conn job) :=
    fun job => ⟨rfl, rfl, List.prefix_append _ _⟩
  cases req with
  | start path =>
    rw [handleRequest]
    split
    · exact hstart _
    · exact .refl s
  | continue_ id =>
    rw [handleRequest]
    split
    · exact hstart _
    · exact .refl s
  | file id => exact absurd rfl (hreq id)
  | success id path =>
    rw [handleRequest]
    split
    · exact ⟨rfl, rfl, List.prefix_rfl⟩
    · exact .refl s
  | unset => exact .refl s

theorem requestRead_peer {cfg : ServerConfig} {conn conn' : SocketConnection}
    {req : Option PullRequest} (h : requestRead cfg conn = some (req, conn')) :
    conn'.peer = conn.peer := by
  have hpeer := readProtobufMessage_peer cfg.endian cfg.protobuf conn
  unfold requestRead at h
  split at h
  · cases h
  · split at h
    · cases h
    · rw [Option.some.inj h] at hpeer
      exact hpeer

theorem requestedId_eq_some {cfg : ServerConfig} {conn : SocketConnection} {id : Bytes} :
    requestedId cfg conn = some id ↔ ∃ conn', requestRead cfg conn = some (some (.file id), conn') := by
  unfold requestedId
  split
  · next heq => simp [heq, eq_comm]
  · next hne =>
    constructor
    · intro h
      cases h
    · rintro ⟨conn', hread⟩
      exact absurd hread (hne id conn')

/-- A connection that asks for no file. -/
theorem handleConnection_frame {cfg : ServerConfig} (s : ServerState) {a : Accepted}
    (h : requestedId cfg a.conn = none) :
    NothingRedeemed s (handleConnection cfg s a).1 := by
  rw [handleConnection_eq]
  cases hread : requestRead cfg a.conn with
  | none => exact .refl s
  | some r =>
    obtain ⟨_ | req, conn⟩ := r
    · exact .refl s
    · apply handleRequest_frame
      rintro id rfl
      rw [requestedId_eq_some.2 ⟨conn, hread⟩] at h
      cases h

/-- A connection that asks for a file that is not there for it. -/
theorem handleConnection_refusedFile {cfg : ServerConfig} {s : ServerState} {a : Accepted}
    {id : Bytes} (h : requestedId cfg a.conn = some id)
    (hnone : ∀ ready, s.readyFiles.data id = some ready → a.conn.peer ≠ ready.address) :
    (handleConnection cfg s a).1 = s := by
  obtain ⟨conn, hread⟩ := requestedId_eq_some.1 h
  have hunknown : Unknown cfg s a (.file id) := hnone
  rw [handleConnection_eq, hread]
  exact handleRequest_unknown (requestRead_peer hread) hunknown

/-- A connection that redeems a ticket. -/
theorem handleConnection_redeems {cfg : ServerConfig} {s : ServerState} {a : Accepted}
    {id : Bytes} {ready : ReadyFile} (h : requestedId cfg a.conn = some id)
    (hready : s.readyFiles.data id = some ready) (hpeer : a.conn.peer = ready.address) :
    ∃ conn : SocketConnection, conn.peer = ready.address ∧ (handleConnection cfg s a).1 =
      { s with
        readyFiles := ⟨Function.update s.readyFiles.data id none⟩
        tasks := s.tasks ++ [.fileStream conn ready.path ready.bytes] } := by
  obtain ⟨conn, hread⟩ := requestedId_eq_some.1 h
  have hconn : conn.peer = ready.address := (requestRead_peer hread).trans hpeer
  have hpop : s.readyFiles.getAndPopIf id (fun ready => conn.peer = ready.address) =
      (some ready, ⟨Function.update s.readyFiles.data id none⟩) :=
    GuardedMap.getAndPopIf_some hready (by simpa using hconn)
  refine ⟨conn, hconn, ?_⟩
  rw [handleConnection_eq, hread]
  simp only [afterRead, handleRequest, hpop]

/-! ## The invariant -/

structure TicketsInv (cfg : SystemConfig) (sys : ServerSystem) : Prop where
  /-- Every ticket was drawn by its job and is for the client of the job. -/
  issued : ∀ put ∈ sys.puts, ∃ n manager, n < (sys.sessions put.job).drawn ∧
    put.id = (cfg.session put.job).ctx.secureRandomId n ∧
    sys.server.managers[put.job]? = some manager ∧
    put.ready = ⟨manager.1.peer, put.object.path, readyBytes put.object.stat.stSize⟩
  distinct : (sys.puts.map (·.id)).Nodup
  /-- The ready files are the tickets that are not redeemed yet. -/
  ready : ∀ id ready, sys.server.readyFiles.data id = some ready ↔
    some id ∉ sys.redeemed ∧ ∃ put ∈ sys.puts, put.id = id ∧ put.ready = ready
  submitted : ∀ sub ∈ sys.submissions, ∃ put ∈ sys.puts, ∃ conn : SocketConnection,
    sub = ⟨some put.id, .fileStream conn put.ready.path put.ready.bytes⟩ ∧
      conn.peer = put.ready.address
  once : sys.redeemed.Nodup

variable {cfg : SystemConfig} {sys : ServerSystem}

theorem TicketsInv.start (cfg : SystemConfig) : TicketsInv cfg (.start cfg) := by
  refine ⟨?_, List.nodup_nil, ?_, ?_, List.nodup_nil⟩
  · intro put h
    cases h
  · intro id ready
    constructor
    · intro h
      cases h
    · rintro ⟨-, put, h, -⟩
      cases h
  · intro sub h
    cases h

/-- The next id of a job is new. -/
theorem TicketsInv.fresh (h : TicketsInv cfg sys) (hfresh : cfg.FreshIds) (i : Nat) :
    (cfg.session i).ctx.secureRandomId (sys.sessions i).drawn ∉ sys.puts.map (·.id) := by
  intro hmem
  obtain ⟨put, hput, hid⟩ := List.mem_map.1 hmem
  obtain ⟨n, -, hn, hid', -⟩ := h.issued put hput
  obtain ⟨hjob, hdrawn⟩ := hfresh _ _ _ _ (hid'.symm.trans hid)
  rw [hjob] at hn
  omega

/-- What is redeemed was put. -/
theorem TicketsInv.not_redeemed (h : TicketsInv cfg sys) {id : Bytes}
    (hid : id ∉ sys.puts.map (·.id)) : some id ∉ sys.redeemed := by
  intro hmem
  obtain ⟨sub, hsub, hsubid⟩ := List.mem_map.1 hmem
  obtain ⟨put, hput, conn, rfl, -⟩ := h.submitted sub hsub
  exact hid (List.mem_map.2 ⟨put, hput, Option.some.inj hsubid⟩)

theorem getElem?_of_prefix {α : Type} {l l' : List α} (h : l <+: l') {i : Nat} {a : α}
    (ha : l[i]? = some a) : l'[i]? = some a := by
  obtain ⟨tail, rfl⟩ := h
  rw [List.getElem?_append_left (List.getElem?_eq_some_iff.1 ha).1, ha]

/-- Steps that put and redeem nothing. -/
theorem TicketsInv.frame (h : TicketsInv cfg sys) {sys' : ServerSystem}
    (hready : sys'.server.readyFiles = sys.server.readyFiles)
    (hmanagers : sys.server.managers <+: sys'.server.managers)
    (hdrawn : ∀ i, (sys.sessions i).drawn ≤ (sys'.sessions i).drawn)
    (hputs : sys'.puts = sys.puts) (hsubs : sys'.submissions = sys.submissions) :
    TicketsInv cfg sys' := by
  have hredeemed : sys'.redeemed = sys.redeemed := by
    rw [ServerSystem.redeemed, ServerSystem.redeemed, hsubs]
  refine ⟨?_, hputs ▸ h.distinct, ?_, ?_, hredeemed ▸ h.once⟩
  · intro put hput
    obtain ⟨n, manager, hn, hid, hmanager, hput'⟩ := h.issued put (hputs ▸ hput)
    exact ⟨n, manager, hn.trans_le (hdrawn _), hid, getElem?_of_prefix hmanagers hmanager, hput'⟩
  · intro id ready
    rw [hready, hredeemed, hputs]
    exact h.ready id ready
  · intro sub hsub
    rw [hputs]
    exact h.submitted sub (hsubs ▸ hsub)

/-- A crawler puts a file. -/
theorem TicketsInv.put (h : TicketsInv cfg sys) (hfresh : cfg.FreshIds) {i : Nat}
    {manager : SocketConnection × Bytes} (hmanager : sys.server.managers[i]? = some manager)
    {put : TicketPut} (hput : put = ⟨i, (cfg.session i).ctx.secureRandomId (sys.sessions i).drawn,
      put.object, ⟨manager.1.peer, put.object.path, readyBytes put.object.stat.stSize⟩⟩)
    {sys' : ServerSystem}
    (hready : sys'.server.readyFiles = sys.server.readyFiles.put put.id put.ready)
    (hmanagers : sys'.server.managers = sys.server.managers)
    (hdrawn : ∀ j, (sys.sessions j).drawn ≤ (sys'.sessions j).drawn)
    (hnext : (sys'.sessions i).drawn = (sys.sessions i).drawn + 1)
    (hputs : sys'.puts = sys.puts ++ [put]) (hsubs : sys'.submissions = sys.submissions) :
    TicketsInv cfg sys' := by
  have hid : put.id = (cfg.session i).ctx.secureRandomId (sys.sessions i).drawn := by rw [hput]
  have hjob : put.job = i := by rw [hput]
  have hfile : put.ready =
      ⟨manager.1.peer, put.object.path, readyBytes put.object.stat.stSize⟩ := by
    rw [hput]
  have hnew : put.id ∉ sys.puts.map (·.id) := hid ▸ h.fresh hfresh i
  have hredeemed : sys'.redeemed = sys.redeemed := by
    rw [ServerSystem.redeemed, ServerSystem.redeemed, hsubs]
  have hnone : sys.server.readyFiles.data put.id = none := by
    rw [Option.eq_none_iff_forall_ne_some]
    intro ready hsome
    obtain ⟨-, put', hput', hid', -⟩ := (h.ready put.id ready).1 hsome
    exact hnew (List.mem_map.2 ⟨put', hput', hid'⟩)
  refine ⟨?_, ?_, ?_, ?_, hredeemed ▸ h.once⟩
  · intro put' hput'
    rw [hputs, List.mem_append, List.mem_singleton] at hput'
    rw [hmanagers]
    rcases hput' with hput' | rfl
    · obtain ⟨n, manager', hn, hrest⟩ := h.issued put' hput'
      exact ⟨n, manager', hn.trans_le (hdrawn _), hrest⟩
    · refine ⟨(sys.sessions i).drawn, manager, ?_, ?_, ?_, hfile⟩
      · rw [hjob]
        omega
      · rw [hjob, hid]
      · rw [hjob, hmanager]
  · rw [hputs, List.map_append, List.nodup_append]
    refine ⟨h.distinct, List.nodup_singleton _, ?_⟩
    intro id hmem id' hid'
    rw [List.map_singleton, List.mem_singleton] at hid'
    rintro rfl
    exact hnew (hid' ▸ hmem)
  · intro id ready
    rw [hready, GuardedMap.put_data_of_none hnone, hredeemed, hputs]
    by_cases hsame : id = put.id
    · subst hsame
      rw [Function.update_self]
      constructor
      · intro hsome
        exact ⟨h.not_redeemed hnew, put, by simp, rfl, Option.some.inj hsome⟩
      · rintro ⟨-, put', hput', hid', rfl⟩
        rw [List.mem_append, List.mem_singleton] at hput'
        rcases hput' with hput' | rfl
        · exact absurd (List.mem_map.2 ⟨put', hput', hid'⟩) hnew
        · rfl
    · rw [Function.update_of_ne hsame, h.ready id ready]
      constructor
      · rintro ⟨hnot, put', hput', hrest⟩
        exact ⟨hnot, put', List.mem_append_left _ hput', hrest⟩
      · rintro ⟨hnot, put', hput', hid', hready'⟩
        rw [List.mem_append, List.mem_singleton] at hput'
        rcases hput' with hput' | rfl
        · exact ⟨hnot, put', hput', hid', hready'⟩
        · exact absurd hid'.symm hsame
  · intro sub hsub
    rw [hsubs] at hsub
    obtain ⟨put', hput', hrest⟩ := h.submitted sub hsub
    exact ⟨put', hputs ▸ List.mem_append_left _ hput', hrest⟩

/-- A client redeems a ticket. -/
theorem TicketsInv.redeem (h : TicketsInv cfg sys) {id : Bytes} {ready : ReadyFile}
    (hready : sys.server.readyFiles.data id = some ready) {conn : SocketConnection}
    (hconn : conn.peer = ready.address) {sys' : ServerSystem}
    (hdata : sys'.server.readyFiles.data = Function.update sys.server.readyFiles.data id none)
    (hmanagers : sys'.server.managers = sys.server.managers)
    (hsessions : sys'.sessions = sys.sessions) (hputs : sys'.puts = sys.puts)
    (hsubs : sys'.submissions =
      sys.submissions ++ [⟨some id, .fileStream conn ready.path ready.bytes⟩]) :
    TicketsInv cfg sys' := by
  obtain ⟨hnot, put, hput, hid, hputready⟩ := (h.ready id ready).1 hready
  have hredeemed : sys'.redeemed = sys.redeemed ++ [some id] := by
    rw [ServerSystem.redeemed, ServerSystem.redeemed, hsubs, List.map_append]
    rfl
  refine ⟨?_, hputs ▸ h.distinct, ?_, ?_, ?_⟩
  · intro put' hput'
    rw [hsessions, hmanagers]
    exact h.issued put' (hputs ▸ hput')
  · intro id' ready'
    rw [hdata, hredeemed, hputs]
    by_cases hsame : id' = id
    · subst hsame
      simp
    · have hne : some id' ≠ some id := fun e => hsame (Option.some.inj e)
      rw [Function.update_of_ne hsame, h.ready id' ready', List.mem_append, List.mem_singleton,
        or_iff_left hne]
  · intro sub hsub
    rw [hsubs, List.mem_append, List.mem_singleton] at hsub
    rw [hputs]
    rcases hsub with hsub | rfl
    · exact h.submitted sub hsub
    · refine ⟨put, hput, conn, ?_, ?_⟩
      · rw [hid, hputready]
      · rw [hconn, hputready]
  · rw [hredeemed, List.nodup_append]
    refine ⟨h.once, List.nodup_singleton _, ?_⟩
    intro a ha b hb
    rw [List.mem_singleton.1 hb]
    rintro rfl
    exact hnot ha

theorem TicketsInv.connection (h : TicketsInv cfg sys) (a : Accepted) {sys' : ServerSystem}
    (hstep : systemStep cfg sys (.connection a) = some sys') : TicketsInv cfg sys' := by
  obtain ⟨-, -, rfl⟩ := systemStep_connection hstep
  cases hreq : requestedId cfg.server a.conn with
  | none =>
    obtain ⟨hready, htasks, hmanagers⟩ := handleConnection_frame sys.server hreq
    apply h.frame
    · exact hready
    · exact hmanagers
    · exact fun i => le_rfl
    · rfl
    · simp [htasks]
  | some id =>
    by_cases hticket : ∃ ready, sys.server.readyFiles.data id = some ready ∧
        a.conn.peer = ready.address
    · obtain ⟨ready, hready, hpeer⟩ := hticket
      obtain ⟨conn, hconn, hserver⟩ := handleConnection_redeems hreq hready hpeer
      apply h.redeem hready hconn
      · rw [hserver]
      · rw [hserver]
      · rfl
      · rfl
      · simp [hserver]
    · have hsame : (handleConnection cfg.server sys.server a).1 = sys.server := by
        apply handleConnection_refusedFile hreq
        intro ready hready hpeer
        exact hticket ⟨ready, hready, hpeer⟩
      apply h.frame
      · rw [hsame]
      · rw [hsame]
      · exact fun i => le_rfl
      · rfl
      · simp [hsame]

theorem TicketsInv.session (h : TicketsInv cfg sys) (hfresh : cfg.FreshIds) (i : Nat)
    (e : SessionEvent) {sys' : ServerSystem}
    (hstep : systemStep cfg sys (.session i e) = some sys') : TicketsInv cfg sys' := by
  unfold systemStep at hstep
  split at hstep
  · cases hstep
  · simp only at hstep
    split at hstep
    · cases hstep
    · next manager hmanager =>
      obtain ⟨s, hs, rfl⟩ := Option.map_eq_some_iff.1 hstep
      have hother : ∀ j, (sys.sessions i).drawn ≤ s.drawn →
          (sys.sessions j).drawn ≤ (Function.update sys.sessions i s j).drawn := by
        intro j hle
        by_cases hj : j = i
        · subst hj
          rwa [Function.update_self]
        · rw [Function.update_of_ne hj]
      rcases sessionStep_puts i hs with ⟨hput, hready, hdrawn⟩ | ⟨o, hput, hready, hdrawn⟩
      · apply h.frame
        · exact hready
        · exact List.prefix_rfl
        · intro j
          exact hother j hdrawn.ge
        · simp [hput]
        · rfl
      · have hticket : (⟨i, (cfg.session i).ctx.secureRandomId (sys.sessions i).drawn, o,
            ⟨manager.1.peer, o.path, readyBytes o.stat.stSize⟩⟩ : TicketPut) = ⟨i, _, o, _⟩ := rfl
        apply h.put hfresh hmanager hticket
        · exact hready
        · rfl
        · intro j
          exact hother j (hdrawn ▸ Nat.le_succ _)
        · simp only [Function.update_self, hdrawn]
        · simp only [hput]
          rfl
        · rfl

theorem TicketsInv.step (hfresh : cfg.FreshIds) {sys' : ServerSystem} {event : ServerEvent}
    (h : TicketsInv cfg sys) (hstep : systemStep cfg sys event = some sys') :
    TicketsInv cfg sys' := by
  cases event with
  | session i e => exact h.session hfresh i e hstep
  | connection a => exact h.connection a hstep
  | pop i =>
    unfold systemStep at hstep
    split at hstep
    · cases hstep
    · obtain rfl := Option.some.inj hstep
      apply h.frame
      · rfl
      · exact List.prefix_rfl
      · exact fun i => le_rfl
      · rfl
      · rfl

theorem TicketsInv.sound (h : TicketsInv cfg sys) : TicketsSound cfg sys := by
  have hkept : ∀ put ∈ sys.puts, some put.id ∉ sys.redeemed →
      sys.server.readyFiles.data put.id = some put.ready :=
    fun put hput hnot => (h.ready put.id put.ready).2 ⟨hnot, put, hput, rfl, rfl⟩
  refine ⟨?_, h.once, hkept, ?_, ?_⟩
  · intro sub hsub
    obtain ⟨put, hput, conn, rfl, hpeer⟩ := h.submitted sub hsub
    obtain ⟨n, manager, -, -, hmanager, hready⟩ := h.issued put hput
    rw [hready] at hpeer ⊢
    exact ⟨put, hput, conn, manager, rfl, hmanager, hpeer⟩
  · intro a id hreq hnone
    exact handleConnection_refusedFile hreq hnone
  · intro put hput hnot a hreq hpeer
    obtain ⟨conn, hconn, hserver⟩ := handleConnection_redeems hreq (hkept put hput hnot) hpeer
    obtain ⟨n, manager, -, -, -, hready⟩ := h.issued put hput
    refine ⟨conn, hconn.trans hpeer.symm, ?_⟩
    rw [hserver, hready]

/-- **Tickets are single-use and bound to their client**, in every run of the server whose threads have
valid references to their jobs; what a thread reads there does not matter for the tickets. -/
theorem tickets_sound (cfg : SystemConfig) (hfresh : cfg.FreshIds) (events : List ServerEvent)
    (sys : ServerSystem)
    (hrun : Transition.script (systemStep cfg) (.start cfg) events = some sys) :
    TicketsSound cfg sys := by
  have hinv : TicketsInv cfg sys :=
    Transition.script_invariant (fun s e s' h hstep => TicketsInv.step hfresh h hstep)
      (TicketsInv.start cfg) hrun
  exact hinv.sound

/-! ## A run -/

/-- A coding of two requests, for the job `/` and for the file `0`. -/
def jobAndFile : Protobuf PullRequest where
  byteSizeLong _ := 1
  serializeAsString req := if req = .start [slash] then [1] else [2]
  parseFromString bytes :=
    if bytes = [1] then some (.start [slash])
    else if bytes = [2] then some (.file (text "0")) else none

/-- A file of five bytes in the served directory. -/
def srvFile : FsObject where
  type := .file
  root := text "/srv"
  name := text "f"
  path := text "/srv/f"
  linkTarget := []
  inode := 2
  stat := ⟨0o100644, 0, 0, 5, ⟨0, 0⟩, ⟨0, 0⟩⟩

/-- A server of `/srv` for the local host; ids are told apart by their lengths. -/
def ticketServer : SystemConfig where
  server := { localServer with protobuf := jobAndFile }
  session i :=
    { requestFor (text "/srv") [slash] with
      ctx := { (requestFor (text "/srv") [slash]).ctx with
        secureRandomId := fun n => List.replicate (Nat.pair i n + 1) 48 }
      objects := [srvFile] }

/-- A client on the local host that sends one request. -/
def requesting (body : UInt8) : Accepted where
  conn := ⟨⟨127, 0, 0, 1⟩, true, [0, 0, 0, 1, body], [], [], [], []⟩
  onlyEintr := fun _ h => absurd h List.not_mem_nil
  newCalls := ⟨false, false, false⟩
  newId := text "id"
  now := Job.epoch
  logAt := fun _ => .none

/-- A job is started, its crawler puts the file, and the client redeems the ticket. -/
def redeeming : List ServerEvent :=
  [.connection (requesting 1), .session 0 .manager, .session 0 .manager, .connection (requesting 2)]

theorem ticketServer_fresh : ticketServer.FreshIds := by
  intro i j m n h
  have hlen : Nat.pair i m = Nat.pair j n := by
    have hlength := congrArg List.length h
    simpa [ticketServer] using hlength
  exact Nat.pair_eq_pair.1 hlen

theorem tickets_sound_redeeming :
    ∃ sys, Transition.script (systemStep ticketServer) (.start ticketServer) redeeming = some sys ∧
      sys.redeemed = [some (text "0")] ∧ TicketsSound ticketServer sys := by
  have hredeemed : (Transition.script (systemStep ticketServer) (.start ticketServer)
      redeeming).map (fun sys => sys.redeemed) = some [some (text "0")] := rfl
  obtain ⟨sys, hrun, hid⟩ := Option.map_eq_some_iff.1 hredeemed
  exact ⟨sys, hrun, hid, tickets_sound ticketServer ticketServer_fresh redeeming sys hrun⟩

end Netpull
