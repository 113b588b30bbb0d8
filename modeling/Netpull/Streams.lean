import Netpull.Rounds
import Netpull.Server.Origins

/-!
# The right file for every stream

A client asks for a file by the id in the message of its object, on a connection of its own, and any
number of clients of any jobs do so at the same time. Whatever they ask for, what is streamed for an
object that a client has received is the file of that object, goes to the address of that client, and
does so once at most (`streams_routed`).
-/

namespace Netpull

open PullObject Transition

/-! ## The ticket behind a message -/

/-- The message is about the file that was put. -/
structure TicketPut.Backs (put : TicketPut) (pull : PullObject) : Prop where
  path : ∃ relativePath, relativeTo put.object.path put.object.root = .ok relativePath ∧
    pull.path = cstr relativePath
  transfer : ∃ sha256,
    pull.transfer = some ⟨sha256, transferBytes put.object.stat.stSize, put.id⟩

/-- Such a file was put by the crawler of the job, which has come to it in its visit. -/
def Backed (objects : List FsObject) (puts : List TicketPut) (job : Nat) (pull : PullObject) : Prop :=
  ∃ put ∈ puts, put.job = job ∧ put.object ∈ objects ∧ put.Backs pull

theorem Backed.mono {objects : List FsObject} {puts : List TicketPut} {job : Nat}
    {pull : PullObject} (h : Backed objects puts job pull) (new : List TicketPut) :
    Backed objects (puts ++ new) job pull := by
  obtain ⟨put, hput, hrest⟩ := h
  exact ⟨put, List.mem_append_left _ hput, hrest⟩

/-- Every message with a transfer is backed, and every task that completes one. -/
def Ticketed (cfg : SessionConfig) (puts : List TicketPut) (job : Nat) (s : SessionState) : Prop :=
  Traced cfg (fun pull => pull.transfer.isSome → Backed cfg.objects puts job pull)
    (fun task => Backed cfg.objects puts job task.pull) s

section Session

variable {cfg : SessionConfig} {s s' : SessionState} {puts : List TicketPut} {job : Nat}

theorem Ticketed.mono (h : Ticketed cfg puts job s) (new : List TicketPut) :
    Ticketed cfg (puts ++ new) job s where
  todo := h.todo
  stream pull hpull hsome := (h.stream pull hpull hsome).mono new
  sending pull hpull hsome := (h.sending pull hpull hsome).mono new
  tasks task htask := (h.tasks task htask).mono new

/-- What is submitted for an object is about the file that is put. -/
theorem outgoing_backs {ctx : CrawlContext} {total : Int32} {drawn : Nat} {o : FsObject}
    {id : Bytes} {ready : ReadyFile} {pull : PullObject}
    (h : outgoing ctx total drawn o = .ok (some (.submit id ready pull))) (job : Nat) :
    TicketPut.Backs ⟨job, id, o, ready⟩ pull := by
  obtain ⟨relativePath, q, hrel, hpull, hkind⟩ := outgoing_some h
  rcases hkind with ⟨-, hout⟩ | ⟨-, hout⟩
  · obtain ⟨rfl, -, rfl⟩ := Outgoing.submit.inj hout
    exact ⟨⟨relativePath, hrel, (pullObject_ok hpull).1⟩, [], rfl⟩
  · cases hout

theorem outgoing_send_transfer {ctx : CrawlContext} {total : Int32} {drawn : Nat} {o : FsObject}
    {pull : PullObject} (h : outgoing ctx total drawn o = .ok (some (.send pull))) :
    pull.transfer = none := by
  obtain ⟨relativePath, q, -, hpull, hkind⟩ := outgoing_some h
  rcases hkind with ⟨-, hout⟩ | ⟨-, hout⟩
  · cases hout
  · obtain rfl := Outgoing.send.inj hout
    exact (pullObject_ok hpull).2.2.2

/-- **What a session sends is backed** by what its crawler puts. -/
theorem Ticketed.step (h : Ticketed cfg puts job s) {event : SessionEvent}
    (hs : sessionStep cfg s event = some s') :
    Ticketed cfg (puts ++ (putOf cfg job s event).toList) job s' := by
  refine sessionStep_traced (h.mono _) ?_ ?_ hs
  · rintro o todo rfl hpc out hout
    have hobjects := h.todo
    rw [hpc] at hobjects
    have ho : o ∈ cfg.objects := hobjects o List.mem_cons_self
    cases out with
    | send pull =>
      intro hsome
      rw [outgoing_send_transfer hout] at hsome
      cases hsome
    | submit id ready pull =>
      have hput : putOf cfg job s .manager = some ⟨job, id, o, ready⟩ := by
        simp only [putOf, hpc, hout]
      rw [hput]
      exact ⟨_, List.mem_append_right _ List.mem_cons_self, rfl, ho, outgoing_backs hout job⟩
  · rintro task pull ⟨put, hput, hjob, ho, hbacks⟩ hmessage _
    obtain ⟨digest, -, rfl⟩ := Option.map_eq_some_iff.1 hmessage
    obtain ⟨sha256, htransfer⟩ := hbacks.transfer
    refine ⟨put, hput, hjob, ho, hbacks.path, digest, ?_⟩
    rw [PullObject.setSha256, htransfer]
    rfl

end Session

/-! ## What is streamed -/

/-- The file of an object is what the `i`th client gets for an id: no other file was ever submitted
for it nor to any other address, and if none was, a connection from the address of the client that
asks for it gets it. -/
structure Routed (cfg : ServiceConfig) (s : Service) (i : Nat) (id : Bytes) (o : FsObject) :
    Prop where
  submitted : ∀ sub ∈ s.server.submissions, sub.id = some id →
    ∃ (conn : SocketConnection) (manager : SocketConnection × Bytes),
      s.server.server.managers[i]? = some manager ∧ conn.peer = manager.1.peer ∧
        sub.task = .fileStream conn o.path (readyBytes o.stat.stSize)
  granted : some id ∉ s.server.redeemed → ∀ a manager,
    s.server.server.managers[i]? = some manager → a.conn.peer = manager.1.peer →
      requestedId cfg.system.server a.conn = some id →
        ∃ conn : SocketConnection, conn.peer = a.conn.peer ∧
          (handleConnection cfg.system.server s.server.server a).1.tasks =
            s.server.server.tasks ++ [.fileStream conn o.path (readyBytes o.stat.stSize)]

/-- **Streams are routed**: what a client gets for an object it has received is the file of that
object, with the size that the crawl has found, of which the message has the low 32 bits. -/
structure StreamsRouted (cfg : ServiceConfig) (s : Service) : Prop where
  own : ∀ i, ∀ pull ∈ objectsOf (s.clients i).client.received, ∀ transfer ∈ pull.transfer,
    ∃ o ∈ (cfg.system.session i).objects, ∃ relativePath,
      relativeTo o.path o.root = .ok relativePath ∧ pull.path = cstr relativePath ∧
        transfer.bytes = transferBytes o.stat.stSize ∧ Routed cfg s i transfer.id o
  once : s.server.redeemed.Nodup
  /-- No two clients have an id in common, and no two objects. -/
  apart : ∀ i, ∀ pull ∈ objectsOf (s.clients i).client.received, ∀ transfer ∈ pull.transfer,
    ∀ j, ∀ pull' ∈ objectsOf (s.clients j).client.received, ∀ transfer' ∈ pull'.transfer,
      transfer.id = transfer'.id → i = j ∧ pull.path = pull'.path

section Service

variable {cfg : ServiceConfig} {s s' : Service}

/-- What every event of a service keeps. -/
structure StreamsInv (cfg : ServiceConfig) (s : Service) : Prop where
  tickets : TicketsInv cfg.system s.server
  ticketed : ∀ i, Ticketed (cfg.system.session i) s.server.puts i (s.server.sessions i)
  received : ∀ i, (s.clients i).client.received <+: (s.server.sessions i).stream

theorem StreamsInv.start (cfg : ServiceConfig) : StreamsInv cfg (.start cfg) where
  tickets := .start cfg.system
  ticketed i := Traced.start (cfg.system.session i) _ _ .empty
  received _ := List.nil_prefix

theorem todo_managed (cfg : SystemConfig) (sys : ServerSystem) (i : Nat)
    (manager : SocketConnection × Bytes) (pc : ManagerPc) :
    pc.todo (cfg.managed sys i manager) = pc.todo (cfg.session i) := by
  cases pc <;> rfl

/-- An event of the server. -/
theorem systemStep_ticketed {cfg : SystemConfig} {sys sys' : ServerSystem}
    (h : ∀ i, Ticketed (cfg.session i) sys.puts i (sys.sessions i)) {event : ServerEvent}
    (hs : systemStep cfg sys event = some sys') (i : Nat) :
    Ticketed (cfg.session i) sys'.puts i (sys'.sessions i) := by
  cases event with
  | connection a =>
    obtain ⟨-, -, rfl⟩ := systemStep_connection hs
    exact h i
  | pop j =>
    unfold systemStep at hs
    split at hs
    · cases hs
    · exact Option.some.inj hs ▸ h i
  | session j e =>
    unfold systemStep at hs
    split at hs
    · cases hs
    · simp only at hs
      split at hs
      · cases hs
      · next manager hmanager =>
        obtain ⟨session, hsession, rfl⟩ := Option.map_eq_some_iff.1 hs
        by_cases hij : i = j
        · subst hij
          have hbefore := h i
          have hfound : Ticketed (cfg.managed sys i manager) sys.puts i
              { sys.sessions i with readyFiles := sys.server.readyFiles } :=
            ⟨by rw [todo_managed]; exact hbefore.todo, hbefore.stream, hbefore.sending,
              hbefore.tasks⟩
          have hafter := hfound.step hsession
          simp only [Function.update_self]
          exact ⟨by rw [← todo_managed cfg sys i manager]; exact hafter.todo, hafter.stream,
            hafter.sending, hafter.tasks⟩
        · simp only [Function.update_of_ne hij]
          exact (h i).mono _

theorem StreamsInv.step (hfresh : cfg.system.FreshIds) (h : StreamsInv cfg s)
    {event : ServiceEvent} (hs : serviceStep cfg s event = some s') : StreamsInv cfg s' := by
  cases event with
  | server event =>
    obtain ⟨t, ht, rfl⟩ := Option.map_eq_some_iff.1 hs
    have hserver := tableStep_sys ht
    exact ⟨h.tickets.step hfresh hserver, systemStep_ticketed h.ticketed hserver,
      fun i => (h.received i).trans (systemStep_stream hserver i)⟩
  | client i event =>
    simp only [serviceStep] at hs
    split at hs
    · next hmay =>
      obtain ⟨client, hclient, rfl⟩ := Option.map_eq_some_iff.1 hs
      refine ⟨h.tickets, h.ticketed, fun j => ?_⟩
      by_cases hij : j = i
      · subst hij
        simp only [Function.update_self]
        refine reportStep_arrives (h.received j) ?_ hclient
        rintro resp rfl
        exact of_decide_eq_true hmay.2
      · simp only [Function.update_of_ne hij]
        exact h.received j
    · cases hs

/-- The ticket behind a message that a client has received. -/
theorem StreamsInv.backed (h : StreamsInv cfg s) {i : Nat} {pull : PullObject}
    (hpull : pull ∈ objectsOf (s.clients i).client.received) {transfer : FileTransferInfo}
    (htransfer : transfer ∈ pull.transfer) :
    ∃ put ∈ s.server.puts, put.job = i ∧ put.object ∈ (cfg.system.session i).objects ∧
      put.id = transfer.id ∧ put.Backs pull := by
  have hsent : pull ∈ objectsOf (s.server.sessions i).stream :=
    ((h.received i).filterMap _).subset hpull
  obtain ⟨put, hput, hjob, ho, hbacks⟩ :=
    (h.ticketed i).stream pull hsent (Option.isSome_of_mem htransfer)
  obtain ⟨sha256, hsome⟩ := hbacks.transfer
  obtain rfl := Option.some.inj (hsome.symm.trans htransfer)
  exact ⟨put, hput, hjob, ho, rfl, hbacks⟩

theorem StreamsInv.routed (h : StreamsInv cfg s) {i : Nat} {put : TicketPut}
    (hput : put ∈ s.server.puts) (hjob : put.job = i) : Routed cfg s i put.id put.object := by
  obtain ⟨n, manager, -, -, hmanager, hready⟩ := h.tickets.issued put hput
  rw [hjob] at hmanager
  constructor
  · intro sub hsub hid
    obtain ⟨put', hput', conn, rfl, hpeer⟩ := h.tickets.submitted sub hsub
    have hsame : put' = put :=
      List.inj_on_of_nodup_map h.tickets.distinct hput' hput (Option.some.inj hid)
    rw [hsame, hready] at hpeer
    exact ⟨conn, manager, hmanager, hpeer, by rw [hsame, hready]⟩
  · intro hnot a manager' hmanager' hpeer hrequested
    obtain rfl := Option.some.inj (hmanager.symm.trans hmanager')
    exact h.tickets.sound.redeemable put hput hnot a hrequested (by rw [hready]; exact hpeer)

theorem StreamsInv.streamsRouted (h : StreamsInv cfg s) : StreamsRouted cfg s where
  own := by
    intro i pull hpull transfer htransfer
    obtain ⟨put, hput, hjob, ho, hid, hbacks⟩ := h.backed hpull htransfer
    obtain ⟨relativePath, hrel, hpath⟩ := hbacks.path
    obtain ⟨sha256, hsome⟩ := hbacks.transfer
    obtain rfl := Option.some.inj (hsome.symm.trans htransfer)
    exact ⟨put.object, ho, relativePath, hrel, hpath, rfl, h.routed hput hjob⟩
  once := h.tickets.once
  apart := by
    intro i pull hpull transfer htransfer j pull' hpull' transfer' htransfer' hsame
    obtain ⟨put, hput, hjob, -, hid, hbacks⟩ := h.backed hpull htransfer
    obtain ⟨put', hput', hjob', -, hid', hbacks'⟩ := h.backed hpull' htransfer'
    obtain rfl := List.inj_on_of_nodup_map h.tickets.distinct hput hput'
      (hid.trans (hsame.trans hid'.symm))
    obtain ⟨relativePath, hrel, hpath⟩ := hbacks.path
    obtain ⟨relativePath', hrel', hpath'⟩ := hbacks'.path
    obtain rfl := Except.ok.inj (hrel.symm.trans hrel')
    exact ⟨hjob.symm.trans hjob', hpath.trans hpath'.symm⟩

end Service

/-- **Every stream is the right file.** For any number of jobs and clients and every order in which
the threads of the server and of all clients take their steps and requests come in, from anybody and
for any ids: if no id is drawn twice, the server streams for an object that a client has received
nothing but the file of that object, to the address of that client and once at most, and it does so
when a connection from there asks for it first. -/
theorem streams_routed (cfg : ServiceConfig) (hfresh : cfg.system.FreshIds)
    {events : List ServiceEvent} {s : Service}
    (hrun : script (serviceStep cfg) (.start cfg) events = some s) : StreamsRouted cfg s := by
  have hinv : StreamsInv cfg s :=
    script_invariant (fun _ _ _ h hs => StreamsInv.step hfresh h hs) (.start cfg) hrun
  exact hinv.streamsRouted

/-! ## The stream of one file -/

/-- A coding of two requests: to start the job `/srv`, and for the file `0`. -/
def streamRequests : Protobuf PullRequest where
  byteSizeLong _ := 1
  serializeAsString req := if req = .start (text "/srv") then [1] else [2]
  parseFromString bytes :=
    if bytes = [1] then some (.start (text "/srv"))
    else if bytes = [2] then some (.file (text "0")) else none

/-- A service of one file; ids are told apart by their lengths. -/
def streamService : ServiceConfig :=
  .onFileSystem oneFile 1 (text "/") { localServer with protobuf := streamRequests }
    flatHashMap
    (fun i => { srvContext with secureRandomId := fun n => List.replicate (Nat.pair i n + 1) 48 })
    helloIntegrity 4 (fun _ => helloClient)

theorem streamService_fresh : streamService.system.FreshIds := by
  intro i j m n h
  have hlength := congrArg List.length h
  have hpair : Nat.pair i m = Nat.pair j n := by
    simpa [streamService, ServiceConfig.onFileSystem, SessionConfig.onFileSystem] using hlength
  exact Nat.pair_eq_pair.1 hpair

/-- The messages of the session for its client. -/
def streamMessages : List PullResponse :=
  (script (sessionStep (streamService.system.session 0))
    (.start (streamService.system.session 0) .empty) oneFileSession).elim [] (·.stream)

/-- A client reads the message of the file, and somebody on its host asks for the file. -/
def streaming : List ServiceEvent :=
  .server (.connection (resumeClient 1)) ::
    (oneFileSession.take 10).map (fun event => .server (.session 0 event)) ++
    ((streamMessages.take 3).flatMap reading).dropLast.map (fun event => .client 0 (.client event)) ++
    [.server (.connection (resumeClient 2))]

theorem streams_routed_streaming :
    ∃ s, script (serviceStep streamService) (.start streamService) streaming = some s ∧
      (objectsOf (s.clients 0).client.received).map (·.path) = [text "d", text "d/f"] ∧
      s.server.redeemed = [some (text "0")] ∧ StreamsRouted streamService s := by
  have hends : (script (serviceStep streamService) (.start streamService) streaming).map (fun s =>
      ((objectsOf (s.clients 0).client.received).map (·.path), s.server.redeemed)) =
      some ([text "d", text "d/f"], [some (text "0")]) := by decide +kernel
  obtain ⟨s, hrun, hs⟩ := Option.map_eq_some_iff.1 hends
  obtain ⟨hreceived, hredeemed⟩ := Prod.mk.inj hs
  exact ⟨s, hrun, hreceived, hredeemed, streams_routed streamService streamService_fresh hrun⟩

end Netpull
