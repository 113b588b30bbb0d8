import Netpull.Network.Framing
import Netpull.Server.ClientSendCrawler

/-!
# The accept loop

What the main thread of the server makes of one connection: the body of its loop, on the jobs, the
ready files and the queue of tasks as it finds them. The loop beside the other threads is the system
of `Server/Tickets`.

`handleConnection_refused` says that a connection the server has nothing to do for changes nothing,
and `handleConnection_next_iff` after which connections the loop comes back to `Accept`.
-/

namespace Netpull

open SocketConnection

/-- What the accept loop works with. -/
structure ServerConfig where
  env : Environment
  endian : Endian
  protobuf : Protobuf PullRequest
  denyIpRanges : List IpRange
  allowIpRanges : List IpRange

/-- A task in the queue of the server. -/
inductive ServerTask
  | fileIntegrity (task : IntegrityTask)
  | fileStream (conn : SocketConnection) (path : Bytes) (bytes : UInt64)
deriving DecidableEq

/-- The state of the loop, with the connections for which it has started a manager thread and the
ids of their jobs. -/
structure ServerState where
  jobs : Bytes → Option Job
  readyFiles : ReadyFilesMap
  tasks : List ServerTask
  managers : List (SocketConnection × Bytes)

/-- What `Job::Load` finds at a path. -/
inductive FoundLog
  | none
  | file (log : Job.LogFile)
  /-- Something that can be opened, and of which the reading comes to no end, such as a device. -/
  | endless

def FoundLog.isEndless : FoundLog → Bool
  | .endless => true
  | .none | .file _ => false

/-- An accepted connection, whose client sends some bytes and closes, with what the calls made for
it will come to. -/
structure Accepted where
  conn : SocketConnection
  onlyEintr : OnlyEintr conn.recvs
  newCalls : Job.NewCalls
  newId : Bytes
  now : Job.PrintedTime
  logAt : Bytes → FoundLog

/-- The log at a path, if its reading comes to an end. -/
def Accepted.openLog (a : Accepted) (path : Bytes) : Option Job.LogFile :=
  match a.logAt path with
  | .file log => some log
  | .none | .endless => Option.none

/-- How the loop goes on after a connection. -/
inductive Control
  | next
  | exit (code : Nat)
  /-- It reads a log that has no end. -/
  | hangs
deriving DecidableEq, Repr

/-- `main` returns. -/
def Control.exits : Control → Bool
  | .exit _ => true
  | .next | .hangs => false

/-- `jobs.emplace`: what is there already stays. -/
def emplace (jobs : Bytes → Option Job) (id : Bytes) (job : Job) : Bytes → Option Job :=
  match jobs id with
  | none => Function.update jobs id (some job)
  | some _ => jobs

/-- The end of the branch for `start` and `continue`. -/
def ServerState.startManager (s : ServerState) (conn : SocketConnection) (job : Job) :
    ServerState :=
  { s with jobs := emplace s.jobs job.id job, managers := s.managers ++ [(conn, job.id)] }

/-- The part of the loop that follows the reading of the request. -/
def handleRequest (cfg : ServerConfig) (s : ServerState) (a : Accepted) (conn : SocketConnection) :
    PullRequest → ServerState
  | .start path =>
    match Job.new a.newCalls a.newId a.now path with
    | some job => s.startManager conn job
    | none => s
  | .continue_ id =>
    match Job.load cfg.env a.openLog id with
    | some job => s.startManager conn job
    | none => s
  | .file id =>
    match s.readyFiles.getAndPopIf id fun ready => conn.peer = ready.address with
    | (some ready, readyFiles) =>
      { s with readyFiles, tasks := s.tasks ++ [.fileStream conn ready.path ready.bytes] }
    | (none, readyFiles) => { s with readyFiles }
  | .success id path =>
    match s.jobs id with
    | some job => { s with jobs := Function.update s.jobs id (some (job.markCompleted path)) }
    | none => s
  | .unset => s

/-- The log that a request names has no end, so the loop of `Job::Load` that reads it has none. -/
def Accepted.loadsEndless (cfg : ServerConfig) (a : Accepted) : PullRequest → Bool
  | .continue_ id => (a.logAt (cstr (Job.logPath cfg.env id))).isEndless
  | .start _ | .file _ | .success _ _ | .unset => false

/-- How the loop goes on after a request that was read. -/
def Accepted.after (cfg : ServerConfig) (a : Accepted) (req : PullRequest) : Control :=
  if a.loadsEndless cfg req then .hangs else .next

/-- The body of the loop. -/
def handleConnection (cfg : ServerConfig) (s : ServerState) (a : Accepted) :
    ServerState × Control :=
  if IpRange.multiContains cfg.denyIpRanges a.conn.peer then (s, .next)
  else if !IpRange.multiContains cfg.allowIpRanges a.conn.peer then (s, .next)
  else
    match readProtobufMessage cfg.endian cfg.protobuf a.conn with
    | (none, _) => (s, .exit 1)
    | (some req, conn) => (handleRequest cfg s a conn req, a.after cfg req)

/-! ## Which connections are refused -/

/-- The peer may send a request. -/
def Admitted (cfg : ServerConfig) (peer : IpAddress) : Prop :=
  IpRange.multiContains cfg.denyIpRanges peer = false ∧
    IpRange.multiContains cfg.allowIpRanges peer = true

instance (cfg : ServerConfig) (peer : IpAddress) : Decidable (Admitted cfg peer) :=
  inferInstanceAs (Decidable (_ ∧ _))

/-- The request names nothing that the server has for this client, or cannot be granted. -/
def Unknown (cfg : ServerConfig) (s : ServerState) (a : Accepted) : PullRequest → Prop
  | .start path => Job.new a.newCalls a.newId a.now path = none
  | .continue_ id => Job.load cfg.env a.openLog id = none
  | .file id => ∀ ready, s.readyFiles.data id = some ready → a.conn.peer ≠ ready.address
  | .success id _ => s.jobs id = none
  | .unset => True

/-- A connection the server has nothing to do for: its peer is not admitted, its bytes hold no
request, or the request is unknown. -/
def Refused (cfg : ServerConfig) (s : ServerState) (a : Accepted) : Prop :=
  Admitted cfg a.conn.peer → ∀ req, framedMessage cfg.protobuf a.conn.incoming = some req →
    Unknown cfg s a req

/-- The bytes begin with a whole frame whose content can be parsed. -/
def WellFramed {M : Type} (P : Protobuf M) (bytes : Bytes) : Prop :=
  4 + (ofBigEndian (bytes.take 4)).toNat ≤ bytes.length ∧
    (P.parseFromString ((bytes.drop 4).take (ofBigEndian (bytes.take 4)).toNat)).isSome

theorem wellFramed_iff {M : Type} {P : Protobuf M} {bytes : Bytes} :
    WellFramed P bytes ↔ ∃ m, framedMessage P bytes = some m := by
  rw [← Option.isSome_iff_exists]
  unfold WellFramed framedMessage
  by_cases hlen : 4 + (ofBigEndian (bytes.take 4)).toNat ≤ bytes.length <;> simp [hlen]

/-! ## One connection -/

theorem readProtobufMessage_peer {M : Type} (e : Endian) (P : Protobuf M) (c : SocketConnection) :
    (readProtobufMessage e P c).2.peer = c.peer := by
  have hbytes : ∀ size answers (c : SocketConnection),
      (readBytesLoop size answers c).2.peer = c.peer := by
    intro size answers
    induction answers with
    | nil => intro c; rfl
    | cons answer answers ih =>
      intro c
      cases answer with
      | upTo n => rfl
      | fail errno =>
        rw [readBytesLoop]
        split
        · exact ih c
        · rfl
  have hall : ∀ fuel missing buffer (c : SocketConnection),
      (readAllLoop fuel missing buffer c).2.peer = c.peer := by
    intro fuel
    induction fuel with
    | zero => intro missing buffer c; cases missing <;> rfl
    | succ fuel ih =>
      intro missing buffer c
      cases missing with
      | zero => rfl
      | succ missing =>
        have hread := hbytes (missing + 1) c.recvs c
        rw [readAllLoop, readBytes]
        split
        · next hc' => rwa [hc'] at hread
        · next hc' => rwa [hc'] at hread
        · next hc' =>
          rw [hc'] at hread
          exact (ih _ _ _).trans hread
  have hsize := hall 4 4 [] c
  rw [readProtobufMessage, readAllBytes]
  split
  · next hc' => rwa [hc'] at hsize
  · next bytes c' hc' =>
    rw [hc'] at hsize
    have hbody := hall (e.htonl (e.ofMemory bytes)).toNat (e.htonl (e.ofMemory bytes)).toNat [] c'
    rw [readAllBytes]
    split
    · next hc'' =>
      rw [hc''] at hbody
      exact hbody.trans hsize
    · next hc'' =>
      rw [hc''] at hbody
      exact hbody.trans hsize

/-- An unknown request changes nothing. -/
theorem handleRequest_unknown {cfg : ServerConfig} {s : ServerState} {a : Accepted}
    {conn : SocketConnection} (hconn : conn.peer = a.conn.peer) {req : PullRequest}
    (h : Unknown cfg s a req) : handleRequest cfg s a conn req = s := by
  cases req with
  | unset => rfl
  | start path =>
    unfold Unknown at h
    rw [handleRequest, h]
  | continue_ id =>
    unfold Unknown at h
    rw [handleRequest, h]
  | success id path =>
    unfold Unknown at h
    rw [handleRequest, h]
  | file id =>
    have hpop : s.readyFiles.getAndPopIf id (fun ready => conn.peer = ready.address) =
        (none, s.readyFiles) := by
      apply GuardedMap.getAndPopIf_none
      intro ready hready
      rw [hconn, decide_eq_false (h ready hready)]
    rw [handleRequest, hpop]

theorem handleConnection_notAdmitted {cfg : ServerConfig} {a : Accepted}
    (h : ¬ Admitted cfg a.conn.peer) (s : ServerState) :
    handleConnection cfg s a = (s, .next) := by
  unfold handleConnection
  split
  · rfl
  · next hdeny =>
    rw [if_pos]
    rw [Bool.not_eq_true', Bool.eq_false_iff]
    intro hallow
    exact h ⟨Bool.eq_false_iff.2 hdeny, hallow⟩

/-- What an admitted peer gets depends on the message its bytes begin with. -/
theorem handleConnection_admitted {cfg : ServerConfig} {a : Accepted}
    (h : Admitted cfg a.conn.peer) (s : ServerState) :
    ∃ conn : SocketConnection, conn.peer = a.conn.peer ∧ handleConnection cfg s a =
      match framedMessage cfg.protobuf a.conn.incoming with
      | none => (s, .exit 1)
      | some req => (handleRequest cfg s a conn req, a.after cfg req) := by
  refine ⟨_, readProtobufMessage_peer cfg.endian cfg.protobuf a.conn, ?_⟩
  unfold handleConnection
  rw [h.1, h.2, ← readProtobufMessage_eq cfg.endian a.onlyEintr]
  generalize readProtobufMessage cfg.endian cfg.protobuf a.conn = r
  obtain ⟨_ | req, conn⟩ := r <;> rfl

/-- A refused connection leaves the state as it was. -/
theorem handleConnection_refused {cfg : ServerConfig} {s : ServerState} {a : Accepted}
    (h : Refused cfg s a) : (handleConnection cfg s a).1 = s := by
  by_cases hadm : Admitted cfg a.conn.peer
  · obtain ⟨conn, hpeer, hhandle⟩ := handleConnection_admitted hadm s
    rw [hhandle]
    cases hreq : framedMessage cfg.protobuf a.conn.incoming with
    | none => rfl
    | some req => exact handleRequest_unknown hpeer (h hadm req hreq)
  · rw [handleConnection_notAdmitted hadm]

/-- The bytes of the connection begin with a request, and the log that it names, if it names one,
has an end. -/
def Accepted.Manageable (cfg : ServerConfig) (a : Accepted) : Prop :=
  WellFramed cfg.protobuf a.conn.incoming ∧
    ∀ req, framedMessage cfg.protobuf a.conn.incoming = some req → a.loadsEndless cfg req = false

/-- The loop goes on after a connection unless an admitted peer sends no request, or asks for a job
whose log has no end. -/
theorem handleConnection_next_iff (cfg : ServerConfig) (s : ServerState) (a : Accepted) :
    (handleConnection cfg s a).2 = .next ↔ (Admitted cfg a.conn.peer → a.Manageable cfg) := by
  by_cases hadm : Admitted cfg a.conn.peer
  · obtain ⟨conn, -, hhandle⟩ := handleConnection_admitted hadm s
    rw [hhandle, Accepted.Manageable, wellFramed_iff]
    cases framedMessage cfg.protobuf a.conn.incoming with
    | none => simp [hadm]
    | some req =>
      cases hendless : a.loadsEndless cfg req <;> simp [Accepted.after, hadm, hendless]
  · simp [handleConnection_notAdmitted hadm, hadm]

/-! ## A client that connects and closes -/

/-- A coding of requests that knows the one without a field and one for the file `0f`. -/
def fileRequests : Protobuf PullRequest where
  byteSizeLong req := if req = .file (text "0f") then 6 else 0
  serializeAsString req :=
    if req = .file (text "0f") then [0x1a, 4, 0x0a, 2, 48, 102] else []
  parseFromString bytes :=
    if bytes = [] then some .unset
    else if bytes = [0x1a, 4, 0x0a, 2, 48, 102] then some (.file (text "0f"))
    else none

/-- A server for the local host alone. -/
def localServer : ServerConfig where
  env := ⟨text "/cache"⟩
  endian := .little
  protobuf := fileRequests
  denyIpRanges := []
  allowIpRanges := [⟨⟨127, 0, 0, 1⟩, none⟩]

/-- A client that connects and closes. -/
def silentClient : Accepted where
  conn := ⟨⟨127, 0, 0, 1⟩, true, [], [], [], [], []⟩
  onlyEintr := fun _ h => absurd h List.not_mem_nil
  newCalls := ⟨false, false, false⟩
  newId := text "id"
  now := Job.epoch
  logAt := fun _ => .none

end Netpull
