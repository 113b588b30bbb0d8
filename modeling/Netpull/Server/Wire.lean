import Netpull.Network.Framing
import Netpull.Server.Serves
import Netpull.Server.SessionEnds

/-!
# The connection of a session

The threads of a session send on one connection, in pieces: the manager, and the workers that run
its integrity tasks. Objects are sent under `conn_mutex`, the first and the last message without it.
Still no two threads send at the same time, so what is on the wire are whole frames, in the order of
the messages, and a part of one (`wire_framed`).
-/

namespace Netpull

open Transition

/-- A thread that can send. -/
inductive Writer
  | manager
  | worker (j : Nat)
deriving DecidableEq, Repr

/-- A call of `SendProtobufMessage` that has not returned; it has not sent `rest`. -/
structure Write where
  writer : Writer
  /-- It is made under `conn_mutex`. -/
  locks : Bool
  rest : Bytes
deriving DecidableEq, Repr

structure WireState where
  session : SessionState
  /-- All that was sent. -/
  wire : Bytes
  writes : List Write

def WireState.start (cfg : SessionConfig) (readyFiles : ReadyFilesMap) : WireState :=
  ⟨.start cfg readyFiles, [], []⟩

/-- The thread of an event. A worker that takes a task was free. -/
def SessionEvent.writer : SessionEvent → Option Writer
  | .manager => some .manager
  | .pop _ => none
  | .run j | .finish j => some (.worker j)

/-- The workers after one that is free again move up. -/
def SessionEvent.rename : SessionEvent → Writer → Writer
  | .finish j, .worker i => .worker (if j < i then i - 1 else i)
  | _, writer => writer

/-- What an event sends is sent under `conn_mutex`. -/
def SessionState.locks (s : SessionState) : SessionEvent → Bool
  | .manager =>
    match s.pc with
    | .sending _ _ => true
    | _ => false
  | _ => true

/-- An event of a thread that is not at a call; if it sends a message, its call begins. -/
def WireState.act (P : Protobuf PullResponse) (cfg : SessionConfig) (s : WireState)
    (event : SessionEvent) : Option WireState :=
  if s.writes.any fun w => event.writer = some w.writer then none
  else
    (sessionStep cfg s.session event).bind fun session =>
      let writes := s.writes.map fun w => { w with writer := event.rename w.writer }
      match session.stream.drop s.session.stream.length, event.writer with
      | resp :: _, some writer =>
        if s.session.locks event && s.writes.any (·.locks) then none
        else
          some { s with
            session, writes := writes ++ [⟨writer, s.session.locks event, frame P resp⟩] }
      | _, _ => some { s with session, writes }

inductive WireEvent
  | session (event : SessionEvent)
  | write (i k : Nat)
deriving DecidableEq, Repr

/-- An event on the connection. `write i k` sends the next `k` bytes of a call, which returns when it
has sent them all. A process that dies stops sending, but for what the manager had sent before. -/
def wireStep (P : Protobuf PullResponse) (cfg : SessionConfig) (s : WireState) :
    WireEvent → Option WireState
  | .session event => s.act P cfg event
  | .write i k =>
    s.writes[i]?.bind fun w =>
      if (s.session.pc ≠ .dead ∨ w.writer = .manager) ∧ 0 < k ∧ k ≤ w.rest.length then
        some { s with
          wire := s.wire ++ w.rest.take k
          writes :=
            if k = w.rest.length then s.writes.eraseIdx i
            else s.writes.set i { w with rest := w.rest.drop k } }
      else none

/-! ## One thread at a time -/

section Invariant

variable {P : Protobuf PullResponse} {cfg : SessionConfig} {s s' : WireState}

/-- The pool has nothing to do. -/
def Idle (pool : WorkerPool IntegrityTask IntegrityRun) : Prop :=
  pool.queue = [] ∧ pool.running = []

/-- Who is at a call holds the mutex, or is the manager while there are no tasks. A worker at a call
has run its task and is not free yet. -/
def Write.Allowed (pool : WorkerPool IntegrityTask IntegrityRun) (w : Write) : Prop :=
  match w.writer with
  | .manager => w.locks = true ∨ Idle pool
  | .worker j => w.locks = true ∧ pool.running[j]? = some .returned

structure Wired (P : Protobuf PullResponse) (cfg : SessionConfig) (s : WireState) : Prop where
  serves : Serves cfg s.session
  unstarted : s.session.pc = .starting → Idle s.session.pool
  one : s.writes.length ≤ 1
  allowed : ∀ w ∈ s.writes, w.Allowed s.session.pool
  unfinished : ∀ w ∈ s.writes, w.rest ≠ []
  wire : s.wire ++ s.writes.flatMap (·.rest) = s.session.stream.flatMap (frame P)

theorem Wired.start (readyFiles : ReadyFilesMap) : Wired P cfg (.start cfg readyFiles) where
  serves := .start cfg readyFiles
  unstarted := fun _ => ⟨rfl, rfl⟩
  one := Nat.zero_le 1
  allowed := by rintro w ⟨⟩
  unfinished := by rintro w ⟨⟩
  wire := rfl

theorem handleStep_pc_ne_starting (cfg : SessionConfig) (s : SessionState) (o : FsObject)
    (todo : List FsObject) : (handleStep cfg s o todo).pc ≠ .starting := by
  unfold handleStep
  split <;> exact ManagerPc.noConfusion

theorem unstarted_step {s s' : SessionState} (h : s.pc = .starting → Idle s.pool)
    {event : SessionEvent} (hs : sessionStep cfg s event = some s') :
    s'.pc = .starting → Idle s'.pool := by
  intro hpc
  cases sessionStep_cases hs with
  | manager hmanager =>
    cases managerStep_cases hmanager with
    | handles o todo => exact absurd hpc (handleStep_pc_ne_starting cfg s o todo)
    | _ => cases hpc
  | pops i pool hpop => simp [WorkerPool.waitForTaskAndPop, (h hpc).1] at hpop
  | runs j task hj => simp [(h hpc).2] at hj
  | finishes j hj => simp [(h hpc).2] at hj

/-- When the manager has waited for the key, there are no tasks left. -/
theorem Serves.idle {s : SessionState} (h : Serves cfg s) (hpc : s.pc = .finishing) :
    Idle s.pool := by
  cases h with
  | refuses _ hinv => exact absurd (hpc ▸ hinv.pc) (by simp)
  | visits _ _ _ _ hinv =>
    have hbalanced := hinv.balanced
    have hdemands := hinv.demands
    rw [hpc] at hbalanced hdemands
    obtain ⟨hqueue, hrunning, -⟩ := hbalanced.idle hdemands
    exact ⟨hqueue, hrunning⟩

/-- What an event of a session that sends something does to the pool. -/
theorem sessionStep_sender {s s' : SessionState} (h : Serves cfg s)
    (hunstarted : s.pc = .starting → Idle s.pool) {event : SessionEvent}
    (hs : sessionStep cfg s event = some s') (hsends : s'.stream ≠ s.stream) :
    (event = .manager ∧ s'.pool = s.pool ∧ (s.locks event = true ∨ Idle s.pool)) ∨
      ∃ j task, event = .run j ∧ s.pool.running[j]? = some (.running task) ∧
        s'.pool = s.pool.goOn j .returned := by
  cases sessionStep_cases hs with
  | manager hmanager =>
    left
    cases managerStep_cases hmanager with
    | rejects hpc | starts hpc | dies hpc => exact ⟨rfl, rfl, .inr (hunstarted hpc)⟩
    | finishes hpc => exact ⟨rfl, rfl, .inr (h.idle hpc)⟩
    | sends pull todo hpc => exact ⟨rfl, rfl, .inl (by simp only [SessionState.locks, hpc])⟩
    | handles o todo => exact absurd (handleStep_stream o todo) hsends
    | visited | prepares | submits | drained => exact absurd rfl hsends
  | runs j task hj => exact .inr ⟨j, task, rfl, hj, rfl⟩
  | pops | finishes => exact absurd rfl hsends

/-- The events of a thread that is not at a call. -/
inductive Acts (P : Protobuf PullResponse) (cfg : SessionConfig) (s : WireState)
    (event : SessionEvent) : WireState → Prop
  | quiet (session : SessionState) (step : sessionStep cfg s.session event = some session)
      (stream : session.stream = s.session.stream) :
      Acts P cfg s event { s with
        session, writes := s.writes.map fun w => { w with writer := event.rename w.writer } }
  | begins (session : SessionState) (step : sessionStep cfg s.session event = some session)
      (resp : PullResponse) (stream : session.stream = s.session.stream ++ [resp])
      (writer : Writer) (thread : event.writer = some writer)
      (mutex : s.session.locks event = true → ∀ w ∈ s.writes, w.locks = false) :
      Acts P cfg s event { s with
        session
        writes := (s.writes.map fun w => { w with writer := event.rename w.writer }) ++
          [⟨writer, s.session.locks event, frame P resp⟩] }

theorem act_cases {event : SessionEvent} (hs : s.act P cfg event = some s') :
    Acts P cfg s event s' ∧ ∀ w ∈ s.writes, event.writer ≠ some w.writer := by
  unfold WireState.act at hs
  split at hs
  · cases hs
  · next hfree =>
    have hfree : ∀ w ∈ s.writes, event.writer ≠ some w.writer := by simpa using hfree
    refine ⟨?_, hfree⟩
    obtain ⟨session, hstep, hact⟩ := Option.bind_eq_some_iff.1 hs
    obtain ⟨new, hsends⟩ := sessionStep_sends hstep
    rw [hsends.stream, List.drop_left] at hact
    cases new with
    | nil =>
      obtain rfl := Option.some.inj hact
      exact .quiet session hstep (by rw [hsends.stream, List.append_nil])
    | cons resp rest =>
      obtain rfl : rest = [] :=
        List.length_eq_zero_iff.1 (Nat.le_zero.1 (Nat.le_of_succ_le_succ hsends.few))
      cases hthread : event.writer with
      | none =>
        cases event with
        | pop i =>
          cases sessionStep_cases hstep with
          | pops i pool hpop => simpa using hsends.stream
        | _ => cases hthread
      | some writer =>
        rw [hthread] at hact
        simp only at hact
        split at hact
        · cases hact
        · next hmutex =>
          obtain rfl := Option.some.inj hact
          refine .begins session hstep resp hsends.stream writer hthread ?_
          simpa using hmutex

/-- A call that is allowed stays so while other threads do something. -/
theorem Write.Allowed.step {w : Write} {s s' : SessionState} (h : w.Allowed s.pool)
    {event : SessionEvent} (hs : sessionStep cfg s event = some s')
    (hfree : event.writer ≠ some w.writer) :
    ({ w with writer := event.rename w.writer } : Write).Allowed s'.pool := by
  obtain ⟨writer, locks, rest⟩ := w
  cases writer with
  | manager =>
    have hsame : event.rename .manager = .manager := by cases event <;> rfl
    rw [hsame]
    refine Or.imp_right (fun hidle : Idle s.pool => ?_) h
    cases sessionStep_cases hs with
    | manager => exact absurd rfl hfree
    | pops i pool hpop => simp [WorkerPool.waitForTaskAndPop, hidle.1] at hpop
    | runs j task hj => simp [hidle.2] at hj
    | finishes j hj => simp [hidle.2] at hj
  | worker i =>
    obtain ⟨hlocks, hi⟩ : locks = true ∧ s.pool.running[i]? = some .returned := h
    obtain ⟨hlt, -⟩ := List.getElem?_eq_some_iff.1 hi
    cases sessionStep_cases hs with
    | manager hmanager =>
      refine ⟨hlocks, ?_⟩
      cases managerStep_cases hmanager with
      | handles o todo =>
        show (handleStep cfg s o todo).pool.running[i]? = _
        have hpool : (handleStep cfg s o todo).pool = s.pool := by
          unfold handleStep
          split <;> rfl
        rwa [hpool]
      | _ => exact hi
    | pops k pool hpop =>
      obtain ⟨task, -, rfl⟩ := WorkerPool.waitForTaskAndPop_some hpop
      exact ⟨hlocks, by rw [List.getElem?_append_left hlt]; exact hi⟩
    | runs j task hj =>
      have hne : j ≠ i := fun e => hfree (by rw [SessionEvent.writer, e])
      exact ⟨hlocks, by rw [WorkerPool.goOn, List.getElem?_set_ne hne]; exact hi⟩
    | finishes j hj =>
      have hne : j ≠ i := fun e => hfree (by rw [SessionEvent.writer, e])
      refine ⟨hlocks, ?_⟩
      show (s.pool.running.eraseIdx j)[if j < i then i - 1 else i]? = _
      split
      · next hji =>
        rw [List.getElem?_eraseIdx_of_ge (by omega), Nat.sub_add_cancel (by omega)]
        exact hi
      · rw [List.getElem?_eraseIdx_of_lt (by omega)]
        exact hi

/-- **Mutual exclusion.** A thread that begins to send is the only one: an object waits for the
mutex, and for the first and the last message there are no tasks. -/
theorem Wired.alone (h : Wired P cfg s) {event : SessionEvent} {session : SessionState}
    (hstep : sessionStep cfg s.session event = some session)
    (hsends : session.stream ≠ s.session.stream)
    (hfree : ∀ w ∈ s.writes, event.writer ≠ some w.writer)
    (hmutex : s.session.locks event = true → ∀ w ∈ s.writes, w.locks = false) : s.writes = [] := by
  by_contra hne
  obtain ⟨w, hw⟩ := List.exists_mem_of_ne_nil _ hne
  have hallowed := h.allowed w hw
  have hother := hfree w hw
  unfold Write.Allowed at hallowed
  rcases sessionStep_sender h.serves h.unstarted hstep hsends with
    ⟨rfl, -, hmanager⟩ | ⟨j, task, rfl, hj, -⟩
  · cases hwriter : w.writer with
    | manager => exact hother (by rw [hwriter]; rfl)
    | worker i =>
      rw [hwriter] at hallowed
      rcases hmanager with hlocks | hidle
      · rw [hmutex hlocks w hw] at hallowed
        cases hallowed.1
      · simp [hidle.2] at hallowed
  · cases hwriter : w.writer with
    | manager =>
      rw [hwriter, hmutex rfl w hw] at hallowed
      rcases hallowed with hlocks | hidle
      · cases hlocks
      · simp [hidle.2] at hj
    | worker i =>
      rw [hwriter, hmutex rfl w hw] at hallowed
      cases hallowed.1

/-- An event of a thread that is not at a call. -/
theorem Wired.act (hcfg : Servable cfg) (h : Wired P cfg s) {event : SessionEvent}
    (hs : s.act P cfg event = some s') : Wired P cfg s' := by
  obtain ⟨hacts, hfree⟩ := act_cases hs
  cases hacts with
  | quiet session hstep hstream =>
    refine ⟨h.serves.step hcfg hstep, unstarted_step h.unstarted hstep, ?_, ?_, ?_, ?_⟩
    · rw [List.length_map]
      exact h.one
    · intro w' hw'
      obtain ⟨w, hw, rfl⟩ := List.mem_map.1 hw'
      exact (h.allowed w hw).step hstep (hfree w hw)
    · intro w' hw'
      obtain ⟨w, hw, rfl⟩ := List.mem_map.1 hw'
      exact h.unfinished w hw
    · rw [List.flatMap_map, hstream]
      exact h.wire
  | begins session hstep resp hstream writer hthread hmutex =>
    have hsends : session.stream ≠ s.session.stream := by
      rw [hstream]
      simp
    have hnone := h.alone hstep hsends hfree hmutex
    refine ⟨h.serves.step hcfg hstep, unstarted_step h.unstarted hstep, ?_, ?_, ?_, ?_⟩
    · rw [hnone]
      exact Nat.le_refl 1
    · intro w hw
      rw [hnone] at hw
      obtain rfl := List.mem_singleton.1 hw
      rcases sessionStep_sender h.serves h.unstarted hstep hsends with
        ⟨rfl, hpool, hmanager⟩ | ⟨j, task, rfl, hj, hpool⟩
      · obtain rfl := Option.some.inj hthread
        show _ = true ∨ Idle session.pool
        rwa [hpool]
      · obtain rfl := Option.some.inj hthread
        obtain ⟨hlt, -⟩ := List.getElem?_eq_some_iff.1 hj
        refine ⟨rfl, ?_⟩
        rw [hpool, WorkerPool.goOn, List.getElem?_set_self hlt]
    · intro w hw
      rw [hnone] at hw
      obtain rfl := List.mem_singleton.1 hw
      simp [frame, bigEndian]
    · have hwire := h.wire
      rw [hnone, List.flatMap_nil, List.append_nil] at hwire
      simp only [hnone, hstream, hwire, List.map_nil, List.nil_append, List.flatMap_append]
      rfl

/-- A call goes on. -/
theorem Wired.write (h : Wired P cfg s) {i k : Nat} (hs : wireStep P cfg s (.write i k) = some s') :
    Wired P cfg s' := by
  obtain ⟨w, hw, hgoes⟩ := Option.bind_eq_some_iff.1 hs
  split at hgoes
  · next hmay =>
    obtain ⟨-, hpos, hk⟩ := hmay
    obtain rfl := Option.some.inj hgoes
    obtain ⟨rfl, hwrites⟩ : i = 0 ∧ s.writes = [w] := by
      obtain ⟨hi, -⟩ := List.getElem?_eq_some_iff.1 hw
      have hone := h.one
      obtain rfl : i = 0 := by omega
      obtain ⟨w', hw'⟩ := List.length_eq_one_iff.1 (Nat.le_antisymm hone hi)
      rw [hw'] at hw
      exact ⟨rfl, by rw [hw', Option.some.inj hw]⟩
    have hallowed := h.allowed w (by simp [hwrites])
    have hwire := h.wire
    simp only [hwrites, List.flatMap_singleton] at hwire
    rw [hwrites]
    split
    · next hall =>
      refine ⟨h.serves, h.unstarted, Nat.zero_le 1, by rintro w ⟨⟩, by rintro w ⟨⟩, ?_⟩
      show s.wire ++ w.rest.take k ++ [] = _
      rw [hall, List.take_length, List.append_nil]
      exact hwire
    · next hpart =>
      refine ⟨h.serves, h.unstarted, Nat.le_refl 1, ?_, ?_, ?_⟩
      · intro w' hw'
        obtain rfl := List.mem_singleton.1 hw'
        exact hallowed
      · intro w' hw'
        obtain rfl := List.mem_singleton.1 hw'
        rw [ne_eq, List.drop_eq_nil_iff]
        omega
      · show s.wire ++ w.rest.take k ++ ([{ w with rest := w.rest.drop k }] : List Write).flatMap _ = _
        rw [List.flatMap_singleton, List.append_assoc, List.take_append_drop]
        exact hwire
  · cases hgoes

theorem Wired.step (hcfg : Servable cfg) (h : Wired P cfg s) {event : WireEvent}
    (hs : wireStep P cfg s event = some s') : Wired P cfg s' := by
  cases event with
  | session event => exact h.act hcfg hs
  | write i k => exact h.write hs

/-- Every run on the connection is a run of the session. -/
theorem wire_simulates (P : Protobuf PullResponse) (cfg : SessionConfig) :
    ∀ s event s', wireStep P cfg s event = some s' →
      s'.session = s.session ∨ ∃ e, sessionStep cfg s.session e = some s'.session := by
  intro s event s' hs
  cases event with
  | session event =>
    right
    cases (act_cases hs).1 with
    | quiet session hstep => exact ⟨event, hstep⟩
    | begins session hstep => exact ⟨event, hstep⟩
  | write i k =>
    left
    obtain ⟨w, -, hgoes⟩ := Option.bind_eq_some_iff.1 hs
    split at hgoes
    · exact Option.some.inj hgoes ▸ rfl
    · cases hgoes

end Invariant

/-- **What is on the wire.** For every tree, every job and every schedule of the manager and its
workers, however their calls are split, as long as none fails: never do two threads send at the same
time, and what was sent, with what the one that sends has left, are the frames of the messages in
the order of a run of the session. -/
theorem wire_framed (P : Protobuf PullResponse) (fs : FileSystem) (ctx : CrawlContext) {root : Bytes}
    (habs : isAbsolute root = true) (hres : isResolved root = true) {fuel : Nat}
    (hfuel : fs.tree.dirCount ≤ fuel) (integrity : Bytes → IntegrityCalls) (workers : Nat)
    (readyFiles : ReadyFilesMap) {schedule : List WireEvent} {s : WireState} :
    let cfg : SessionConfig := .onFileSystem fs fuel ctx root integrity workers
    script (wireStep P cfg) (.start cfg readyFiles) schedule = some s →
      s.writes.length ≤ 1 ∧
      s.wire ++ s.writes.flatMap (·.rest) = s.session.stream.flatMap (frame P) ∧
      ∃ events, script (sessionStep cfg) (.start cfg readyFiles) events = some s.session := by
  intro cfg hrun
  have hcfg : Servable cfg := servable_onFileSystem fs ctx habs hres hfuel integrity workers
  have hwired : Wired P cfg s :=
    script_invariant (fun _ _ _ h hs => h.step hcfg hs) (.start readyFiles) hrun
  refine ⟨hwired.one, hwired.wire, ?_⟩
  have hstep : ∀ (s : WireState) event s',
      (∃ events, script (sessionStep cfg) (.start cfg readyFiles) events = some s.session) →
      wireStep P cfg s event = some s' →
      ∃ events, script (sessionStep cfg) (.start cfg readyFiles) events = some s'.session := by
    rintro s event s' ⟨events, hevents⟩ hs
    rcases wire_simulates P cfg s event s' hs with hsame | ⟨e, he⟩
    · exact ⟨events, hsame ▸ hevents⟩
    · refine ⟨events ++ [e], ?_⟩
      rw [script_append, hevents, Option.bind_some, script, he]
      rfl
  exact script_invariant hstep ⟨[], rfl⟩ hrun

/-! ## The connection for one file -/

/-- The objects of a session for one file. -/
def oneFileObjects : List PullObject :=
  [{ number := 1, path := text "d", type := .kTypeDirectory, owner := ⟨0, 0, [], []⟩
     times := ⟨⟨0, 0⟩, ⟨0, 0⟩⟩, transfer := none, data := .nonlink ⟨0o755⟩ },
   { number := 2, path := text "d/f", type := .kTypeFile, owner := ⟨0, 0, [], []⟩
     times := ⟨⟨0, 0⟩, ⟨0, 0⟩⟩, transfer := some ⟨hexlify (text "digest"), 5, text "0f"⟩
     data := .nonlink ⟨0o644⟩ }]

/-- The messages of a session for one file, with their serializations. -/
def oneFileMessages : List (PullResponse × Bytes) :=
  List.zip (.started (text "0f") :: oneFileObjects.map .object ++ [.finished 2])
    [[0x0a, 4, 0x0a, 2, 48, 102],
     [0x1a, 18, 8, 1, 0x12, 1, 100, 0x22, 0, 0x2a, 4, 0x0a, 0, 0x12, 0, 0x3a, 3, 8, 0xed, 3],
     [0x1a, 44, 8, 2, 0x12, 3, 100, 47, 102, 0x18, 1, 0x22, 0, 0x2a, 4, 0x0a, 0, 0x12, 0,
      0x32, 20, 0x0a, 12, 54, 52, 54, 57, 54, 55, 54, 53, 55, 51, 55, 52, 0x10, 5, 0x1a, 2, 48, 102,
      0x3a, 3, 8, 0xa4, 3],
     [0x12, 2, 8, 2]]

/-- The coding of these messages. -/
def oneFileCoding : Protobuf PullResponse where
  byteSizeLong m := ((oneFileMessages.lookup m).getD []).length
  serializeAsString m := (oneFileMessages.lookup m).getD []
  parseFromString bytes := (oneFileMessages.find? fun x => x.2 = bytes).map (·.1)

/-- The session for one file, where some calls take two pieces. -/
def oneFileWrites : List WireEvent :=
  [.session .manager, .write 0 3, .write 0 7, .session .manager, .session .manager, .write 0 24,
    .session .manager, .session .manager, .session .manager, .session .manager, .session (.pop 0),
    .session (.run 0), .write 0 4, .write 0 46, .session (.finish 0), .session .manager,
    .session .manager, .write 0 8]

theorem wire_framed_oneFile :
    let cfg : SessionConfig := .onFileSystem oneFile 1 srvContext (text "/") helloIntegrity 4
    ∃ s, script (wireStep oneFileCoding cfg) (.start cfg .empty) oneFileWrites = some s ∧
      s.wire.length = 92 ∧ s.writes.length ≤ 1 ∧
      s.wire ++ s.writes.flatMap (·.rest) = s.session.stream.flatMap (frame oneFileCoding) ∧
      ∃ events, script (sessionStep cfg) (.start cfg .empty) events = some s.session := by
  intro cfg
  have hends : (script (wireStep oneFileCoding cfg) (.start cfg .empty) oneFileWrites).map
      (·.wire.length) = some 92 := by decide +kernel
  obtain ⟨s, hrun, hlength⟩ := Option.map_eq_some_iff.1 hends
  exact ⟨s, hrun, hlength, wire_framed oneFileCoding oneFile srvContext rfl rfl (Nat.le_refl 1)
    helloIntegrity 4 .empty hrun⟩

end Netpull
