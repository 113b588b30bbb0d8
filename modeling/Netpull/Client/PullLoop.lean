import Netpull.Client.FileStream
import Netpull.Client.HandleTransfer
import Netpull.Client.ProgressBuilder
import Netpull.Crypto
import Netpull.Lib.Transition
import Netpull.Parallel.GuardedSet
import Netpull.Parallel.WorkerPool

/-!
# The client

The main loop of the client beside its workers, as a system whose events are the atomic steps of the
threads. What comes in on the main connection is part of the event. `deeds` records what was done in
the destination directory; `toComplete` is what the client itself knows about it.

`toComplete` is taken to change in atomic steps, so no `Erase` overlaps another operation on it; what
an overlap does is modelled in `Client/Races`.
-/

namespace Netpull

open PullObject

/-! ## The tasks -/

/-- What the calls of `FileStreamTask::Run` come to; `stream` is what the server delivers. -/
structure StreamCalls where
  opens : Bool
  pipes : Bool
  connects : Bool
  sends : Bool
  ins : List Answer
  outs : List Answer
  stream : Bytes
  file : Bytes

/-- `FileStreamTask::Run` up to the submission of the integrity task. -/
def StreamCalls.completes (calls : StreamCalls) (bytes : Int32) : Bool :=
  calls.opens && calls.pipes && calls.connects && calls.sends &&
    (receive bytes calls.ins calls.outs calls.stream calls.file).1 = .finished

/-- What `FileIntegrityTask::Run` finds out about a file. If `SHA256_Final` fails, the digests are
not compared. -/
inductive Verdict
  | failed
  | verified
  | unchecked
deriving DecidableEq, Repr

/-- The part of `FileIntegrityTask::Run` before `SetMetadata`. -/
def IntegrityCalls.verdict (calls : IntegrityCalls) (sha256 : Bytes) : Verdict :=
  if !calls.opens then .failed
  else if !calls.eof then .failed
  else
    match calls.finish with
    | some digest => if digest ≠ sha256 then .failed else .verified
    | none => .unchecked

/-- Which calls of `SetMetadata` succeed. -/
structure MetadataCalls where
  utimensat : Bool
  fchmodat : Bool
  fchownat : Bool

/-- `SetMetadata`. -/
def setMetadata (calls : MetadataCalls) (pull : PullObject) : Bool :=
  if !calls.utimensat then false
  else if pull.type = .kTypeFile ∧ !calls.fchmodat then false
  else calls.fchownat

theorem setMetadata_eq_true {calls : MetadataCalls} {pull : PullObject}
    (h : setMetadata calls pull = true) :
    calls.utimensat = true ∧ (pull.type = .kTypeFile → calls.fchmodat = true) := by
  unfold setMetadata at h
  split at h
  · cases h
  · next hutimensat =>
    split at h
    · cases h
    · next hfchmodat =>
      exact ⟨by simpa using hutimensat, fun hfile => by simpa [hfile] using hfchmodat⟩

/-- What the calls made for an object come to. -/
structure ClientCalls where
  /-- The object is created, or is there already where that is allowed. -/
  creates : Bool
  stream : StreamCalls
  integrity : IntegrityCalls
  metadata : MetadataCalls

/-- What `SIGINT` comes to. `SIG_DFL` is the null pointer. -/
inductive SigHandler
  | sigDfl
  | sigIgn
  | handle
deriving DecidableEq, Repr

/-- `SigintHandler`, with what `signal` has set last. -/
structure SigintHandler where
  previousHandler : SigHandler
  current : SigHandler
deriving DecidableEq

/-- `SigintHandler::Activate`; `none` if its assertion fails. -/
def SigintHandler.activate (h : SigintHandler) : Option SigintHandler :=
  if h.previousHandler = .sigDfl then some ⟨h.current, .handle⟩ else none

/-- What a client works with; `calls` are those made for the object with a path. -/
structure ClientConfig where
  dest : Bytes
  calls : Bytes → ClientCalls
  workers : Nat
  /-- What `SIGINT` comes to when the process starts. -/
  disposition : SigHandler
  wcwidth : UInt32 → Int

/-! ## The threads -/

inductive ClientTask
  | fileStream (pull : PullObject)
  | fileIntegrity (pull : PullObject)
deriving DecidableEq

/-- What a worker is at. -/
inductive ClientRun
  | streaming (pull : PullObject)
  | preparing (pull : PullObject)
  | submitting (pull : PullObject)
  | checking (pull : PullObject)
  | settling (pull : PullObject)
  | erasing (pull : PullObject)
  | returned
deriving DecidableEq

def kDownloadAction : Bytes := arrow

def kVerifyAction : Bytes := Utf8.encode ['✓']

/-- The action and the path of the progress line of a worker, if it comes to draw one. -/
def ClientConfig.line (cfg : ClientConfig) : ClientRun → Option (Bytes × Bytes)
  | .streaming pull =>
    let calls := (cfg.calls pull.path).stream
    if calls.opens && calls.pipes && calls.connects && calls.sends &&
        (pull.transfer.getD ⟨[], 0, []⟩).bytes ≠ 0 then
      some (kDownloadAction, pull.path)
    else none
  | .checking pull =>
    if (cfg.calls pull.path).integrity.opens then some (kVerifyAction, pull.path) else none
  | .preparing _ | .submitting _ | .settling _ | .erasing _ | .returned => none

/-- The progress of which a line is drawn first. -/
def noProgress : Progress where
  trunc _ := 0
  trunc_nonneg _ h := ⟨Int.le_refl _, h⟩
  trunc_nonpos _ h := ⟨h, Int.le_refl _⟩

/-- The progress line leaves its buffer, or cannot be built at all. -/
def ClientConfig.overruns (cfg : ClientConfig) (wsCol : Option UInt16) (line : Bytes × Bytes) :
    Bool :=
  ((ProgressBuilder.new cfg.wcwidth line.1 line.2).bind (·.buildLine wsCol noProgress)).isNone

def ClientTask.run : ClientTask → ClientRun
  | .fileStream pull => .streaming pull
  | .fileIntegrity pull => .checking pull

/-- Where the main thread stands: in its loop, in `HandleTransfer`, or at its end. -/
inductive ClientPc
  | reading
  | inserting (pull : PullObject)
  | creating (pull : PullObject)
  | preparing (pull : PullObject)
  | submitting (pull : PullObject)
  | settling (pull : PullObject)
  | erasing (pull : PullObject)
  | waiting
  | reported (incomplete : Finset Bytes)
  | failed
  | dead
deriving DecidableEq

/-- What was done for an object in the destination directory. -/
inductive Deed
  | created
  | streamed
  | checked
  | verified
  | settled
deriving DecidableEq, Repr

instance : LawfulBEq (Deed × Bytes) := inferInstance

structure ClientState where
  pc : ClientPc
  jobId : Bytes
  sigint : SigintHandler
  totalItems : Int64
  toComplete : GuardedSet Bytes
  pool : WorkerPool ClientTask ClientRun
  received : List PullResponse
  deeds : List (Deed × Bytes)

def ClientState.start (cfg : ClientConfig) : ClientState where
  pc := .reading
  jobId := []
  sigint := ⟨.sigDfl, cfg.disposition⟩
  totalItems := 0
  toComplete := .empty
  pool := .start cfg.workers
  received := []
  deeds := []

/-- A round of the main loop, up to `HandleTransfer`. -/
def handleResponse (s : ClientState) (resp : PullResponse) : ClientState :=
  match resp with
  | .object pull =>
    let s := { s with totalItems := max s.totalItems pull.number }
    if s.jobId = [] then { s with pc := .dead }
    else if startsWith pull.path [slash] then { s with pc := .dead }
    else { s with pc := .inserting pull }
  | .started job =>
    match s.sigint.activate with
    | some sigint => { s with jobId := job, sigint }
    | none => { s with jobId := job, pc := .dead }
  | .finished _ => { s with pc := .waiting }
  | .error _ => s
  | .unset => { s with pc := .dead }

/-- A step of the main thread that does not read from the connection. -/
def clientMainStep (cfg : ClientConfig) (s : ClientState) : Option ClientState :=
  match s.pc with
  | .inserting pull =>
    some { s with pc := .creating pull, toComplete := s.toComplete.insert pull.path }
  | .creating pull =>
    match createCall cfg.dest pull with
    | .error _ => some { s with pc := .dead }
    | .ok _ =>
      if (cfg.calls pull.path).creates then
        some { s with
          pc := if pull.transfer.isSome then .preparing pull else .settling pull
          deeds := (.created, pull.path) :: s.deeds }
      else some { s with pc := .reading }
  | .preparing pull => some { s with pc := .submitting pull, pool := s.pool.prepare }
  | .submitting pull => some { s with pc := .reading, pool := s.pool.submit (.fileStream pull) }
  | .settling pull =>
    if setMetadata (cfg.calls pull.path).metadata pull then
      some { s with pc := .erasing pull, deeds := (.settled, pull.path) :: s.deeds }
    else some { s with pc := .reading }
  | .erasing pull => some { s with pc := .reading, toComplete := s.toComplete.erase pull.path }
  | .waiting =>
    if s.pool.pending = 0 then some { s with pc := .reported s.toComplete.pull } else none
  | .reading | .reported _ | .failed | .dead => none

/-- A step of the worker at `j`. -/
def clientRunStep (cfg : ClientConfig) (s : ClientState) (j : Nat) : ClientRun → ClientState
  | .streaming pull =>
    if (cfg.calls pull.path).stream.completes (pull.transfer.getD ⟨[], 0, []⟩).bytes then
      { s with pool := s.pool.goOn j (.preparing pull), deeds := (.streamed, pull.path) :: s.deeds }
    else { s with pool := s.pool.goOn j .returned }
  | .preparing pull => { s with pool := s.pool.prepare.goOn j (.submitting pull) }
  | .submitting pull =>
    { s with pool := (s.pool.submit (.fileIntegrity pull)).goOn j .returned }
  | .checking pull =>
    match (cfg.calls pull.path).integrity.verdict (pull.transfer.getD ⟨[], 0, []⟩).sha256 with
    | .failed => { s with pool := s.pool.goOn j .returned }
    | .unchecked =>
      { s with pool := s.pool.goOn j (.settling pull), deeds := (.checked, pull.path) :: s.deeds }
    | .verified =>
      { s with
        pool := s.pool.goOn j (.settling pull)
        deeds := (.verified, pull.path) :: (.checked, pull.path) :: s.deeds }
  | .settling pull =>
    if setMetadata (cfg.calls pull.path).metadata pull then
      { s with pool := s.pool.goOn j (.erasing pull), deeds := (.settled, pull.path) :: s.deeds }
    else { s with pool := s.pool.goOn j .returned }
  | .erasing pull =>
    { s with pool := s.pool.goOn j .returned, toComplete := s.toComplete.erase pull.path }
  | .returned => { s with pool := s.pool.removePending j }

/-- The events of a client. `receive none` is a read that fails. `overrun` is the end of the process
by a progress line of a worker that leaves its buffer; where it does no harm, the worker goes on. -/
inductive ClientEvent
  | receive (resp : Option PullResponse)
  | main
  | pop (i : Nat)
  | run (j : Nat)
  | overrun (j : Nat) (wsCol : Option UInt16)
deriving DecidableEq

/-- The process has ended. -/
def ClientPc.isOver : ClientPc → Bool
  | .reported _ | .failed | .dead => true
  | _ => false

theorem ClientPc.ne_dead_of_live {pc : ClientPc} (h : pc.isOver = false) : pc ≠ .dead := by
  rintro rfl
  cases h

def clientStep (cfg : ClientConfig) (s : ClientState) (event : ClientEvent) : Option ClientState :=
  if s.pc.isOver then none
  else
    match event with
    | .receive resp =>
      if s.pc = .reading then
        match resp with
        | some resp => some { handleResponse s resp with received := s.received ++ [resp] }
        | none => some { s with pc := .failed }
      else none
    | .main => clientMainStep cfg s
    | .pop i => (s.pool.waitForTaskAndPop ClientTask.run i).map fun pool => { s with pool }
    | .run j => s.pool.running[j]?.map (clientRunStep cfg s j)
    | .overrun j wsCol =>
      if (s.pool.running[j]?.bind cfg.line).any (cfg.overruns wsCol) then
        some { s with pc := .dead }
      else none

/-! ## What a step can do -/

/-- The steps of the main thread. -/
inductive MainStep (cfg : ClientConfig) (s : ClientState) : ClientState → Prop
  | inserts (pull : PullObject) (pc : s.pc = .inserting pull) :
      MainStep cfg s { s with
        pc := .creating pull
        toComplete := s.toComplete.insert pull.path }
  | asserts (pull : PullObject) (fault : Fault) (pc : s.pc = .creating pull)
      (call : createCall cfg.dest pull = .error fault) : MainStep cfg s { s with pc := .dead }
  | createsFile (pull : PullObject) (call : CreateCall) (pc : s.pc = .creating pull)
      (call_eq : createCall cfg.dest pull = .ok call)
      (creates : (cfg.calls pull.path).creates = true) (transfer : pull.transfer.isSome = true) :
      MainStep cfg s { s with pc := .preparing pull, deeds := (.created, pull.path) :: s.deeds }
  | createsEntry (pull : PullObject) (call : CreateCall) (pc : s.pc = .creating pull)
      (call_eq : createCall cfg.dest pull = .ok call)
      (creates : (cfg.calls pull.path).creates = true) (transfer : pull.transfer = none) :
      MainStep cfg s { s with pc := .settling pull, deeds := (.created, pull.path) :: s.deeds }
  | notCreated (pull : PullObject) (call : CreateCall) (pc : s.pc = .creating pull)
      (call_eq : createCall cfg.dest pull = .ok call)
      (creates : (cfg.calls pull.path).creates = false) : MainStep cfg s { s with pc := .reading }
  | prepares (pull : PullObject) (pc : s.pc = .preparing pull) :
      MainStep cfg s { s with pc := .submitting pull, pool := s.pool.prepare }
  | submits (pull : PullObject) (pc : s.pc = .submitting pull) :
      MainStep cfg s { s with pc := .reading, pool := s.pool.submit (.fileStream pull) }
  | settles (pull : PullObject) (pc : s.pc = .settling pull)
      (settles : setMetadata (cfg.calls pull.path).metadata pull = true) :
      MainStep cfg s { s with pc := .erasing pull, deeds := (.settled, pull.path) :: s.deeds }
  | notSettled (pull : PullObject) (pc : s.pc = .settling pull)
      (settles : setMetadata (cfg.calls pull.path).metadata pull = false) :
      MainStep cfg s { s with pc := .reading }
  | erases (pull : PullObject) (pc : s.pc = .erasing pull) :
      MainStep cfg s { s with pc := .reading, toComplete := s.toComplete.erase pull.path }
  | reports (pc : s.pc = .waiting) (pending : s.pool.pending = 0) :
      MainStep cfg s { s with pc := .reported s.toComplete.pull }

section Steps

variable {cfg : ClientConfig} {s s' : ClientState} {event : ClientEvent}

theorem clientMainStep_cases (hs : clientMainStep cfg s = some s') : MainStep cfg s s' := by
  cases hpc : s.pc with
  | inserting pull =>
    simp only [clientMainStep, hpc] at hs
    exact Option.some.inj hs ▸ .inserts pull hpc
  | creating pull =>
    cases hcall : createCall cfg.dest pull with
    | error fault =>
      simp only [clientMainStep, hpc, hcall] at hs
      exact Option.some.inj hs ▸ .asserts pull fault hpc hcall
    | ok call =>
      simp only [clientMainStep, hpc, hcall] at hs
      split at hs
      · next hcreates =>
        obtain rfl := Option.some.inj hs
        cases htransfer : pull.transfer with
        | some transfer =>
          exact .createsFile pull call hpc hcall hcreates (by rw [htransfer]; rfl)
        | none => exact .createsEntry pull call hpc hcall hcreates htransfer
      · next hcreates =>
        exact Option.some.inj hs ▸ .notCreated pull call hpc hcall (Bool.eq_false_iff.2 hcreates)
  | preparing pull =>
    simp only [clientMainStep, hpc] at hs
    exact Option.some.inj hs ▸ .prepares pull hpc
  | submitting pull =>
    simp only [clientMainStep, hpc] at hs
    exact Option.some.inj hs ▸ .submits pull hpc
  | settling pull =>
    simp only [clientMainStep, hpc] at hs
    split at hs
    · next hsettles => exact Option.some.inj hs ▸ .settles pull hpc hsettles
    · next hsettles =>
      exact Option.some.inj hs ▸ .notSettled pull hpc (Bool.eq_false_iff.2 hsettles)
  | erasing pull =>
    simp only [clientMainStep, hpc] at hs
    exact Option.some.inj hs ▸ .erases pull hpc
  | waiting =>
    simp only [clientMainStep, hpc] at hs
    split at hs
    · next hpending => exact Option.some.inj hs ▸ .reports hpc hpending
    · cases hs
  | reading | reported incomplete | failed | dead =>
    simp only [clientMainStep, hpc] at hs
    cases hs

/-- An object is refused before there is a job, or if its path is absolute. -/
theorem handleResponse_object (s : ClientState) (pull : PullObject) :
    handleResponse s (.object pull) =
      { s with
        totalItems := max s.totalItems pull.number
        pc := if s.jobId = [] ∨ startsWith pull.path [slash] then .dead else .inserting pull } := by
  simp only [handleResponse]
  by_cases hjobId : s.jobId = []
  · rw [if_pos hjobId, if_pos (.inl hjobId)]
  · by_cases hpath : startsWith pull.path [slash] = true
    · rw [if_neg hjobId, if_pos hpath, if_pos (.inr hpath)]
    · rw [if_neg hjobId, if_neg hpath, if_neg (not_or.2 ⟨hjobId, hpath⟩)]

/-- The process dies of the assertion of the handler, if a handler was already replaced. -/
theorem handleResponse_started (s : ClientState) (job : Bytes) :
    handleResponse s (.started job) =
      { s with
        jobId := job
        sigint := s.sigint.activate.getD s.sigint
        pc := if s.sigint.previousHandler = .sigDfl then s.pc else .dead } := by
  by_cases hprevious : s.sigint.previousHandler = .sigDfl
  · simp only [handleResponse, SigintHandler.activate, if_pos hprevious, Option.getD_some]
  · simp only [handleResponse, SigintHandler.activate, if_neg hprevious, Option.getD_none]

/-- The events of the client that are not refused. -/
inductive ClientStep (cfg : ClientConfig) (s : ClientState) : ClientEvent → ClientState → Prop
  | receives (resp : PullResponse) (pc : s.pc = .reading) :
      ClientStep cfg s (.receive (some resp))
        { handleResponse s resp with received := s.received ++ [resp] }
  | loses (pc : s.pc = .reading) : ClientStep cfg s (.receive none) { s with pc := .failed }
  | main {s' : ClientState} (step : clientMainStep cfg s = some s') : ClientStep cfg s .main s'
  | pops (i : Nat) (pool : WorkerPool ClientTask ClientRun)
      (pop : s.pool.waitForTaskAndPop ClientTask.run i = some pool) :
      ClientStep cfg s (.pop i) { s with pool }
  | runs (j : Nat) (r : ClientRun) (running : s.pool.running[j]? = some r) :
      ClientStep cfg s (.run j) (clientRunStep cfg s j r)
  | overruns (j : Nat) (r : ClientRun) (line : Bytes × Bytes) (wsCol : Option UInt16)
      (running : s.pool.running[j]? = some r) (draws : cfg.line r = some line)
      (overruns : cfg.overruns wsCol line = true) :
      ClientStep cfg s (.overrun j wsCol) { s with pc := .dead }

theorem clientStep_live (hs : clientStep cfg s event = some s') : s.pc.isOver = false := by
  unfold clientStep at hs
  split at hs
  · cases hs
  · next hover => exact Bool.eq_false_iff.2 hover

theorem clientStep_cases (hs : clientStep cfg s event = some s') : ClientStep cfg s event s' := by
  have hlive := clientStep_live hs
  simp only [clientStep, hlive, Bool.false_eq_true, if_false] at hs
  cases event with
  | receive resp =>
    simp only at hs
    split at hs
    · next hpc =>
      cases resp with
      | some resp => exact Option.some.inj hs ▸ .receives resp hpc
      | none => exact Option.some.inj hs ▸ .loses hpc
    · cases hs
  | main => exact .main hs
  | pop i =>
    obtain ⟨pool, hpop, rfl⟩ := Option.map_eq_some_iff.1 hs
    exact .pops i pool hpop
  | run j =>
    obtain ⟨r, hj, rfl⟩ := Option.map_eq_some_iff.1 hs
    exact .runs j r hj
  | overrun j wsCol =>
    simp only at hs
    split at hs
    · next hoverruns =>
      obtain ⟨line, hline, hoverruns⟩ := (Option.any_eq_true _ _).1 hoverruns
      obtain ⟨r, hj, hdraws⟩ := Option.bind_eq_some_iff.1 hline
      exact Option.some.inj hs ▸ .overruns j r line wsCol hj hdraws hoverruns
    · cases hs

end Steps

end Netpull
