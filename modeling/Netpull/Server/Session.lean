import Netpull.Lib.Transition
import Netpull.Parallel.WorkerPool
import Netpull.Server.Announcements

/-!
# A session of the server

`ClientManagerThread` beside the workers that run its integrity tasks, as a system whose events are
the atomic steps of the threads: a step of the manager, a worker that takes a task, runs it, or
takes it off the key. Every schedule of these events is a script. The file system stands still, so
the manager works off the objects that its visit finds (`visit_eq_foldlM`), and no send fails.
-/

namespace Netpull

/-- What a session works with. -/
structure SessionConfig where
  ctx : CrawlContext
  /-- The root directory the server serves. -/
  root : Bytes
  /-- What the visit finds, in the order in which it is handled. -/
  objects : List FsObject
  /-- What the calls of the integrity task of a file come to. -/
  integrity : Bytes → IntegrityCalls
  workers : Nat

namespace SessionConfig

def visitRoot (cfg : SessionConfig) : Bytes := join cfg.root cfg.ctx.job.path

def digest (cfg : SessionConfig) (path : Bytes) : Option Bytes := (cfg.integrity path).digest

/-- The session of a job on a file system. -/
def onFileSystem (fs : FileSystem) (fuel : Nat) (ctx : CrawlContext) (root : Bytes)
    (integrity : Bytes → IntegrityCalls) (workers : Nat) : SessionConfig :=
  { ctx, root, objects := (found fs.kernel fuel (join root ctx.job.path)).1, integrity, workers }

end SessionConfig

/-- Where the manager thread stands; `todo` are the objects the visit has not come to. It returns at
`done`, or at `rejected` if it does not accept the path of the job; at `dead` the process has died. -/
inductive ManagerPc
  | starting
  | crawling (todo : List FsObject)
  | sending (pull : PullObject) (todo : List FsObject)
  | preparing (task : IntegrityTask) (todo : List FsObject)
  | submitting (task : IntegrityTask) (todo : List FsObject)
  | waiting
  | finishing
  | done
  | rejected
  | dead
deriving DecidableEq

/-- What a worker is at. -/
inductive IntegrityRun
  | running (task : IntegrityTask)
  | returned
deriving DecidableEq

structure SessionState where
  pc : ManagerPc
  total : Int32
  drawn : Nat
  readyFiles : ReadyFilesMap
  pool : WorkerPool IntegrityTask IntegrityRun
  /-- The messages that were sent on the connection of the job. -/
  stream : List PullResponse

def SessionState.start (cfg : SessionConfig) (readyFiles : ReadyFilesMap) : SessionState where
  pc := .starting
  total := 0
  drawn := 0
  readyFiles := readyFiles
  pool := .start cfg.workers
  stream := []

/-- `HandleObject`, up to the first step that other threads can see. -/
def handleStep (cfg : SessionConfig) (s : SessionState) (o : FsObject) (todo : List FsObject) :
    SessionState :=
  match outgoing cfg.ctx s.total s.drawn o with
  | .error _ => { s with pc := .dead }
  | .ok none => { s with pc := .crawling todo }
  | .ok (some (.send pull)) => { s with pc := .sending pull todo, total := s.total + 1 }
  | .ok (some (.submit id ready pull)) =>
    { s with
      pc := .preparing ⟨pull, o.path⟩ todo
      total := s.total + 1
      drawn := s.drawn + 1
      readyFiles := s.readyFiles.put id ready }

/-- A step of `ClientManagerThread`. -/
def managerStep (cfg : SessionConfig) (s : SessionState) : Option SessionState :=
  match s.pc with
  | .starting =>
    if !isAbsolute cfg.ctx.job.path || !isResolved cfg.ctx.job.path then
      some { s with
        pc := .rejected, stream := s.stream ++ [.error (text "Paths must be absolute.")] }
    else if isResolved cfg.visitRoot then
      some { s with pc := .crawling cfg.objects, stream := s.stream ++ [.started cfg.ctx.job.id] }
    else
      some { s with pc := .dead, stream := s.stream ++ [.started cfg.ctx.job.id] }
  | .crawling [] => some { s with pc := .waiting }
  | .crawling (o :: todo) => some (handleStep cfg s o todo)
  | .sending pull todo =>
    some { s with pc := .crawling todo, stream := s.stream ++ [.object pull] }
  | .preparing task todo => some { s with pc := .submitting task todo, pool := s.pool.prepare }
  | .submitting task todo => some { s with pc := .crawling todo, pool := s.pool.submit task }
  | .waiting => if s.pool.pending = 0 then some { s with pc := .finishing } else none
  | .finishing =>
    some { s with pc := .done, stream := s.stream ++ [.finished s.total.toInt64] }
  | .done | .rejected | .dead => none

/-- The events of a session. -/
inductive SessionEvent
  | manager
  | pop (i : Nat)
  | run (j : Nat)
  | finish (j : Nat)
deriving DecidableEq, Repr

/-- An event of a session; when the process is dead there are none. -/
def sessionStep (cfg : SessionConfig) (s : SessionState) (event : SessionEvent) :
    Option SessionState :=
  if s.pc = .dead then none
  else
    match event with
    | .manager => managerStep cfg s
    | .pop i => (s.pool.waitForTaskAndPop .running i).map fun pool => { s with pool }
    | .run j =>
      match s.pool.running[j]? with
      | some (.running task) =>
        some { s with
          pool := s.pool.goOn j .returned
          stream := s.stream ++ (task.message cfg.digest).toList.map .object }
      | _ => none
    | .finish j =>
      match s.pool.running[j]? with
      | some .returned => some { s with pool := s.pool.removePending j }
      | _ => none

/-! ## What a step can do -/

/-- The steps of the manager thread. -/
inductive ManagerStep (cfg : SessionConfig) (s : SessionState) : SessionState → Prop
  | rejects (pc : s.pc = .starting)
      (path : isAbsolute cfg.ctx.job.path = false ∨ isResolved cfg.ctx.job.path = false) :
      ManagerStep cfg s { s with
        pc := .rejected, stream := s.stream ++ [.error (text "Paths must be absolute.")] }
  | starts (pc : s.pc = .starting) (absolute : isAbsolute cfg.ctx.job.path = true)
      (resolved : isResolved cfg.ctx.job.path = true) (visit : isResolved cfg.visitRoot = true) :
      ManagerStep cfg s { s with
        pc := .crawling cfg.objects, stream := s.stream ++ [.started cfg.ctx.job.id] }
  | dies (pc : s.pc = .starting) (visit : isResolved cfg.visitRoot = false) :
      ManagerStep cfg s { s with pc := .dead, stream := s.stream ++ [.started cfg.ctx.job.id] }
  | visited (pc : s.pc = .crawling []) : ManagerStep cfg s { s with pc := .waiting }
  | handles (o : FsObject) (todo : List FsObject) (pc : s.pc = .crawling (o :: todo)) :
      ManagerStep cfg s (handleStep cfg s o todo)
  | sends (pull : PullObject) (todo : List FsObject) (pc : s.pc = .sending pull todo) :
      ManagerStep cfg s { s with pc := .crawling todo, stream := s.stream ++ [.object pull] }
  | prepares (task : IntegrityTask) (todo : List FsObject) (pc : s.pc = .preparing task todo) :
      ManagerStep cfg s { s with pc := .submitting task todo, pool := s.pool.prepare }
  | submits (task : IntegrityTask) (todo : List FsObject) (pc : s.pc = .submitting task todo) :
      ManagerStep cfg s { s with pc := .crawling todo, pool := s.pool.submit task }
  | drained (pc : s.pc = .waiting) (pending : s.pool.pending = 0) :
      ManagerStep cfg s { s with pc := .finishing }
  | finishes (pc : s.pc = .finishing) :
      ManagerStep cfg s { s with pc := .done, stream := s.stream ++ [.finished s.total.toInt64] }

/-- The events of a session that are not refused. -/
inductive SessionStep (cfg : SessionConfig) (s : SessionState) : SessionEvent → SessionState → Prop
  | manager {s' : SessionState} (step : managerStep cfg s = some s') :
      SessionStep cfg s .manager s'
  | pops (i : Nat) (pool : WorkerPool IntegrityTask IntegrityRun)
      (pop : s.pool.waitForTaskAndPop .running i = some pool) :
      SessionStep cfg s (.pop i) { s with pool }
  | runs (j : Nat) (task : IntegrityTask) (running : s.pool.running[j]? = some (.running task)) :
      SessionStep cfg s (.run j) { s with
        pool := s.pool.goOn j .returned
        stream := s.stream ++ (task.message cfg.digest).toList.map .object }
  | finishes (j : Nat) (returned : s.pool.running[j]? = some .returned) :
      SessionStep cfg s (.finish j) { s with pool := s.pool.removePending j }

section Steps

variable {cfg : SessionConfig} {s s' : SessionState} {event : SessionEvent}

theorem managerStep_cases (hs : managerStep cfg s = some s') : ManagerStep cfg s s' := by
  cases hpc : s.pc with
  | starting =>
    simp only [managerStep, hpc] at hs
    split at hs
    · next hpath =>
      rw [Bool.or_eq_true, Bool.not_eq_true', Bool.not_eq_true'] at hpath
      exact Option.some.inj hs ▸ .rejects hpc hpath
    · next hpath =>
      rw [Bool.or_eq_true, not_or, Bool.not_eq_true', Bool.not_eq_true', Bool.not_eq_false,
        Bool.not_eq_false] at hpath
      split at hs
      · next hvisit => exact Option.some.inj hs ▸ .starts hpc hpath.1 hpath.2 hvisit
      · next hvisit => exact Option.some.inj hs ▸ .dies hpc (Bool.eq_false_iff.2 hvisit)
  | crawling objects =>
    cases objects with
    | nil =>
      simp only [managerStep, hpc] at hs
      exact Option.some.inj hs ▸ .visited hpc
    | cons o todo =>
      simp only [managerStep, hpc] at hs
      exact Option.some.inj hs ▸ .handles o todo hpc
  | sending pull todo =>
    simp only [managerStep, hpc] at hs
    exact Option.some.inj hs ▸ .sends pull todo hpc
  | preparing task todo =>
    simp only [managerStep, hpc] at hs
    exact Option.some.inj hs ▸ .prepares task todo hpc
  | submitting task todo =>
    simp only [managerStep, hpc] at hs
    exact Option.some.inj hs ▸ .submits task todo hpc
  | waiting =>
    simp only [managerStep, hpc] at hs
    split at hs
    · next hpending => exact Option.some.inj hs ▸ .drained hpc hpending
    · cases hs
  | finishing =>
    simp only [managerStep, hpc] at hs
    exact Option.some.inj hs ▸ .finishes hpc
  | done | rejected | dead =>
    simp only [managerStep, hpc] at hs
    cases hs

theorem sessionStep_live (hs : sessionStep cfg s event = some s') : s.pc ≠ .dead := by
  unfold sessionStep at hs
  split at hs
  · cases hs
  · next hlive => exact hlive

theorem sessionStep_cases (hs : sessionStep cfg s event = some s') :
    SessionStep cfg s event s' := by
  have hlive := sessionStep_live hs
  unfold sessionStep at hs
  rw [if_neg hlive] at hs
  cases event with
  | manager => exact .manager hs
  | pop i =>
    obtain ⟨pool, hpop, rfl⟩ := Option.map_eq_some_iff.1 hs
    exact .pops i pool hpop
  | run j =>
    simp only at hs
    split at hs
    · next task hj => exact Option.some.inj hs ▸ .runs j task hj
    · cases hs
  | finish j =>
    simp only at hs
    split at hs
    · next hj => exact Option.some.inj hs ▸ .finishes j hj
    · cases hs

end Steps

/-! ## The law of the stream -/

namespace SessionConfig

/-- The objects that were not completed before. -/
def unskipped (cfg : SessionConfig) : List FsObject := Netpull.unskipped cfg.ctx cfg.objects

/-- Those of them that are announced: all but the files whose integrity task fails. -/
def announced (cfg : SessionConfig) : List FsObject :=
  cfg.unskipped.filter fun o => o.type ≠ .file ∨ (cfg.digest o.path).isSome

end SessionConfig

/-- What holds of the objects that were announced so far. -/
structure AnnouncedSoFar (cfg : SessionConfig) (pulls : List PullObject) : Prop where
  distinctPaths : (pulls.map (·.path)).Nodup
  distinctNumbers : (pulls.map (·.number)).Nodup
  range : ∀ p ∈ pulls, 1 ≤ p.number.toInt ∧ p.number.toInt ≤ cfg.unskipped.length
  /-- A directory comes before everything below it. -/
  directoriesFirst : pulls.Pairwise fun p q =>
    q.type = .kTypeDirectory → ¬ Under p.path q.path
  /-- Files are announced with what is needed to transfer them, and only files. -/
  transfers : ∀ p ∈ pulls, p.type = .kTypeFile ↔ p.transfer.isSome
  /-- Only objects are announced that are to be announced, and none twice. -/
  sound : List.Subperm (pulls.map fun p => (p.path, p.type))
    (cfg.announced.map fun o => (o.relativePath, o.type.pullType))

/-- **The law of the stream** of a session that is done. -/
def StreamLaw (cfg : SessionConfig) (stream : List PullResponse) : Prop :=
  ∃ (pulls : List PullObject) (total : Int64),
    stream = .started cfg.ctx.job.id :: pulls.map .object ++ [.finished total] ∧
    total.toInt = cfg.unskipped.length ∧
    AnnouncedSoFar cfg pulls ∧
    List.Perm (pulls.map fun p => (p.path, p.type))
      (cfg.announced.map fun o => (o.relativePath, o.type.pullType))

/-- The law of the stream at every time: as long as the session is not done, there is no `Finished`,
and what was announced so far is lawful. -/
def StreamSoFar (cfg : SessionConfig) (s : SessionState) : Prop :=
  if s.pc = .done then StreamLaw cfg s.stream
  else s.stream = [] ∨ ∃ pulls, s.stream = .started cfg.ctx.job.id :: pulls.map .object ∧
    AnnouncedSoFar cfg pulls

end Netpull
