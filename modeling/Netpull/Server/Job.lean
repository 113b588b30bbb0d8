import Netpull.Lib.Lines
import Netpull.Parallel.GuardedSet
import Netpull.Server.Path

/-!
# Jobs and their logs

A job keeps its path and the paths its client completed in a log file, from which it is loaded
after a restart. The log of a `Job` is the content of that file; after `Job::Load` has read the
file to its end the stream stands there, so `MarkCompleted` always appends.

`loadLines_log` says what loading makes of a log that begins as `Job::New` left it.
-/

namespace Netpull

open Lines

/-- `Environment`. -/
structure Environment where
  xdgCacheHome : Bytes

def kPathPrefix : Bytes := text "Path "

def kCompletedPrefix : Bytes := text "Completed "

/-- A pull job that is being run. -/
structure Job where
  id : Bytes
  path : Bytes
  log : Bytes
  completedPaths : GuardedSet Bytes
deriving DecidableEq

namespace Job

/-- The path of the log of a job. -/
def logPath (env : Environment) (id : Bytes) : Bytes :=
  join (join env.xdgCacheHome (text "netpull")) id

/-- A printed `absl::Time`. -/
structure PrintedTime where
  text : Bytes
  no_newline : newline ∉ text

def epoch : PrintedTime := ⟨Netpull.text "1970-01-01T00:00:00+00:00", by decide⟩

/-- The comment that opens a log. -/
def commentLine (now : PrintedTime) : Bytes := text "# Job created at " ++ now.text ++ text " for:"

/-- What `Job::New` writes into a new log. -/
def logHeader (now : PrintedTime) (path : Bytes) : Bytes :=
  commentLine now ++ [newline] ++ kPathPrefix ++ path ++ [newline]

/-- How the calls of `Job::New` turn out. -/
structure NewCalls where
  mkdirFails : Bool
  openFails : Bool
  writeFails : Bool

/-- `Job::New`, with the id and the time it draws. -/
def new (calls : NewCalls) (id : Bytes) (now : PrintedTime) (path : Bytes) : Option Job :=
  if calls.mkdirFails then none
  else if calls.openFails then none
  else if calls.writeFails then none
  else some { id, path, log := logHeader now path, completedPaths := .empty }

/-- The variables of the loop of `Job::Load`. -/
structure LoadState where
  pathStr : Bytes
  completedPaths : GuardedSet Bytes

/-- The body of the loop of `Job::Load`. -/
def loadLine (s : LoadState) (line : Bytes) : LoadState :=
  if startsWith line (text "#") then s
  else if startsWith line kPathPrefix then { s with pathStr := line.drop kPathPrefix.length }
  else if startsWith line kCompletedPrefix then
    { s with completedPaths := s.completedPaths.insert (line.drop kCompletedPrefix.length) }
  else s

/-- The loop of `Job::Load`. -/
def loadLines (content : Bytes) : LoadState :=
  (lines newline content).foldl loadLine ⟨[], .empty⟩

/-- A log file as a stream reads it: its content, and whether reading ends at its end rather than
in an error. -/
structure LogFile where
  content : Bytes
  eof : Bool

/-- `Job::Load`; `openLog` opens the log file at a path. -/
def load (env : Environment) (openLog : Bytes → Option LogFile) (id : Bytes) : Option Job :=
  match openLog (cstr (logPath env id)) with
  | none => none
  | some file =>
    let s := loadLines file.content
    if !file.eof then none
    else if !isResolved s.pathStr then none
    else some { id, path := s.pathStr, log := file.content, completedPaths := s.completedPaths }

/-- `Job::IsCompleted`. -/
def isCompleted (job : Job) (path : Bytes) : Bool :=
  job.completedPaths.contains (cstr path)

/-- The line `Job::MarkCompleted` writes. -/
def completedLine (path : Bytes) : Bytes := kCompletedPrefix ++ path ++ [newline]

/-- `Job::MarkCompleted`, when the write succeeds. -/
def markCompleted (job : Job) (path : Bytes) : Job :=
  { job with
    completedPaths := job.completedPaths.insert (cstr path)
    log := job.log ++ completedLine path }

theorem new_eq {calls : NewCalls} {id : Bytes} {now : PrintedTime} {path : Bytes} {job : Job}
    (h : new calls id now path = some job) :
    job = { id, path, log := logHeader now path, completedPaths := .empty } := by
  unfold new at h
  split at h
  · cases h
  · split at h
    · cases h
    · split at h
      · cases h
      · exact (Option.some.inj h).symm

/-! ## Loading -/

theorem not_path_of_completed (path : Bytes) : ¬ kPathPrefix <+: kCompletedPrefix ++ path := by
  intro h
  have hbyte : (text "P") <+: kCompletedPrefix ++ path := List.IsPrefix.trans (by decide) h
  rw [kCompletedPrefix] at hbyte
  obtain ⟨t, ht⟩ := hbyte
  cases ht

/-- A line that does not give the path only adds the path it marks as completed, if any. -/
theorem loadLine_spec {line : Bytes} (h : ¬ kPathPrefix <+: line) (s : LoadState) :
    (loadLine s line).pathStr = s.pathStr ∧ ∀ q,
      q ∈ (loadLine s line).completedPaths ↔
        q ∈ s.completedPaths ∨ line = kCompletedPrefix ++ q := by
  unfold loadLine
  have hpath : startsWith line kPathPrefix = false := by
    rw [Bool.eq_false_iff, ne_eq, startsWith_iff]
    exact h
  rw [hpath]
  by_cases hcompleted : kCompletedPrefix <+: line
  · obtain ⟨p, rfl⟩ := hcompleted
    have hcomment : startsWith (kCompletedPrefix ++ p) (text "#") = false := rfl
    simp only [hcomment, Bool.false_eq_true, ↓reduceIte, startsWith_append, List.drop_left,
      GuardedSet.mem_insert, List.append_cancel_left_eq, true_and]
    intro q
    rw [or_comm, eq_comm]
  · have hne : ∀ q, line ≠ kCompletedPrefix ++ q := by
      intro q e
      exact hcompleted ⟨q, e.symm⟩
    have hmark : startsWith line kCompletedPrefix = false := by
      rw [Bool.eq_false_iff, ne_eq, startsWith_iff]
      exact hcompleted
    rw [hmark]
    split <;> simp [hne]

theorem foldl_loadLine {ls : List Bytes} (h : ∀ l ∈ ls, ¬ kPathPrefix <+: l) (s : LoadState) :
    (ls.foldl loadLine s).pathStr = s.pathStr ∧ ∀ q,
      q ∈ (ls.foldl loadLine s).completedPaths ↔
        q ∈ s.completedPaths ∨ kCompletedPrefix ++ q ∈ ls := by
  induction ls generalizing s with
  | nil => simp
  | cons l ls ih =>
    obtain ⟨hpath, hcompleted⟩ := loadLine_spec (h l List.mem_cons_self) s
    obtain ⟨hpaths, hcompleteds⟩ := ih (fun m hm => h m (List.mem_cons_of_mem l hm)) (loadLine s l)
    refine ⟨hpaths.trans hpath, fun q => ?_⟩
    rw [List.foldl_cons, hcompleteds, hcompleted, List.mem_cons, or_assoc, eq_comm (a := l)]

theorem not_mem_commentLine (now : PrintedTime) : newline ∉ commentLine now := by
  intro h
  simp only [commentLine, List.mem_append] at h
  rcases h with (h | h) | h
  · revert h
    decide
  · exact now.no_newline h
  · revert h
    decide

/-- The lines of a log that begins as `Job::New` left it. -/
theorem lines_log {path : Bytes} (h : newline ∉ path) (now : PrintedTime) (body : Bytes) :
    lines newline (logHeader now path ++ body) =
      commentLine now :: (kPathPrefix ++ path) :: lines newline body := by
  have hpath : newline ∉ kPathPrefix ++ path := by
    intro hmem
    rcases List.mem_append.1 hmem with hmem | hmem
    · revert hmem
      decide
    · exact h hmem
  have e : logHeader now path ++ body =
      commentLine now ++ newline :: ((kPathPrefix ++ path) ++ newline :: body) := by
    simp [logHeader]
  rw [e, lines_line (not_mem_commentLine now), lines_line hpath]

/-- Loading a log that begins as `Job::New` left it gives the path written there and what the rest
marks as completed. -/
theorem loadLines_log {path : Bytes} (h : newline ∉ path) (now : PrintedTime) {body : Bytes}
    (hbody : ∀ l ∈ lines newline body, ¬ kPathPrefix <+: l) :
    (loadLines (logHeader now path ++ body)).pathStr = path ∧ ∀ q,
      q ∈ (loadLines (logHeader now path ++ body)).completedPaths ↔
        kCompletedPrefix ++ q ∈ lines newline body := by
  have hcomment : loadLine ⟨[], .empty⟩ (commentLine now) = ⟨[], .empty⟩ := by
    unfold loadLine commentLine
    simp only [List.append_assoc]
    rfl
  have hpathLine : loadLine ⟨[], .empty⟩ (kPathPrefix ++ path) = ⟨path, .empty⟩ := by
    unfold loadLine
    have hnot : startsWith (kPathPrefix ++ path) (text "#") = false := rfl
    simp [hnot]
  obtain ⟨hpath, hcompleted⟩ := foldl_loadLine hbody ⟨path, .empty⟩
  unfold loadLines
  rw [lines_log h, List.foldl_cons, List.foldl_cons, hcomment, hpathLine]
  refine ⟨hpath, fun q => ?_⟩
  rw [hcompleted]
  simp

/-- Nothing that is loaded contains a newline. -/
theorem not_mem_of_loadLines (content : Bytes) :
    newline ∉ (loadLines content).pathStr ∧
      ∀ q ∈ (loadLines content).completedPaths, newline ∉ q := by
  have hstep : ∀ ls : List Bytes, (∀ l ∈ ls, newline ∉ l) → ∀ s : LoadState,
      (newline ∉ s.pathStr ∧ ∀ q ∈ s.completedPaths, newline ∉ q) →
      newline ∉ (ls.foldl loadLine s).pathStr ∧
        ∀ q ∈ (ls.foldl loadLine s).completedPaths, newline ∉ q := by
    intro ls hls
    induction ls with
    | nil => exact fun s hs => hs
    | cons l ls ih =>
      intro s hs
      apply ih (fun m hm => hls m (List.mem_cons_of_mem l hm))
      have hl := hls l List.mem_cons_self
      unfold loadLine
      split
      · exact hs
      · split
        · exact ⟨fun h => hl (List.mem_of_mem_drop h), hs.2⟩
        · split
          · refine ⟨hs.1, fun q hq => ?_⟩
            rcases GuardedSet.mem_insert.1 hq with rfl | hq
            · exact fun h => hl (List.mem_of_mem_drop h)
            · exact hs.2 q hq
          · exact hs
  refine hstep _ (fun l hl => not_mem_of_mem_lines hl) _ ⟨List.not_mem_nil, fun q hq => ?_⟩
  exact absurd hq (GuardedSet.not_mem_empty q)

/-! ## A log on disk -/

/-- The disk when the log of the job `id` holds `content` and can be read. -/
def onDisk (env : Environment) (id content : Bytes) (path : Bytes) : Option LogFile :=
  if path = cstr (logPath env id) then some ⟨content, true⟩ else none

theorem load_onDisk (env : Environment) (id content : Bytes) :
    load env (onDisk env id content) id =
      if isResolved (loadLines content).pathStr then
        some { id, path := (loadLines content).pathStr, log := content,
               completedPaths := (loadLines content).completedPaths }
      else none := by
  unfold load onDisk
  cases h : isResolved (loadLines content).pathStr <;> simp [h]

end Job

end Netpull
