import Netpull.Lib.Transition
import Netpull.Server.Job

/-!
# What a job log remembers

A `LogEvent` is something that happens to the log of a job: a path is marked as completed, or the
server restarts, which may have cost the log its last bytes, and loads the job again.

The `Ledger` is what a job is meant to remember: its path and the paths that were marked. Without
newlines in them and without losses a job refines its ledger (`Records.step`). The `History` of the
events adds which marks were never lost from the disk; a job is consistent with it as long as no
loss leaves an unfinished line behind that matters (`Recovers.step`).
-/

namespace Netpull

open Lines Transition Job

/-- `restart lost`: a crash takes the last `lost` bytes of the log, and the job is loaded again. -/
inductive LogEvent
  | mark (path : Bytes)
  | restart (lost : Nat)
deriving DecidableEq

/-- The log after its last `lost` bytes are gone. -/
def Job.kept (job : Job) (lost : Nat) : Bytes := job.log.take (job.log.length - lost)

/-- What an event makes of a job. -/
def Job.step (env : Environment) (job : Job) : LogEvent → Option Job
  | .mark path => some (job.markCompleted path)
  | .restart lost => load env (onDisk env job.id (job.kept lost)) job.id

/-! ## The ledger -/

/-- What a job is meant to remember. -/
structure Ledger where
  path : Bytes
  marked : List Bytes

namespace Ledger

def step (ledger : Ledger) : LogEvent → Ledger
  | .mark path => { ledger with marked := ledger.marked ++ [path] }
  | .restart _ => ledger

theorem foldl_step (events : List LogEvent) (ledger : Ledger) :
    (events.foldl step ledger).path = ledger.path ∧ ∀ q,
      q ∈ (events.foldl step ledger).marked ↔ q ∈ ledger.marked ∨ .mark q ∈ events := by
  induction events generalizing ledger with
  | nil => simp
  | cons event events ih =>
    obtain ⟨hpath, hmarked⟩ := ih (ledger.step event)
    cases event with
    | mark p =>
      refine ⟨hpath, fun q => ?_⟩
      rw [List.foldl_cons, hmarked]
      simp [step, or_assoc]
    | restart lost =>
      refine ⟨hpath, fun q => ?_⟩
      rw [List.foldl_cons, hmarked]
      simp [step]

end Ledger

/-- The job holds what the ledger says, in memory and on disk. -/
structure Records (now : PrintedTime) (job : Job) (ledger : Ledger) : Prop where
  path : job.path = ledger.path
  log : job.log = logHeader now ledger.path ++
    unlines newline (ledger.marked.map (kCompletedPrefix ++ ·))
  completed : ∀ q, q ∈ job.completedPaths ↔ q ∈ ledger.marked
  resolved : isResolved ledger.path = true
  path_line : newline ∉ ledger.path
  marked_line : ∀ q ∈ ledger.marked, newline ∉ q

/-- An event without losses that marks nothing a line could not hold. -/
def LogEvent.Lossless : LogEvent → Prop
  | .mark path => newline ∉ path ∧ 0 ∉ path
  | .restart lost => lost = 0

theorem not_mem_completed {path : Bytes} (h : newline ∉ path) :
    newline ∉ kCompletedPrefix ++ path := by
  intro hmem
  rcases List.mem_append.1 hmem with hmem | hmem
  · revert hmem
    decide
  · exact h hmem

namespace Records

variable {now : PrintedTime} {env : Environment} {job : Job} {ledger : Ledger}

theorem new {calls : Job.NewCalls} {id path : Bytes} (hres : isResolved path = true)
    (hpath : newline ∉ path) (hnew : Job.new calls id now path = some job) :
    Records now job ⟨path, []⟩ := by
  obtain rfl := new_eq hnew
  exact ⟨rfl, by simp, by simp, hres, hpath, by simp⟩

theorem lines_body (h : Records now job ledger) :
    lines newline (unlines newline (ledger.marked.map (kCompletedPrefix ++ ·))) =
      ledger.marked.map (kCompletedPrefix ++ ·) := by
  have hls : ∀ l ∈ ledger.marked.map (kCompletedPrefix ++ ·), newline ∉ l := by
    intro l hl
    obtain ⟨q, hq, rfl⟩ := List.mem_map.1 hl
    exact not_mem_completed (h.marked_line q hq)
  have hlines := lines_unlines hls []
  rwa [List.append_nil, lines, List.append_nil] at hlines

/-- Loading a job whose log was kept gives it back. -/
theorem load (h : Records now job ledger) :
    ∃ job', Job.load env (onDisk env job.id job.log) job.id = some job' ∧
      Records now job' ledger := by
  have hbody : ∀ l ∈ lines newline (unlines newline (ledger.marked.map (kCompletedPrefix ++ ·))),
      ¬ kPathPrefix <+: l := by
    rw [h.lines_body]
    intro l hl
    obtain ⟨q, -, rfl⟩ := List.mem_map.1 hl
    exact not_path_of_completed q
  obtain ⟨hpath, hcompleted⟩ := loadLines_log h.path_line now hbody
  rw [← h.log] at hpath hcompleted
  rw [load_onDisk, hpath, if_pos h.resolved]
  refine ⟨_, rfl, rfl, h.log, fun q => ?_, h.resolved, h.path_line, h.marked_line⟩
  rw [hcompleted, h.lines_body]
  simp

/-- A job refines its ledger. -/
theorem step (h : Records now job ledger) {event : LogEvent} (hevent : event.Lossless) :
    ∃ job', job.step env event = some job' ∧ Records now job' (ledger.step event) := by
  cases event with
  | mark p =>
    obtain ⟨hline, hnul⟩ := hevent
    refine ⟨_, rfl, h.path, ?_, fun q => ?_, h.resolved, h.path_line, fun q hq => ?_⟩
    · simp only [Job.markCompleted, Ledger.step, h.log, completedLine, List.map_append,
        unlines_append, List.map_cons, List.map_nil, unlines_cons, unlines_nil, List.append_assoc]
    · simp only [Job.markCompleted, GuardedSet.mem_insert, cstr_eq_self hnul, h.completed,
        Ledger.step, List.mem_append, List.mem_singleton, or_comm]
    · rcases List.mem_append.1 hq with hq | hq
      · exact h.marked_line q hq
      · exact List.mem_singleton.1 hq ▸ hline
  | restart lost =>
    obtain rfl : lost = 0 := hevent
    have hkept : job.kept 0 = job.log := by simp [Job.kept]
    rw [Job.step, hkept]
    exact h.load

end Records

/-- After the events the job can be loaded, and it remembers its path and exactly the marks. -/
def RoundTrips (env : Environment) (job : Job) (path : Bytes) (events : List LogEvent) : Prop :=
  ∃ job', script (Job.step env) job (events ++ [.restart 0]) = some job' ∧ job'.path = path ∧
    (∀ q, q ∈ job'.completedPaths ↔ .mark q ∈ events) ∧
    ∀ q, 0 ∉ q → (job'.isCompleted q = true ↔ .mark q ∈ events)

theorem load_no_newline {env : Environment} {id content : Bytes} {job : Job}
    (h : Job.load env (onDisk env id content) id = some job) :
    newline ∉ job.path ∧ ∀ q ∈ job.completedPaths, newline ∉ q := by
  rw [load_onDisk] at h
  split at h
  · obtain rfl := Option.some.inj h
    exact not_mem_of_loadLines content
  · cases h

/-- **The log of a job is read back as it was written**, over any number of restarts, if and only
if neither the path of the job nor any marked path contains a newline. -/
theorem jobLog_roundTrips_iff (env : Environment) (calls : Job.NewCalls) (id : Bytes)
    (now : PrintedTime) {path : Bytes} (hres : isResolved path = true) {job : Job}
    (hnew : Job.new calls id now path = some job) {events : List LogEvent}
    (hnul : ∀ p, .mark p ∈ events → 0 ∉ p) (hlost : ∀ lost, .restart lost ∈ events → lost = 0) :
    RoundTrips env job path events ↔ newline ∉ path ∧ ∀ p, .mark p ∈ events → newline ∉ p := by
  constructor
  · rintro ⟨job', hrun, rfl, hcompleted, -⟩
    rw [script_append] at hrun
    obtain ⟨last, -, hrun⟩ := Option.bind_eq_some_iff.1 hrun
    rw [script] at hrun
    obtain ⟨job'', hload, hdone⟩ := Option.bind_eq_some_iff.1 hrun
    obtain rfl := Option.some.inj hdone
    obtain ⟨hpath, hmarks⟩ := load_no_newline hload
    exact ⟨hpath, fun p hp => hmarks p ((hcompleted p).2 hp)⟩
  · rintro ⟨hpath, hmarks⟩
    have hgood : ∀ event ∈ events ++ [.restart 0], event.Lossless := by
      intro event hevent
      rcases List.mem_append.1 hevent with hevent | hevent
      · cases event with
        | mark p => exact ⟨hmarks p hevent, hnul p hevent⟩
        | restart lost => exact hlost lost hevent
      · obtain rfl := List.mem_singleton.1 hevent
        rfl
    have hstep : ∀ (job : Job) (ledger : Ledger) (event : LogEvent), Records now job ledger →
        event.Lossless → ∃ job', job.step env event = some job' ∧
          Records now job' (ledger.step event) := fun _ _ _ h hevent => h.step hevent
    obtain ⟨job', hrun, hrecords⟩ := script_simulates (fun _ _ event => LogEvent.Lossless event)
      (Records now) hstep (Records.new hres hpath hnew)
      (along_of_forall (fun event hevent _ _ => hgood event hevent) _ _)
    obtain ⟨hledger, hmarked⟩ := Ledger.foldl_step (events ++ [.restart 0]) ⟨path, []⟩
    have hcompleted : ∀ q, q ∈ job'.completedPaths ↔ .mark q ∈ events := by
      intro q
      rw [hrecords.completed, hmarked]
      simp
    refine ⟨job', hrun, hrecords.path.trans hledger, hcompleted, fun q hq => ?_⟩
    rw [Job.isCompleted, GuardedSet.contains_iff, cstr_eq_self hq, hcompleted]

/-- A new job for `/srv`. -/
def srvJob : Job :=
  { id := text "0f", path := text "/srv", log := logHeader epoch (text "/srv"),
    completedPaths := .empty }

theorem jobLog_roundTrips_iff_srv :
    RoundTrips ⟨text "/c"⟩ srvJob (text "/srv")
        [.mark (text "a/b"), .restart 0, .mark (text "c")] ↔
      newline ∉ text "/srv" ∧
        ∀ p, LogEvent.mark p ∈ [.mark (text "a/b"), .restart 0, .mark (text "c")] → newline ∉ p :=
  jobLog_roundTrips_iff ⟨text "/c"⟩ ⟨false, false, false⟩ (text "0f") epoch rfl rfl
    (by simp; decide) (by simp)

/-- The file `a⏎b` was marked; after a restart `a` counts as completed and `a⏎b` does not. -/
theorem newline_breaks_roundTrip :
    Job.new ⟨false, false, false⟩ (text "0f") epoch (text "/srv") = some srvJob ∧
      ¬ RoundTrips ⟨text "/c"⟩ srvJob (text "/srv") [.mark [97, newline, 98]] := by
  refine ⟨rfl, ?_⟩
  rintro ⟨job', hrun, -, hcompleted, -⟩
  have hlost : ∀ job' ∈ script (Job.step ⟨text "/c"⟩) srvJob
      ([.mark [97, newline, 98]] ++ [.restart 0]), [97, newline, 98] ∉ job'.completedPaths := by
    decide
  exact hlost job' hrun ((hcompleted _).2 List.mem_cons_self)

/-! ## Crashes -/

/-- What the events say about the log: its size, the paths that were marked, and the marks whose
lines no crash has touched, each with the position where its line ends. -/
structure History where
  size : Nat
  marked : List Bytes
  durable : List (Bytes × Nat)

def History.step (history : History) : LogEvent → History
  | .mark path =>
    let size := history.size + (completedLine path).length
    { size, marked := history.marked ++ [path], durable := history.durable ++ [(path, size)] }
  | .restart lost =>
    let size := history.size - lost
    { history with size, durable := history.durable.filter fun line => line.2 ≤ size }

/-- The job takes nothing for completed that was not marked, and has everything that was never lost
from the disk. -/
structure Consistent (job : Job) (history : History) : Prop where
  onlyMarked : ∀ q ∈ job.completedPaths, q ∈ history.marked
  allDurable : ∀ line ∈ history.durable, line.1 ∈ job.completedPaths

/-- An event of a log whose header has the size `header`: what is marked fits into a line, and no
crash reaches the header. -/
def LogEvent.Possible (header : Nat) (history : History) : LogEvent → Prop
  | .mark path => newline ∉ path ∧ 0 ∉ path
  | .restart lost => header ≤ history.size - lost

instance (header : Nat) (history : History) (event : LogEvent) :
    Decidable (event.Possible header history) := by
  cases event <;> unfold LogEvent.Possible <;> infer_instance

/-- The event does no harm: a mark begins a new line, and the unfinished line a crash leaves behind
does not read as a path that was never marked. -/
def LogEvent.Harmless (job : Job) (history : History) : LogEvent → Prop
  | .mark _ => unfinished newline job.log = []
  | .restart lost => ∀ q, unfinished newline (job.kept lost) = kCompletedPrefix ++ q →
      q ∈ history.marked

theorem LogEvent.harmless_restart_iff {job : Job} {history : History} {lost : Nat} :
    (restart lost).Harmless job history ↔
      (kCompletedPrefix <+: unfinished newline (job.kept lost) →
        (unfinished newline (job.kept lost)).drop kCompletedPrefix.length ∈ history.marked) := by
  constructor
  · rintro h ⟨q, hq⟩
    rw [← hq, List.drop_left]
    exact h q hq.symm
  · intro h q hq
    rw [hq, List.drop_left] at h
    exact h (List.prefix_append _ _)

instance (job : Job) (history : History) : (event : LogEvent) →
    Decidable (event.Harmless job history)
  | .mark _ => inferInstanceAs (Decidable (unfinished newline job.log = []))
  | .restart _ => decidable_of_iff _ LogEvent.harmless_restart_iff.symm

/-- What a crash cannot take away from a job that was created for `path`. -/
structure Recovers (now : PrintedTime) (path : Bytes) (job : Job) (history : History) : Prop where
  jobPath : job.path = path
  size : job.log.length = history.size
  log : ∃ body, job.log = logHeader now path ++ body ∧
    (∀ l ∈ lines newline body, ¬ kPathPrefix <+: l) ∧
    ∀ q, q ∈ job.completedPaths ↔ kCompletedPrefix ++ q ∈ lines newline body
  onlyMarked : ∀ q ∈ job.completedPaths, q ∈ history.marked
  durable : ∀ line ∈ history.durable, ∃ ls, (∀ l ∈ ls, newline ∉ l) ∧
    unlines newline ls <+: job.log ∧ (unlines newline ls).length = line.2 ∧
    kCompletedPrefix ++ line.1 ∈ ls

theorem unfinished_logHeader (now : PrintedTime) (path : Bytes) :
    unfinished newline (logHeader now path) = [] :=
  unfinished_line _

theorem completed_ne_commentLine (now : PrintedTime) (q : Bytes) :
    kCompletedPrefix ++ q ≠ commentLine now := by
  intro h
  unfold commentLine at h
  rw [List.append_assoc] at h
  cases h

namespace Recovers

variable {env : Environment} {now : PrintedTime} {path : Bytes} {job : Job} {history : History}

theorem new {calls : Job.NewCalls} {id : Bytes} (hnew : Job.new calls id now path = some job) :
    Recovers now path job ⟨job.log.length, [], []⟩ := by
  obtain rfl := new_eq hnew
  exact ⟨rfl, rfl, ⟨[], by simp, by simp [lines], by simp [lines]⟩, by simp, by simp⟩

theorem consistent (hpath : newline ∉ path) (h : Recovers now path job history) :
    Consistent job history := by
  refine ⟨h.onlyMarked, fun line hline => ?_⟩
  obtain ⟨body, hlog, -, hcompleted⟩ := h.log
  obtain ⟨ls, hls, ⟨rest, hrest⟩, -, hmem⟩ := h.durable line hline
  -- The line is one of the whole log, and neither of the two of its header.
  have hall : kCompletedPrefix ++ line.1 ∈ lines newline (logHeader now path ++ body) := by
    rw [← hlog, ← hrest, lines_unlines hls]
    exact List.mem_append_left _ hmem
  rw [lines_log hpath] at hall
  rcases List.mem_cons.1 hall with hl | hl
  · exact absurd hl (completed_ne_commentLine now line.1)
  · rcases List.mem_cons.1 hl with hl | hl
    · exact absurd ⟨path, hl.symm⟩ (not_path_of_completed line.1)
    · exact (hcompleted line.1).2 hl

/-- Marking a path on a log without an unfinished line adds a line. -/
theorem mark (h : Recovers now path job history) {p : Bytes} (hline : newline ∉ p) (hnul : 0 ∉ p)
    (hend : unfinished newline job.log = []) :
    Recovers now path (job.markCompleted p) (history.step (.mark p)) := by
  obtain ⟨body, hlog, hbody, hcompleted⟩ := h.log
  have hbodyEnd : unfinished newline body = [] := by
    rw [hlog, unfinished_append (unfinished_logHeader now path)] at hend
    exact hend
  have hnewLine : lines newline (completedLine p) = [kCompletedPrefix ++ p] := by
    have := lines_line (not_mem_completed hline) []
    rwa [lines] at this
  have hlines : lines newline (body ++ completedLine p) =
      lines newline body ++ [kCompletedPrefix ++ p] := by
    rw [lines_append hbodyEnd, hnewLine]
  have hmem : ∀ q, q ∈ (job.markCompleted p).completedPaths ↔ q = p ∨ q ∈ job.completedPaths := by
    intro q
    rw [markCompleted, GuardedSet.mem_insert, cstr_eq_self hnul]
  refine ⟨h.jobPath, ?_, ⟨body ++ completedLine p, ?_, ?_, fun q => ?_⟩, fun q hq => ?_,
    fun line hdurable => ?_⟩
  · simp [markCompleted, History.step, h.size]
  · simp [markCompleted, hlog]
  · intro l hl
    rw [hlines] at hl
    rcases List.mem_append.1 hl with hl | hl
    · exact hbody l hl
    · rw [List.mem_singleton.1 hl]
      exact not_path_of_completed p
  · rw [hmem, hlines, List.mem_append, List.mem_singleton, hcompleted, or_comm,
      List.append_cancel_left_eq]
  · rcases (hmem q).1 hq with rfl | hq
    · simp [History.step]
    · exact List.mem_append_left _ (h.onlyMarked q hq)
  · rcases List.mem_append.1 hdurable with hdurable | hdurable
    · obtain ⟨ls, hls, hpre, hsize, hin⟩ := h.durable line hdurable
      exact ⟨ls, hls, hpre.trans (List.prefix_append _ _), hsize, hin⟩
    · obtain rfl := List.mem_singleton.1 hdurable
      obtain ⟨ls, hls, hall⟩ := exists_unlines newline job.log
      rw [hend, List.append_nil] at hall
      have hnewLog : unlines newline (ls ++ [kCompletedPrefix ++ p]) =
          (job.markCompleted p).log := by
        rw [unlines_append, ← hall]
        simp [markCompleted, completedLine]
      refine ⟨ls ++ [kCompletedPrefix ++ p], fun l hl => ?_, ?_, ?_, by simp⟩
      · rcases List.mem_append.1 hl with hl | hl
        · exact hls l hl
        · rw [List.mem_singleton.1 hl]
          exact not_mem_completed hline
      · rw [hnewLog]
      · rw [hnewLog]
        simp [markCompleted, h.size]

/-- A crash that does not reach the header leaves a shorter body. -/
theorem kept_eq (h : Recovers now path job history) {lost : Nat}
    (hheader : (logHeader now path).length ≤ history.size - lost) :
    ∃ body body', job.log = logHeader now path ++ body ∧ body' <+: body ∧
      job.kept lost = logHeader now path ++ body' ∧
      (∀ q, q ∈ job.completedPaths ↔ kCompletedPrefix ++ q ∈ lines newline body) ∧
      ∀ l ∈ lines newline body', ¬ kPathPrefix <+: l := by
  obtain ⟨body, hlog, hbody, hcompleted⟩ := h.log
  rw [← h.size] at hheader
  have hpre := List.take_prefix (job.log.length - lost - (logHeader now path).length) body
  refine ⟨body, _, hlog, hpre, ?_, hcompleted, fun l hl hp => ?_⟩
  · rw [kept, hlog, List.take_append, ← hlog, List.take_of_length_le hheader]
  · obtain ⟨m, hm, hlm⟩ := exists_line_of_prefix hpre hl
    exact hbody m hm (hp.trans hlm)

/-- Loading what a crash left of a log. -/
theorem restart (hres : isResolved path = true) (hpath : newline ∉ path)
    (h : Recovers now path job history) {lost : Nat}
    (hheader : (logHeader now path).length ≤ history.size - lost)
    (hharmless : (LogEvent.restart lost).Harmless job history) :
    ∃ job', job.step env (.restart lost) = some job' ∧
      Recovers now path job' (history.step (.restart lost)) := by
  obtain ⟨body, body', hlog, hpre, hkept, hcompleted, hbody'⟩ := h.kept_eq hheader
  obtain ⟨hloaded, hmarks⟩ := loadLines_log hpath now hbody'
  rw [Job.step, load_onDisk, hkept, hloaded, if_pos hres]
  -- Of what was loaded only `hmarks` matters.
  generalize loadLines (logHeader now path ++ body') = loaded at hmarks
  have hsize : (logHeader now path ++ body').length = history.size - lost := by
    rw [← hkept, kept, List.length_take, h.size]
    omega
  refine ⟨_, rfl, rfl, hsize, ⟨body', rfl, hbody', hmarks⟩, fun q hq => ?_, fun line hline => ?_⟩
  · rcases mem_lines_prefix hpre ((hmarks q).1 hq) with hl | hl
    · exact h.onlyMarked q ((hcompleted q).2 hl)
    · apply hharmless q
      rw [hkept, unfinished_append (unfinished_logHeader now path), hl]
  · obtain ⟨hline, hle⟩ := List.mem_filter.1 hline
    obtain ⟨ls, hls, hlspre, hlen, hin⟩ := h.durable line hline
    refine ⟨ls, hls, ?_, hlen, hin⟩
    have hpre' : logHeader now path ++ body' <+: job.log := hkept ▸ List.take_prefix _ _
    apply List.prefix_of_prefix_length_le hlspre hpre'
    rw [hlen, hsize]
    simpa using hle

/-- A crash after which the job is loaded consistently did no harm. -/
theorem harmless_of_consistent (hpath : newline ∉ path) (h : Recovers now path job history)
    {lost : Nat} (hheader : (logHeader now path).length ≤ history.size - lost) {job' : Job}
    (hstep : job.step env (.restart lost) = some job')
    (hconsistent : Consistent job' (history.step (.restart lost))) :
    (LogEvent.restart lost).Harmless job history := by
  intro q hq
  obtain ⟨body, body', -, -, hkept, -, hbody'⟩ := h.kept_eq hheader
  obtain ⟨-, hmarks⟩ := loadLines_log hpath now hbody'
  rw [Job.step, load_onDisk, hkept] at hstep
  generalize loadLines (logHeader now path ++ body') = loaded at hmarks hstep
  split at hstep
  · obtain rfl := Option.some.inj hstep
    rw [hkept, unfinished_append (unfinished_logHeader now path)] at hq
    have hne : unfinished newline body' ≠ [] := by
      rw [hq]
      simp [kCompletedPrefix, text]
    refine hconsistent.onlyMarked q ((hmarks q).2 ?_)
    rw [← hq]
    exact unfinished_mem_lines hne
  · cases hstep

end Recovers

/-- After the events the job is there, loaded from what was left of its log, and it is consistent
with its history. -/
def CrashConsistent (env : Environment) (job : Job) (events : List LogEvent) : Prop :=
  ∃ job', script (Job.step env) job events = some job' ∧ job'.path = job.path ∧
    Consistent job' (events.foldl History.step ⟨job.log.length, [], []⟩)

/-- Events of the log of a new job: what is marked fits into a line, and no crash reaches what
`Job::New` wrote. -/
def PossibleRun (env : Environment) (job : Job) (events : List LogEvent) : Prop :=
  Along (Job.step env) History.step
    (fun _ history event => event.Possible job.log.length history) job ⟨job.log.length, [], []⟩
    events

/-- No event of the run does harm where it happens. -/
def HarmlessRun (env : Environment) (job : Job) (events : List LogEvent) : Prop :=
  Along (Job.step env) History.step
    (fun job history event => event.Harmless job history) job ⟨job.log.length, [], []⟩ events

instance (env : Environment) (job : Job) (events : List LogEvent) :
    Decidable (PossibleRun env job events) := by
  unfold PossibleRun
  infer_instance

instance (env : Environment) (job : Job) (events : List LogEvent) :
    Decidable (HarmlessRun env job events) := by
  unfold HarmlessRun
  infer_instance

/-- **Crash consistency.** If every crash leaves behind no unfinished line that reads as an unmarked
path, and every mark begins a new line, then the job can always be loaded, takes only marked paths
for completed, and has every mark that was never lost from the disk. -/
theorem jobLog_crashConsistent (env : Environment) (calls : Job.NewCalls) (id : Bytes)
    (now : PrintedTime) {path : Bytes} (hres : isResolved path = true) (hpath : newline ∉ path)
    {job : Job} (hnew : Job.new calls id now path = some job) {events : List LogEvent}
    (hpossible : PossibleRun env job events) (hharmless : HarmlessRun env job events) :
    CrashConsistent env job events := by
  have hlog : job.log = logHeader now path := by rw [new_eq hnew]
  have hjob : job.path = path := by rw [new_eq hnew]
  have hstep : ∀ (s : Job) (history : History) (event : LogEvent), Recovers now path s history →
      event.Possible job.log.length history ∧ event.Harmless s history →
      ∃ s', s.step env event = some s' ∧ Recovers now path s' (history.step event) := by
    rintro s history event h ⟨hpossible, hharmless⟩
    cases event with
    | mark p => exact ⟨_, rfl, h.mark hpossible.1 hpossible.2 hharmless⟩
    | restart lost => exact h.restart hres hpath (hlog ▸ hpossible) hharmless
  obtain ⟨job', hrun, h⟩ := script_simulates (fun s history event =>
    LogEvent.Possible job.log.length history event ∧ LogEvent.Harmless s history event)
    (Recovers now path) hstep (Recovers.new hnew) (hpossible.and hharmless)
  exact ⟨job', hrun, h.jobPath.trans hjob.symm, h.consistent hpath⟩

/-- A crash takes the last line, and another mark follows. -/
theorem jobLog_crashConsistent_lineCut :
    CrashConsistent ⟨text "/c"⟩ srvJob
      [.mark (text "a"), .mark (text "b"), .restart 12, .mark (text "c")] :=
  jobLog_crashConsistent ⟨text "/c"⟩ ⟨false, false, false⟩ (text "0f") epoch rfl (by decide) rfl
    (by decide) (by decide)

/-- A crash that leaves `Completed foo` of the mark of `foobar` completes `foo`; one that only
takes the end of a line makes the next mark a part of that line, and it is lost. -/
theorem torn_line_breaks_consistency :
    (PossibleRun ⟨text "/c"⟩ srvJob [.mark (text "foobar"), .restart 4] ∧
      ¬ CrashConsistent ⟨text "/c"⟩ srvJob [.mark (text "foobar"), .restart 4]) ∧
    (PossibleRun ⟨text "/c"⟩ srvJob
        [.mark (text "a"), .restart 1, .mark (text "b"), .restart 0] ∧
      ¬ CrashConsistent ⟨text "/c"⟩ srvJob
        [.mark (text "a"), .restart 1, .mark (text "b"), .restart 0]) := by
  refine ⟨⟨by decide, ?_⟩, ⟨by decide, ?_⟩⟩
  · rintro ⟨job', hrun, -, hconsistent⟩
    have hfoo : ∀ job' ∈ script (Job.step ⟨text "/c"⟩) srvJob [.mark (text "foobar"), .restart 4],
        text "foo" ∈ job'.completedPaths := by decide
    exact absurd (hconsistent.onlyMarked _ (hfoo job' hrun)) (by decide)
  · rintro ⟨job', hrun, -, hconsistent⟩
    have hlost : ∀ job' ∈ script (Job.step ⟨text "/c"⟩) srvJob
        [.mark (text "a"), .restart 1, .mark (text "b"), .restart 0],
        text "b" ∉ job'.completedPaths := by decide
    exact hlost job' hrun (hconsistent.allDurable (text "b", 81) (by decide))

end Netpull
