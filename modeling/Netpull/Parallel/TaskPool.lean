import Mathlib.Data.List.Nodup
import Mathlib.Data.List.Range
import Mathlib.Tactic.Tauto
import Netpull.Lib.Transition
import Netpull.Parallel.WorkerPool

/-!
# The tasks of a pool

`WorkerPool` and `SubmissionKey` with all their threads: any number of other threads that submit
tasks, and workers whose tasks submit tasks in turn. A task is counted by its key, put into the
queue, taken from it and taken off its key again in separate steps, and each is an event, so a
script is any interleaving of them.

`poolStep_moves` says what a step can do to the tasks, and `taskPool_accounting` what holds in every
run: each task is in one place, and a key counts its tasks that have not run to their end.
-/

namespace Netpull

open scoped List

/-- A task that was submitted: its number among all of them, its key, its priority, and the number
of the task whose run submitted it. -/
structure PoolTask (K : Type) where
  number : Nat
  key : Option K
  priority : Int
  parent : Option Nat
deriving DecidableEq, Repr

/-- Where a worker stands: in `WaitForTaskAndPop`, in `Run` of a task, in a `Submit` called there,
behind `Run`, or at its end after it was told that the pool is done. -/
inductive Worker (K : Type)
  | waiting
  | running (task : PoolTask K)
  | submitting (task child : PoolTask K)
  | returned (task : PoolTask K)
  | exited
deriving DecidableEq, Repr

namespace Worker

variable {K : Type}

/-- The task a worker executes. -/
def task? : Worker K → Option (PoolTask K)
  | .running task | .submitting task _ | .returned task => some task
  | .waiting | .exited => none

/-- The task a worker has prepared and not yet put into the queue. -/
def child? : Worker K → Option (PoolTask K)
  | .submitting _ child => some child
  | _ => none

end Worker

/-- What happened to workers. -/
inductive PoolEntry (K : Type)
  | started (worker : Nat) (task : PoolTask K)
  | observedDone (worker : Nat)
deriving DecidableEq, Repr

/-- The tasks in `WaitForTaskAndPop`. -/
def PoolEntry.task? {K : Type} : PoolEntry K → Option (PoolTask K)
  | .started _ task => some task
  | .observedDone _ => none

/-- The state of a pool and of its keys, with what happened so far. `outside` are the tasks that
other threads have prepared and not yet put into the queue. -/
structure TaskPool (K : Type) where
  workers : List (Worker K)
  outside : List (PoolTask K)
  queue : List (PoolTask K)
  done : Bool
  pending : K → Int
  submitted : List (PoolTask K)
  finished : List (PoolTask K)
  log : List (PoolEntry K)

/-- An atomic step: `Prepare` and the second half of `Submit`, by another thread or in the run of a
worker's task, a worker that takes the task at `i` or sees that the pool is done, the end of `Run`,
the `RemovePending` behind it, and `Done`. -/
inductive PoolEvent (K : Type)
  | prepare (key : Option K) (priority : Int)
  | submit (i : Nat)
  | prepareInRun (worker : Nat) (key : Option K) (priority : Int)
  | submitInRun (worker : Nat)
  | pop (worker i : Nat)
  | observeDone (worker : Nat)
  | endRun (worker : Nat)
  | removePending (worker : Nat)
  | done
deriving DecidableEq, Repr

namespace TaskPool

variable {K : Type} [DecidableEq K]

/-- `WorkerPool::Start`. -/
def start (workerCount : Nat) : TaskPool K where
  workers := List.replicate workerCount .waiting
  outside := []
  queue := []
  done := false
  pending _ := 0
  submitted := []
  finished := []
  log := []

/-- `SubmissionKey::AddPending`, if there is a key. -/
def addPending (pending : K → Int) : Option K → K → Int
  | none => pending
  | some k => Function.update pending k (pending k + 1)

/-- `SubmissionKey::RemovePending`, if there is a key. -/
def removePending (pending : K → Int) : Option K → K → Int
  | none => pending
  | some k => Function.update pending k (pending k - 1)

/-- The next task. -/
def newTask (s : TaskPool K) (key : Option K) (priority : Int) (parent : Option Nat) : PoolTask K :=
  ⟨s.submitted.length, key, priority, parent⟩

/-- `Task::Prepare`. -/
def prepared (s : TaskPool K) (task : PoolTask K) : TaskPool K :=
  { s with pending := addPending s.pending task.key, submitted := s.submitted ++ [task] }

/-- The task has the highest priority in the queue, as the top of the `std::priority_queue` has. -/
def IsTop (s : TaskPool K) (task : PoolTask K) : Prop :=
  ∀ other ∈ s.queue, other.priority ≤ task.priority

instance (s : TaskPool K) (task : PoolTask K) : Decidable (s.IsTop task) :=
  inferInstanceAs (Decidable (∀ other ∈ s.queue, _))

/-- An event; one that cannot happen now is refused. -/
def poolStep (s : TaskPool K) : PoolEvent K → Option (TaskPool K)
  | .prepare key priority =>
    let task := s.newTask key priority none
    some { s.prepared task with outside := s.outside ++ [task] }
  | .submit i =>
    s.outside[i]?.map fun task =>
      { s with outside := s.outside.eraseIdx i, queue := s.queue ++ [task] }
  | .prepareInRun w key priority =>
    match s.workers[w]? with
    | some (.running task) =>
      let child := s.newTask key priority (some task.number)
      some { s.prepared child with workers := s.workers.set w (.submitting task child) }
    | _ => none
  | .submitInRun w =>
    match s.workers[w]? with
    | some (.submitting task child) =>
      some { s with workers := s.workers.set w (.running task), queue := s.queue ++ [child] }
    | _ => none
  | .pop w i =>
    match s.workers[w]?, s.queue[i]? with
    | some .waiting, some task =>
      if s.done = false ∧ s.IsTop task then
        some { s with
          workers := s.workers.set w (.running task)
          queue := s.queue.eraseIdx i
          log := s.log ++ [.started w task] }
      else none
    | _, _ => none
  | .observeDone w =>
    match s.workers[w]? with
    | some .waiting =>
      if s.done = true then
        some { s with workers := s.workers.set w .exited, log := s.log ++ [.observedDone w] }
      else none
    | _ => none
  | .endRun w =>
    match s.workers[w]? with
    | some (.running task) => some { s with workers := s.workers.set w (.returned task) }
    | _ => none
  | .removePending w =>
    match s.workers[w]? with
    | some (.returned task) =>
      some { s with
        workers := s.workers.set w .waiting
        pending := removePending s.pending task.key
        finished := s.finished ++ [task] }
    | _ => none
  | .done => some { s with done := true }

/-! ## The law of the pool -/

/-- The tasks that are prepared and not yet in the queue. -/
def preparing (s : TaskPool K) : List (PoolTask K) := s.outside ++ s.workers.filterMap Worker.child?

/-- The tasks that a worker executes. -/
def executing (s : TaskPool K) : List (PoolTask K) := s.workers.filterMap Worker.task?

/-- The tasks that are not finished. -/
def unfinished (s : TaskPool K) : List (PoolTask K) := s.preparing ++ s.queue ++ s.executing

/-- **The accounting of the pool.** -/
structure Accounted (s : TaskPool K) : Prop where
  /-- Each submitted task is in exactly one place. -/
  located : s.preparing ++ s.queue ++ s.executing ++ s.finished ~ s.submitted
  distinct : s.submitted.Nodup
  startedOnce : (s.log.filterMap PoolEntry.task?).Nodup
  /-- No worker starts a task after it has seen that the pool is done. -/
  notAfterDone : s.log.Pairwise fun e e' => ∀ w task, e = .observedDone w → e' ≠ .started w task
  /-- A key counts its tasks that are prepared, in the queue or executed. -/
  counted : ∀ k, s.pending k =
    ((s.preparing ++ s.queue ++ s.executing).countP fun task => task.key = some k : Nat)
  nonneg : ∀ k, 0 ≤ s.pending k

/-- The condition on which `WaitForPending` returns. -/
def WaitForPending (s : TaskPool K) (k : K) : Prop := s.pending k = 0

/-- A task with the key `k`, and those with that key that were submitted by its run, by the run of
one of them, and so on. -/
inductive Descends (s : TaskPool K) (k : K) (task : PoolTask K) : PoolTask K → Prop
  | self : task ∈ s.submitted → task.key = some k → Descends s k task task
  | child {t d : PoolTask K} : Descends s k task t → d ∈ s.submitted → d.parent = some t.number →
      d.key = some k → Descends s k task d

/-! ## What a step can do -/

/-- The steps of the pool. -/
inductive PoolStep (s : TaskPool K) : PoolEvent K → TaskPool K → Prop
  | prepares (key : Option K) (priority : Int) :
      PoolStep s (.prepare key priority) { s.prepared (s.newTask key priority none) with
        outside := s.outside ++ [s.newTask key priority none] }
  | submits (i : Nat) (task : PoolTask K) (outside : s.outside[i]? = some task) :
      PoolStep s (.submit i) { s with
        outside := s.outside.eraseIdx i, queue := s.queue ++ [task] }
  | preparesInRun (w : Nat) (key : Option K) (priority : Int) (task child : PoolTask K)
      (worker : s.workers[w]? = some (.running task))
      (child_eq : child = s.newTask key priority (some task.number)) :
      PoolStep s (.prepareInRun w key priority) { s.prepared child with
        workers := s.workers.set w (.submitting task child) }
  | submitsInRun (w : Nat) (task child : PoolTask K)
      (worker : s.workers[w]? = some (.submitting task child)) :
      PoolStep s (.submitInRun w) { s with
        workers := s.workers.set w (.running task), queue := s.queue ++ [child] }
  | pops (w i : Nat) (task : PoolTask K) (worker : s.workers[w]? = some .waiting)
      (queue : s.queue[i]? = some task) (notDone : s.done = false) (top : s.IsTop task) :
      PoolStep s (.pop w i) { s with
        workers := s.workers.set w (.running task)
        queue := s.queue.eraseIdx i
        log := s.log ++ [.started w task] }
  | observesDone (w : Nat) (worker : s.workers[w]? = some .waiting) (isDone : s.done = true) :
      PoolStep s (.observeDone w) { s with
        workers := s.workers.set w .exited, log := s.log ++ [.observedDone w] }
  | endsRun (w : Nat) (task : PoolTask K) (worker : s.workers[w]? = some (.running task)) :
      PoolStep s (.endRun w) { s with workers := s.workers.set w (.returned task) }
  | removesPending (w : Nat) (task : PoolTask K) (worker : s.workers[w]? = some (.returned task)) :
      PoolStep s (.removePending w) { s with
        workers := s.workers.set w .waiting
        pending := removePending s.pending task.key
        finished := s.finished ++ [task] }
  | done : PoolStep s .done { s with done := true }

theorem poolStep_cases {s s' : TaskPool K} {e : PoolEvent K} (h : poolStep s e = some s') :
    PoolStep s e s' := by
  cases e with
  | prepare key priority => exact Option.some.inj h ▸ .prepares key priority
  | submit i =>
    obtain ⟨task, htask, rfl⟩ := Option.map_eq_some_iff.1 h
    exact .submits i task htask
  | prepareInRun w key priority =>
    simp only [poolStep] at h
    split at h
    · next task hw => exact Option.some.inj h ▸ .preparesInRun w key priority task _ hw rfl
    · cases h
  | submitInRun w =>
    simp only [poolStep] at h
    split at h
    · next task child hw => exact Option.some.inj h ▸ .submitsInRun w task child hw
    · cases h
  | pop w i =>
    simp only [poolStep] at h
    split at h
    · next task hw htask =>
      split at h
      · next htop => exact Option.some.inj h ▸ .pops w i task hw htask htop.1 htop.2
      · cases h
    · cases h
  | observeDone w =>
    simp only [poolStep] at h
    split at h
    · next hw =>
      split at h
      · next hdone => exact Option.some.inj h ▸ .observesDone w hw hdone
      · cases h
    · cases h
  | endRun w =>
    simp only [poolStep] at h
    split at h
    · next task hw => exact Option.some.inj h ▸ .endsRun w task hw
    · cases h
  | removePending w =>
    simp only [poolStep] at h
    split at h
    · next task hw => exact Option.some.inj h ▸ .removesPending w task hw
    · cases h
  | done => exact Option.some.inj h ▸ .done

/-- What a step can do to the tasks: submit one, start one, leave them where they are counted, or
finish one. -/
inductive Moves (s s' : TaskPool K) : Prop
  | submits (task : PoolTask K) (number : task.number = s.submitted.length)
      (parent : ∀ p, task.parent = some p → ∃ t ∈ s.executing, t.number = p)
      (unfinished : s'.unfinished ~ task :: s.unfinished) (executing : s'.executing ~ s.executing)
      (submitted : s'.submitted = s.submitted ++ [task]) (finished : s'.finished = s.finished)
      (pending : s'.pending = addPending s.pending task.key) (log : s'.log = s.log)
  | starts (w : Nat) (task : PoolTask K) (waiting : s.workers[w]? = some .waiting)
      (unfinished : s'.unfinished ~ s.unfinished) (executing : s'.executing ~ task :: s.executing)
      (submitted : s'.submitted = s.submitted) (finished : s'.finished = s.finished)
      (pending : s'.pending = s.pending) (log : s'.log = s.log ++ [.started w task])
  | stays (unfinished : s'.unfinished ~ s.unfinished) (executing : s'.executing ~ s.executing)
      (submitted : s'.submitted = s.submitted) (finished : s'.finished = s.finished)
      (pending : s'.pending = s.pending)
      (log : s'.log = s.log ∨
        ∃ w, s'.workers[w]? = some .exited ∧ s'.log = s.log ++ [.observedDone w])
  | finishes (task : PoolTask K) (unfinished : s.unfinished ~ task :: s'.unfinished)
      (executing : s.executing ~ task :: s'.executing)
      (submitted : s'.submitted = s.submitted) (finished : s'.finished = s.finished ++ [task])
      (pending : s'.pending = removePending s.pending task.key) (log : s'.log = s.log)

variable {s s' : TaskPool K}

section Workers

variable {f : Worker K → Option (PoolTask K)} {w : Nat} {a b : Worker K} {task : PoolTask K}

omit [DecidableEq K] in
/-- A worker goes on and keeps what it has. -/
theorem set_same (h : s.workers[w]? = some a) (hab : f a = f b) :
    (s.workers.set w b).filterMap f ~ s.workers.filterMap f := by
  have hset := WorkerPool.filterMap_perm_set (f := f) h b
  rw [hab] at hset
  exact (List.perm_append_left_iff _).1 hset

omit [DecidableEq K] in
theorem set_gain (h : s.workers[w]? = some a) (ha : f a = none) (hb : f b = some task) :
    (s.workers.set w b).filterMap f ~ task :: s.workers.filterMap f := by
  have hset := WorkerPool.filterMap_perm_set (f := f) h b
  rwa [ha, hb] at hset

omit [DecidableEq K] in
theorem set_loss (h : s.workers[w]? = some a) (ha : f a = some task) (hb : f b = none) :
    s.workers.filterMap f ~ task :: (s.workers.set w b).filterMap f := by
  have hset := WorkerPool.filterMap_perm_set (f := f) h b
  rw [ha, hb] at hset
  exact hset.symm

omit [DecidableEq K] in
theorem mem_executing (h : s.workers[w]? = some a) (ha : a.task? = some task) :
    task ∈ s.executing :=
  List.mem_filterMap.2 ⟨a, List.mem_of_getElem? h, ha⟩

end Workers

omit [DecidableEq K] in
theorem eraseIdx_loss {l : List (PoolTask K)} {i : Nat} {task : PoolTask K}
    (h : l[i]? = some task) : l ~ task :: l.eraseIdx i := by
  obtain ⟨hi, rfl⟩ := List.getElem?_eq_some_iff.1 h
  exact (List.getElem_cons_eraseIdx_perm hi).symm

/-- How often a task is among the unfinished ones, by places. -/
theorem count_unfinished (s : TaskPool K) (x : PoolTask K) :
    s.unfinished.count x = s.outside.count x + (s.workers.filterMap Worker.child?).count x +
      s.queue.count x + (s.workers.filterMap Worker.task?).count x := by
  rw [unfinished, preparing, executing, List.count_append, List.count_append, List.count_append]

omit [DecidableEq K] in
/-- Nothing moves between the places of the unfinished tasks. -/
theorem unfinished_same (houtside : s'.outside = s.outside) (hqueue : s'.queue = s.queue)
    (hchild : s'.workers.filterMap Worker.child? ~ s.workers.filterMap Worker.child?)
    (htask : s'.workers.filterMap Worker.task? ~ s.workers.filterMap Worker.task?) :
    s'.unfinished ~ s.unfinished := by
  rw [unfinished, unfinished, preparing, preparing, houtside, hqueue]
  exact ((hchild.append_left _).append_right _).append htask

theorem poolStep_moves {e : PoolEvent K} (h : poolStep s e = some s') : Moves s s' := by
  cases poolStep_cases h with
  | prepares key priority =>
    refine .submits (s.newTask key priority none) rfl ?_ ?_ (.refl _) rfl rfl rfl rfl
    · intro p hp
      cases hp
    · rw [List.perm_iff_count]
      intro x
      rw [List.count_cons, count_unfinished, count_unfinished]
      simp only [prepared, List.count_append, List.count_cons, List.count_nil]
      omega
  | submits i task htask =>
    refine .stays ?_ (.refl _) rfl rfl rfl (.inl rfl)
    rw [List.perm_iff_count]
    intro x
    have houtside := (eraseIdx_loss htask).count_eq x
    rw [List.count_cons] at houtside
    rw [count_unfinished, count_unfinished]
    simp only [List.count_append, List.count_cons, List.count_nil]
    omega
  | preparesInRun w key priority task child hw hchild =>
    have hnew := set_gain (f := Worker.child?) hw rfl (b := .submitting task child) rfl
    have htask := set_same (f := Worker.task?) hw (b := .submitting task child) rfl
    subst hchild
    refine .submits (s.newTask key priority (some task.number)) rfl ?_ ?_ htask rfl rfl rfl rfl
    · intro p hp
      exact ⟨task, mem_executing hw rfl, Option.some.inj hp⟩
    · rw [List.perm_iff_count]
      intro x
      have hnew := hnew.count_eq x
      have htask := htask.count_eq x
      rw [List.count_cons] at hnew ⊢
      rw [count_unfinished, count_unfinished]
      simp only [prepared]
      omega
  | submitsInRun w task child hw =>
    have hchild := set_loss (f := Worker.child?) hw rfl (b := .running task) rfl
    have htask := set_same (f := Worker.task?) hw (b := .running task) rfl
    refine .stays ?_ htask rfl rfl rfl (.inl rfl)
    rw [List.perm_iff_count]
    intro x
    have hchild := hchild.count_eq x
    have htask := htask.count_eq x
    rw [List.count_cons] at hchild
    rw [count_unfinished, count_unfinished]
    simp only [List.count_append, List.count_cons, List.count_nil]
    omega
  | pops w i task hw htask =>
    have hchild := set_same (f := Worker.child?) hw (b := .running task) rfl
    have hrun := set_gain (f := Worker.task?) hw rfl (b := .running task) rfl
    refine .starts w task hw ?_ hrun rfl rfl rfl rfl
    rw [List.perm_iff_count]
    intro x
    have hqueue := (eraseIdx_loss htask).count_eq x
    have hchild := hchild.count_eq x
    have hrun := hrun.count_eq x
    rw [List.count_cons] at hqueue hrun
    rw [count_unfinished, count_unfinished]
    simp only
    omega
  | observesDone w hw =>
    have hchild := set_same (f := Worker.child?) hw (b := .exited) rfl
    have htask := set_same (f := Worker.task?) hw (b := .exited) rfl
    refine .stays (unfinished_same rfl rfl hchild htask) htask rfl rfl rfl (.inr ⟨w, ?_, rfl⟩)
    exact List.getElem?_set_self (List.getElem?_eq_some_iff.1 hw).1
  | endsRun w task hw =>
    have hchild := set_same (f := Worker.child?) hw (b := .returned task) rfl
    have htask := set_same (f := Worker.task?) hw (b := .returned task) rfl
    exact .stays (unfinished_same rfl rfl hchild htask) htask rfl rfl rfl (.inl rfl)
  | removesPending w task hw =>
    have hchild := set_same (f := Worker.child?) hw (b := .waiting) rfl
    have htask := set_loss (f := Worker.task?) hw rfl (b := .waiting) rfl
    refine .finishes task ?_ htask rfl rfl rfl rfl
    rw [List.perm_iff_count]
    intro x
    have hchild := hchild.count_eq x
    have htask := htask.count_eq x
    rw [List.count_cons] at htask ⊢
    rw [count_unfinished, count_unfinished]
    simp only
    omega
  | done => exact .stays (.refl _) (.refl _) rfl rfl rfl (.inl rfl)

/-- A worker that has seen that the pool is done does nothing any more. -/
theorem poolStep_exited {e : PoolEvent K} (h : poolStep s e = some s') {w : Nat}
    (hw : s.workers[w]? = some .exited) : s'.workers[w]? = some .exited := by
  have hset : ∀ {w' a} (b : Worker K), s.workers[w']? = some a → a ≠ .exited →
      (s.workers.set w' b)[w]? = some .exited := by
    intro w' a b hw' ha
    rw [List.getElem?_set_ne, hw]
    rintro rfl
    exact ha (Option.some.inj (hw'.symm.trans hw))
  cases poolStep_cases h with
  | prepares | submits | done => exact hw
  | preparesInRun _ _ _ _ _ hw' | submitsInRun _ _ _ hw' | pops _ _ _ hw' | observesDone _ hw'
  | endsRun _ _ hw' | removesPending _ _ hw' => exact hset _ hw' (by simp)

/-! ## The invariant -/

/-- How many of the tasks hold the key. -/
def keyCount (k : K) (tasks : List (PoolTask K)) : Nat :=
  tasks.countP fun task => task.key = some k

theorem addPending_eq {pending : K → Int} {tasks tasks' : List (PoolTask K)} {task : PoolTask K}
    (h : ∀ k, pending k = keyCount k tasks) (hperm : tasks' ~ task :: tasks) (k : K) :
    addPending pending task.key k = keyCount k tasks' := by
  rw [keyCount, hperm.countP_eq, List.countP_cons]
  have hk := h k
  unfold keyCount at hk
  cases hkey : task.key with
  | none => simp [addPending, hk]
  | some k' =>
    by_cases hsame : k = k'
    · subst hsame
      simp [addPending, hk]
    · simp [addPending, Function.update_of_ne hsame, hk, Ne.symm hsame]

theorem removePending_eq {pending : K → Int} {tasks tasks' : List (PoolTask K)}
    {task : PoolTask K} (h : ∀ k, pending k = keyCount k tasks) (hperm : tasks ~ task :: tasks')
    (k : K) : removePending pending task.key k = keyCount k tasks' := by
  have hk := h k
  rw [keyCount, hperm.countP_eq, List.countP_cons] at hk
  unfold keyCount
  cases hkey : task.key with
  | none =>
    rw [hkey] at hk
    simpa [removePending] using hk
  | some k' =>
    rw [hkey] at hk
    by_cases hsame : k = k'
    · subst hsame
      simp [removePending, hk]
    · simpa [removePending, Function.update_of_ne hsame, Ne.symm hsame] using hk

/-- The invariant of the pool. -/
structure PoolInv (s : TaskPool K) : Prop where
  located : s.unfinished ++ s.finished ~ s.submitted
  numbers : s.submitted.map (·.number) = List.range s.submitted.length
  counted : ∀ k, s.pending k = keyCount k s.unfinished
  started : s.log.filterMap PoolEntry.task? ~ s.executing ++ s.finished
  notAfterDone : s.log.Pairwise fun e e' => ∀ w task, e = .observedDone w → e' ≠ .started w task
  exited : ∀ w, .observedDone w ∈ s.log → s.workers[w]? = some .exited

omit [DecidableEq K] in
theorem filterMap_replicate_waiting {f : Worker K → Option (PoolTask K)} (hf : f .waiting = none)
    (n : Nat) : (List.replicate n Worker.waiting).filterMap f = [] := by
  rw [List.filterMap_eq_nil_iff]
  intro a ha
  rw [List.eq_of_mem_replicate ha, hf]

theorem PoolInv.start (workerCount : Nat) : PoolInv (K := K) (.start workerCount) := by
  have hchildren := filterMap_replicate_waiting (K := K) (f := Worker.child?) rfl workerCount
  have htasks := filterMap_replicate_waiting (K := K) (f := Worker.task?) rfl workerCount
  have hunfinished : (TaskPool.start (K := K) workerCount).unfinished = [] := by
    rw [unfinished, preparing, executing, TaskPool.start, hchildren, htasks]
    rfl
  refine ⟨?_, rfl, ?_, ?_, .nil, ?_⟩
  · rw [hunfinished]
    exact .refl _
  · intro k
    rw [hunfinished]
    rfl
  · rw [executing, TaskPool.start, htasks]
    exact .refl _
  · intro w hw
    cases hw

theorem PoolInv.number_inj (h : PoolInv s) {t d : PoolTask K} (ht : t ∈ s.submitted)
    (hd : d ∈ s.submitted) (hnumber : t.number = d.number) : t = d := by
  have hnodup : (s.submitted.map (·.number)).Nodup := by
    rw [h.numbers]
    exact List.nodup_range
  exact List.inj_on_of_nodup_map hnodup ht hd hnumber

theorem PoolInv.nodup (h : PoolInv s) : s.submitted.Nodup := by
  refine List.Nodup.of_map (·.number) ?_
  rw [h.numbers]
  exact List.nodup_range

theorem PoolInv.mem_submitted (h : PoolInv s) {task : PoolTask K} :
    task ∈ s.submitted ↔ task ∈ s.unfinished ∨ task ∈ s.finished := by
  rw [← h.located.mem_iff, List.mem_append]

/-- A task is not executed any more when it is finished. -/
theorem PoolInv.disjoint (h : PoolInv s) {task : PoolTask K} (hexecuting : task ∈ s.executing) :
    task ∉ s.finished := by
  intro hfinished
  have hnodup := h.located.nodup_iff.2 h.nodup
  have hunfinished : task ∈ s.unfinished := List.mem_append_right _ hexecuting
  exact List.disjoint_of_nodup_append hnodup hunfinished hfinished

/-- The log goes on, and no worker starts a task that has seen that the pool is done. -/
theorem PoolInv.log_step (h : PoolInv s) {e : PoolEvent K} (hstep : poolStep s e = some s')
    {entry : PoolEntry K} (hlog : s'.log = s.log ++ [entry])
    (hstarted : ∀ w task, entry = .started w task → s.workers[w]? = some .waiting)
    (hdone : ∀ w, entry = .observedDone w → s'.workers[w]? = some .exited) :
    (s'.log.Pairwise fun e e' => ∀ w task, e = .observedDone w → e' ≠ .started w task) ∧
      ∀ w, .observedDone w ∈ s'.log → s'.workers[w]? = some .exited := by
  rw [hlog]
  constructor
  · rw [List.pairwise_append]
    refine ⟨h.notAfterDone, List.pairwise_singleton _ _, ?_⟩
    rintro _ hmem _ hentry w task rfl rfl
    have hexited := h.exited w hmem
    rw [hstarted w task (List.mem_singleton.1 hentry).symm] at hexited
    cases hexited
  · intro w hw
    rw [List.mem_append, List.mem_singleton] at hw
    rcases hw with hw | hw
    · exact poolStep_exited hstep (h.exited w hw)
    · exact hdone w hw.symm

/-- **Every step keeps the invariant.** -/
theorem PoolInv.step (h : PoolInv s) {e : PoolEvent K} (hstep : poolStep s e = some s') :
    PoolInv s' := by
  have hexited : ∀ w, .observedDone w ∈ s.log → s'.workers[w]? = some .exited :=
    fun w hw => poolStep_exited hstep (h.exited w hw)
  cases poolStep_moves hstep with
  | submits task number parent unfinished executing submitted finished pending log =>
    refine ⟨?_, ?_, ?_, ?_, ?_, ?_⟩
    · rw [finished, submitted]
      calc s'.unfinished ++ s.finished
        _ ~ task :: (s.unfinished ++ s.finished) := unfinished.append_right _
        _ ~ task :: s.submitted := h.located.cons task
        _ ~ s.submitted ++ [task] := (List.perm_append_singleton task s.submitted).symm
    · rw [submitted, List.map_append, h.numbers, List.length_append, List.length_singleton,
        List.range_succ, List.map_singleton, number]
    · rw [pending]
      exact addPending_eq h.counted unfinished
    · rw [log, finished]
      exact h.started.trans (executing.symm.append_right _)
    · exact log ▸ h.notAfterDone
    · exact log ▸ hexited
  | starts w task waiting unfinished executing submitted finished pending log =>
    have hlog := h.log_step hstep log (by rintro _ _ ⟨⟩; exact waiting) (by rintro _ ⟨⟩)
    refine ⟨?_, ?_, ?_, ?_, hlog.1, hlog.2⟩
    · rw [finished, submitted]
      exact (unfinished.append_right _).trans h.located
    · rw [submitted, h.numbers]
    · intro k
      rw [pending, h.counted k, keyCount, keyCount, unfinished.countP_eq]
    · rw [log, finished, List.filterMap_append]
      calc s.log.filterMap PoolEntry.task? ++ [task]
        _ ~ task :: s.log.filterMap PoolEntry.task? := List.perm_append_singleton _ _
        _ ~ task :: (s.executing ++ s.finished) := h.started.cons task
        _ ~ s'.executing ++ s.finished := executing.symm.append_right _
  | stays unfinished executing submitted finished pending log =>
    have hlog : (s'.log.Pairwise fun e e' =>
          ∀ w task, e = .observedDone w → e' ≠ .started w task) ∧
        (∀ w, .observedDone w ∈ s'.log → s'.workers[w]? = some .exited) ∧
        s'.log.filterMap PoolEntry.task? = s.log.filterMap PoolEntry.task? := by
      rcases log with log | ⟨w, hw, log⟩
      · exact ⟨log ▸ h.notAfterDone, log ▸ hexited, by rw [log]⟩
      · have hlog := h.log_step hstep log (by rintro _ _ ⟨⟩) (by rintro _ ⟨⟩; exact hw)
        refine ⟨hlog.1, hlog.2, ?_⟩
        rw [log, List.filterMap_append]
        exact List.append_nil _
    refine ⟨?_, ?_, ?_, ?_, hlog.1, hlog.2.1⟩
    · rw [finished, submitted]
      exact (unfinished.append_right _).trans h.located
    · rw [submitted, h.numbers]
    · intro k
      rw [pending, h.counted k, keyCount, keyCount, unfinished.countP_eq]
    · rw [hlog.2.2, finished]
      exact h.started.trans (executing.symm.append_right _)
  | finishes task unfinished executing submitted finished pending log =>
    have hmiddle : ∀ l, l ++ (s.finished ++ [task]) ~ task :: (l ++ s.finished) := by
      intro l
      rw [← List.append_assoc]
      exact List.perm_append_singleton _ _
    refine ⟨?_, ?_, ?_, ?_, ?_, ?_⟩
    · rw [finished, submitted]
      calc s'.unfinished ++ (s.finished ++ [task])
        _ ~ task :: (s'.unfinished ++ s.finished) := hmiddle _
        _ ~ s.unfinished ++ s.finished := unfinished.symm.append_right _
        _ ~ s.submitted := h.located
    · rw [submitted, h.numbers]
    · rw [pending]
      exact removePending_eq h.counted unfinished
    · rw [log, finished]
      calc s.log.filterMap PoolEntry.task?
        _ ~ s.executing ++ s.finished := h.started
        _ ~ task :: (s'.executing ++ s.finished) := executing.append_right _
        _ ~ s'.executing ++ (s.finished ++ [task]) := (hmiddle _).symm
    · exact log ▸ h.notAfterDone
    · exact log ▸ hexited

theorem PoolInv.script (h : PoolInv s) {es : List (PoolEvent K)}
    (hrun : Transition.script poolStep s es = some s') : PoolInv s' :=
  Transition.script_invariant (fun _ _ _ hs hstep => hs.step hstep) h hrun

theorem PoolInv.accounted (h : PoolInv s) : Accounted s where
  located := h.located
  distinct := h.nodup
  startedOnce := by
    rw [h.started.nodup_iff]
    have hnodup := h.located.nodup_iff.2 h.nodup
    rw [unfinished, List.append_assoc] at hnodup
    exact List.Nodup.of_append_right hnodup
  notAfterDone := h.notAfterDone
  counted := h.counted
  nonneg k := by
    rw [h.counted k]
    exact Int.natCast_nonneg _

/-! ## Waiting for a key -/

/-- What happens after a state: what was submitted and finished by then is so for good, and the
tasks that come are not submitted by the run of one that was finished. -/
structure After (s₀ s : TaskPool K) : Prop where
  submitted : ∀ task ∈ s₀.submitted, task ∈ s.submitted
  finished : ∀ task ∈ s₀.finished, task ∈ s.finished
  parent : ∀ d ∈ s.submitted, d ∉ s₀.submitted → ∀ t ∈ s₀.finished, d.parent ≠ some t.number

omit [DecidableEq K] in
theorem After.refl (s : TaskPool K) : After s s :=
  ⟨fun _ h => h, fun _ h => h, fun _ h h' => absurd h h'⟩

theorem After.step {s₀ : TaskPool K} (hs : PoolInv s) (h : After s₀ s) {e : PoolEvent K}
    (hstep : poolStep s e = some s') : After s₀ s' := by
  obtain ⟨hsubmitted, hfinished, hparent⟩ := h
  cases poolStep_moves hstep with
  | submits task number parent unfinished executing submitted finished pending log =>
    refine ⟨?_, finished ▸ hfinished, ?_⟩
    · rw [submitted]
      exact fun t ht => List.mem_append_left _ (hsubmitted t ht)
    · intro d hd hnew t ht hp
      rw [submitted, List.mem_append, List.mem_singleton] at hd
      rcases hd with hd | rfl
      · exact hparent d hd hnew t ht hp
      · -- The run that submits it is not at its end.
        obtain ⟨running, hrunning, hnumber⟩ := parent _ hp
        have hrunningSubmitted : running ∈ s.submitted :=
          hs.mem_submitted.2 (.inl (List.mem_append_right _ hrunning))
        have htSubmitted : t ∈ s.submitted := hs.mem_submitted.2 (.inr (hfinished t ht))
        obtain rfl := hs.number_inj hrunningSubmitted htSubmitted hnumber
        exact hs.disjoint hrunning (hfinished _ ht)
  | starts w task waiting unfinished executing submitted finished pending log =>
    exact ⟨submitted ▸ hsubmitted, finished ▸ hfinished, submitted ▸ hparent⟩
  | stays unfinished executing submitted finished pending log =>
    exact ⟨submitted ▸ hsubmitted, finished ▸ hfinished, submitted ▸ hparent⟩
  | finishes task unfinished executing submitted finished pending log =>
    refine ⟨submitted ▸ hsubmitted, ?_, submitted ▸ hparent⟩
    rw [finished]
    exact fun t ht => List.mem_append_left _ (hfinished t ht)

theorem After.script {s₀ : TaskPool K} (hs : PoolInv s₀) {es : List (PoolEvent K)}
    (hrun : Transition.script poolStep s₀ es = some s) : After s₀ s := by
  have hstep : ∀ s e s', PoolInv s ∧ After s₀ s → poolStep s e = some s' →
      PoolInv s' ∧ After s₀ s' := by
    rintro s e s' ⟨hs, hafter⟩ hstep
    exact ⟨hs.step hstep, hafter.step hs hstep⟩
  exact (Transition.script_invariant hstep ⟨hs, .refl s₀⟩ hrun).2

/-- When nothing is pending, all tasks of the key are finished. -/
theorem PoolInv.finished_of_wait (h : PoolInv s) {k : K} (hwait : s.WaitForPending k)
    {task : PoolTask K} (hsubmitted : task ∈ s.submitted) (hkey : task.key = some k) :
    task ∈ s.finished := by
  have hcount : keyCount k s.unfinished = 0 := by
    have hpending := h.counted k
    rw [show s.pending k = 0 from hwait] at hpending
    exact Int.natCast_eq_zero.1 hpending.symm
  rw [keyCount, List.countP_eq_zero] at hcount
  refine (h.mem_submitted.1 hsubmitted).resolve_left fun hunfinished => ?_
  exact hcount task hunfinished (decide_eq_true hkey)

/-- What comes from the tasks that were submitted by then is finished too. -/
theorem PoolInv.descends_finished (h : PoolInv s) {k : K} (hwait : s.WaitForPending k)
    (hafter : After s s') {task d : PoolTask K} (htask : task ∈ s.submitted)
    (hd : s'.Descends k task d) : d ∈ s.finished := by
  induction hd with
  | self _ hkey => exact h.finished_of_wait hwait htask hkey
  | child _ hsubmitted hparent hkey ih =>
    by_contra hunfinished
    have hnew : _ ∉ s.submitted := fun hold => hunfinished (h.finished_of_wait hwait hold hkey)
    exact hafter.parent _ hsubmitted hnew _ ih hparent

end TaskPool

open TaskPool Transition in
/-- **The pool accounts for its tasks.** In every run each task is in one place and started at most
once, and a key counts its tasks. When `WaitForPending` returns, the tasks of the key that were
submitted before the call are finished, and so is every one that will ever come from them. -/
theorem taskPool_accounting {K : Type} [DecidableEq K] (workerCount : Nat)
    (before : List (PoolEvent K)) (s₁ : TaskPool K)
    (hbefore : script poolStep (.start workerCount) before = some s₁) :
    Accounted s₁ ∧
      ∀ (k : K) (during : List (PoolEvent K)) (s₂ : TaskPool K),
        script poolStep s₁ during = some s₂ → s₂.WaitForPending k →
          ∀ (after : List (PoolEvent K)) (s₃ : TaskPool K), script poolStep s₂ after = some s₃ →
            ∀ task ∈ s₁.submitted, ∀ d, s₃.Descends k task d → d ∈ s₂.finished := by
  have h₁ : PoolInv s₁ := (PoolInv.start workerCount).script hbefore
  refine ⟨h₁.accounted, ?_⟩
  intro k during s₂ hduring hwait after s₃ hafter task htask d hd
  have h₂ : PoolInv s₂ := h₁.script hduring
  have htask₂ : task ∈ s₂.submitted := (After.script h₁ hduring).submitted task htask
  exact h₂.descends_finished hwait (After.script h₂ hafter) htask₂ hd

open TaskPool Transition in
/-- A task that submits another one with its key, and what a wait for the key then means. -/
theorem taskPool_accounting_nested :
    ∃ s₁ s₂ : TaskPool Nat,
      script poolStep (.start 1) [.prepare (some 7) 0, .submit 0, .pop 0 0] = some s₁ ∧
      Accounted s₁ ∧
      script poolStep s₁ [.prepareInRun 0 (some 7) 1, .submitInRun 0, .endRun 0, .removePending 0,
        .pop 0 0, .endRun 0, .removePending 0] = some s₂ ∧
      s₂.WaitForPending 7 ∧ ⟨1, some 7, 1, some 0⟩ ∈ s₂.finished := by
  obtain ⟨haccounted, hwait⟩ := taskPool_accounting (K := Nat) 1
    [.prepare (some 7) 0, .submit 0, .pop 0 0] _ rfl
  have hwait := hwait 7 [.prepareInRun 0 (some 7) 1, .submitInRun 0, .endRun 0, .removePending 0,
    .pop 0 0, .endRun 0, .removePending 0] _ rfl rfl [] _ rfl ⟨0, some 7, 0, none⟩ (.head _)
  refine ⟨_, _, rfl, haccounted, rfl, rfl, hwait _ ?_⟩
  exact .child (.self (.head _) rfl) (.tail _ (.head _)) rfl rfl

end Netpull
