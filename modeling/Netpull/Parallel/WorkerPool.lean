import Mathlib.Algebra.GroupWithZero.Nat
import Mathlib.Data.List.Perm.Basic

/-!
# WorkerPool

A pool of workers and a key that all its tasks hold. `queue` holds the tasks that wait, `running`
what the busy workers are at, and `pending` is the count of the key. Submitting is two steps,
`prepare` and `submit`, as other threads may run in between.

A free worker takes any task from the queue: those of one priority have no order.
-/

namespace Netpull

open scoped List

/-- `WorkerPool`, with tasks `T` that become `R` while they run, and their `SubmissionKey`. -/
structure WorkerPool (T R : Type) where
  workerCount : Nat
  queue : List T
  running : List R
  pending : Nat
deriving DecidableEq, Repr

namespace WorkerPool

variable {T R β : Type}

/-- `WorkerPool::Start`. -/
def start (workerCount : Nat) : WorkerPool T R := ⟨workerCount, [], [], 0⟩

/-- `Task::Prepare`. -/
def prepare (p : WorkerPool T R) : WorkerPool T R := { p with pending := p.pending + 1 }

/-- `ThreadSafeTaskQueue::Submit`. -/
def submit (p : WorkerPool T R) (task : T) : WorkerPool T R :=
  { p with queue := p.queue ++ [task] }

/-- A free worker takes the task at `i` from the queue and begins to run it. -/
def waitForTaskAndPop (run : T → R) (p : WorkerPool T R) (i : Nat) : Option (WorkerPool T R) :=
  if p.running.length < p.workerCount then
    p.queue[i]?.map fun task =>
      { p with queue := p.queue.eraseIdx i, running := p.running ++ [run task] }
  else none

/-- The busy worker at `j` goes on. -/
def goOn (p : WorkerPool T R) (j : Nat) (r : R) : WorkerPool T R :=
  { p with running := p.running.set j r }

/-- The end of `Task::Execute`: the worker at `j` is free again. -/
def removePending (p : WorkerPool T R) (j : Nat) : WorkerPool T R :=
  { p with running := p.running.eraseIdx j, pending := p.pending - 1 }

/-! ## The count of the key -/

/-- The key counts the tasks that wait, those that run, and `prepared` ones on their way to the
queue. -/
def Balanced (p : WorkerPool T R) (prepared : Nat) : Prop :=
  p.pending = p.queue.length + p.running.length + prepared

variable {p p' : WorkerPool T R} {n : Nat}

theorem Balanced.prepare (h : p.Balanced n) : p.prepare.Balanced (n + 1) :=
  congrArg (· + 1) h

theorem Balanced.submit (h : p.Balanced (n + 1)) (task : T) : (p.submit task).Balanced n := by
  unfold Balanced WorkerPool.submit at *
  simp only [List.length_append, List.length_singleton]
  omega

theorem waitForTaskAndPop_some {run : T → R} {i : Nat}
    (h : p.waitForTaskAndPop run i = some p') : ∃ task, p.queue[i]? = some task ∧
      p' = { p with queue := p.queue.eraseIdx i, running := p.running ++ [run task] } := by
  unfold waitForTaskAndPop at h
  split at h
  · obtain ⟨task, htask, rfl⟩ := Option.map_eq_some_iff.1 h
    exact ⟨task, htask, rfl⟩
  · cases h

theorem length_eraseIdx_of_getElem? {α : Type} {l : List α} {i : Nat} {a : α}
    (h : l[i]? = some a) : l.length = (l.eraseIdx i).length + 1 := by
  obtain ⟨hi, -⟩ := List.getElem?_eq_some_iff.1 h
  rw [List.length_eraseIdx_of_lt hi]
  omega

theorem Balanced.waitForTaskAndPop {run : T → R} {i : Nat} (h : p.Balanced n)
    (hpop : p.waitForTaskAndPop run i = some p') : p'.Balanced n := by
  obtain ⟨task, htask, rfl⟩ := waitForTaskAndPop_some hpop
  have hlen := length_eraseIdx_of_getElem? htask
  unfold Balanced at *
  simp only [List.length_append, List.length_singleton]
  omega

theorem Balanced.goOn (h : p.Balanced n) (j : Nat) (r : R) : (p.goOn j r).Balanced n := by
  unfold Balanced WorkerPool.goOn at *
  rwa [List.length_set]

theorem Balanced.removePending {j : Nat} {r : R} (h : p.Balanced n)
    (hr : p.running[j]? = some r) : (p.removePending j).Balanced n := by
  have hlen := length_eraseIdx_of_getElem? hr
  unfold Balanced WorkerPool.removePending at *
  simp only
  omega

/-- `WaitForPending` returns only when there is nothing left to run. -/
theorem Balanced.idle (h : p.Balanced n) (hpending : p.pending = 0) :
    p.queue = [] ∧ p.running = [] ∧ n = 0 := by
  unfold Balanced at h
  refine ⟨List.length_eq_zero_iff.1 ?_, List.length_eq_zero_iff.1 ?_, ?_⟩ <;> omega

/-! ## What the tasks will come to -/

/-- What the waiting and the running tasks stand for. -/
def work (f : T → Option β) (g : R → Option β) (p : WorkerPool T R) : List β :=
  p.queue.filterMap f ++ p.running.filterMap g

variable {f : T → Option β} {g : R → Option β}

theorem filterMap_perm_eraseIdx {α : Type} {f : α → Option β} {l : List α} {i : Nat} {a : α}
    (h : l[i]? = some a) : l.filterMap f ~ (f a).toList ++ (l.eraseIdx i).filterMap f := by
  obtain ⟨hi, rfl⟩ := List.getElem?_eq_some_iff.1 h
  apply ((List.getElem_cons_eraseIdx_perm hi).symm.filterMap f).trans
  rw [List.filterMap_cons]
  cases f l[i] <;> exact .refl _

theorem filterMap_perm_set {α : Type} {f : α → Option β} {l : List α} {i : Nat} {a : α}
    (h : l[i]? = some a) (b : α) :
    (f a).toList ++ (l.set i b).filterMap f ~ (f b).toList ++ l.filterMap f := by
  obtain ⟨hi, -⟩ := List.getElem?_eq_some_iff.1 h
  have hset : (l.set i b).filterMap f ~ (f b).toList ++ (l.eraseIdx i).filterMap f := by
    apply ((List.set_perm_cons_eraseIdx hi b).filterMap f).trans
    rw [List.filterMap_cons]
    cases f b <;> exact .refl _
  calc (f a).toList ++ (l.set i b).filterMap f
    _ ~ (f a).toList ++ ((f b).toList ++ (l.eraseIdx i).filterMap f) := hset.append_left _
    _ ~ (f b).toList ++ ((f a).toList ++ (l.eraseIdx i).filterMap f) := by
      rw [← List.append_assoc, ← List.append_assoc]
      exact List.perm_append_comm.append_right _
    _ ~ (f b).toList ++ l.filterMap f := (filterMap_perm_eraseIdx h).symm.append_left _

theorem work_submit (p : WorkerPool T R) (task : T) :
    (p.submit task).work f g ~ (f task).toList ++ p.work f g := by
  unfold work submit
  rw [List.filterMap_append, ← List.append_assoc]
  apply List.Perm.append_right
  apply List.perm_append_comm.trans
  cases h : f task <;> simp [h]

theorem work_waitForTaskAndPop {run : T → R} {i : Nat} (hrun : ∀ task, g (run task) = f task)
    (hpop : p.waitForTaskAndPop run i = some p') : p'.work f g ~ p.work f g := by
  obtain ⟨task, htask, rfl⟩ := waitForTaskAndPop_some hpop
  have hqueue := filterMap_perm_eraseIdx (f := f) htask
  have hlast : [run task].filterMap g = (f task).toList := by
    rw [← hrun]
    cases h : g (run task) <;> simp [h]
  unfold work
  rw [List.filterMap_append, hlast, ← List.append_assoc]
  apply List.perm_append_comm.trans
  rw [← List.append_assoc]
  exact hqueue.symm.append_right _

theorem work_goOn {j : Nat} {r : R} (hr : p.running[j]? = some r) (r' : R) :
    (g r).toList ++ (p.goOn j r').work f g ~ (g r').toList ++ p.work f g := by
  have hset := (filterMap_perm_set (f := g) hr r').append_left (p.queue.filterMap f)
  unfold work goOn
  refine List.Perm.trans ?_ (hset.trans ?_)
  · rw [← List.append_assoc, ← List.append_assoc]
    exact List.perm_append_comm.append_right _
  · rw [← List.append_assoc, ← List.append_assoc]
    exact List.perm_append_comm.append_right _

theorem work_removePending {j : Nat} {r : R} (hr : p.running[j]? = some r) (hg : g r = none) :
    (p.removePending j).work f g ~ p.work f g := by
  have hrunning := filterMap_perm_eraseIdx (f := g) hr
  rw [hg] at hrunning
  exact hrunning.symm.append_left _

/-- A worker that goes on with nothing new. -/
theorem mem_work_goOn {j : Nat} {r : R} (hr : p.running[j]? = some r) {r' : R}
    (hr' : ∀ b, g r' = some b → g r = some b) {b : β} (hb : b ∈ (p.goOn j r').work f g) :
    b ∈ p.work f g := by
  have hmem := (work_goOn (f := f) hr r').mem_iff.1 (List.mem_append_right _ hb)
  rcases List.mem_append.1 hmem with hmem | hmem
  · have hsame := hr' b (Option.mem_toList.1 hmem)
    exact List.mem_append_right _ (List.mem_filterMap.2 ⟨r, List.mem_of_getElem? hr, hsame⟩)
  · exact hmem

theorem work_subset {f' : T → Option β} {g' : R → Option β}
    (hf : ∀ task b, f task = some b → f' task = some b)
    (hg : ∀ r b, g r = some b → g' r = some b) : p.work f g ⊆ p.work f' g' := by
  intro b hb
  rcases List.mem_append.1 hb with hb | hb
  · obtain ⟨task, htask, hb⟩ := List.mem_filterMap.1 hb
    exact List.mem_append_left _ (List.mem_filterMap.2 ⟨task, htask, hf task b hb⟩)
  · obtain ⟨r, hr, hb⟩ := List.mem_filterMap.1 hb
    exact List.mem_append_right _ (List.mem_filterMap.2 ⟨r, hr, hg r b hb⟩)

/-! ## What is left to do -/

/-- The steps that the waiting and the running tasks have left. -/
def load (f : T → Nat) (g : R → Nat) (p : WorkerPool T R) : Nat :=
  (p.queue.map f).sum + (p.running.map g).sum

section Load

variable {f : T → Nat} {g : R → Nat}

theorem load_submit (p : WorkerPool T R) (task : T) :
    (p.submit task).load f g = p.load f g + f task := by
  simp only [load, submit, List.map_append, List.sum_append, List.map_cons, List.map_nil,
    List.sum_cons, List.sum_nil]
  omega

theorem sum_map_eraseIdx {α : Type} {f : α → Nat} {l : List α} {i : Nat} {a : α}
    (h : l[i]? = some a) : (l.map f).sum = f a + ((l.eraseIdx i).map f).sum := by
  obtain ⟨hi, rfl⟩ := List.getElem?_eq_some_iff.1 h
  have hperm := (List.getElem_cons_eraseIdx_perm hi).symm.map f
  rw [hperm.sum_nat, List.map_cons, List.sum_cons]

theorem load_waitForTaskAndPop {run : T → R} {i : Nat}
    (h : p.waitForTaskAndPop run i = some p') :
    ∃ task, p'.load f g + f task = p.load f g + g (run task) := by
  obtain ⟨task, htask, rfl⟩ := waitForTaskAndPop_some h
  refine ⟨task, ?_⟩
  have hqueue := sum_map_eraseIdx (f := f) htask
  simp only [load, List.map_append, List.sum_append, List.map_cons, List.map_nil, List.sum_cons,
    List.sum_nil]
  omega

theorem load_goOn {j : Nat} {r : R} (hr : p.running[j]? = some r) (r' : R) :
    (p.goOn j r').load f g + g r = p.load f g + g r' := by
  obtain ⟨hj, -⟩ := List.getElem?_eq_some_iff.1 hr
  have hset : (p.running.set j r')[j]? = some r' := by
    rw [List.getElem?_set_self hj]
  have hbefore := sum_map_eraseIdx (f := g) hr
  have hafter := sum_map_eraseIdx (f := g) hset
  rw [List.eraseIdx_set_eq] at hafter
  simp only [load, goOn]
  omega

theorem load_removePending {j : Nat} {r : R} (hr : p.running[j]? = some r) :
    (p.removePending j).load f g + g r = p.load f g := by
  have hrunning := sum_map_eraseIdx (f := g) hr
  simp only [load, removePending]
  omega

end Load

/-! ## Progress -/

/-- As long as the key counts something that was submitted, a worker can go on or take a task. -/
theorem Balanced.busy_or_pop (run : T → R) (h : p.Balanced 0) (hpending : p.pending ≠ 0)
    (hworkers : 0 < p.workerCount) :
    (∃ r, p.running[0]? = some r) ∨ ∃ p', p.waitForTaskAndPop run 0 = some p' := by
  obtain ⟨workerCount, queue, running, pending⟩ := p
  cases running with
  | cons r running => exact .inl ⟨r, rfl⟩
  | nil =>
    cases queue with
    | nil => exact absurd h hpending
    | cons task queue =>
      exact .inr ⟨_, if_pos hworkers⟩

end WorkerPool

end Netpull
