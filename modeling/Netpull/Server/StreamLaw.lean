import Netpull.Server.Session

/-!
# The law of the stream holds

Every item the manager has made stands for one message, which is sent or in flight: in the hands of
the manager, in the queue of the pool or with a worker. `SessionInv` says this of the messages as a
permutation, whatever the schedule; when the manager has waited for the key, nothing is in flight
any more.
-/

namespace Netpull

open Transition
open scoped List

/-! ## Where messages are -/

namespace ManagerPc

/-- The objects the visit has not come to. -/
def todo (cfg : SessionConfig) : ManagerPc → List FsObject
  | .starting | .rejected | .dead => cfg.objects
  | .crawling todo | .sending _ todo | .preparing _ todo | .submitting _ todo => todo
  | .waiting | .finishing | .done => []

/-- The task the manager is about to submit. -/
def task : ManagerPc → Option IntegrityTask
  | .preparing task _ | .submitting task _ => some task
  | _ => none

/-- The message the manager is about to send. -/
def pull : ManagerPc → Option PullObject
  | .sending pull _ => some pull
  | _ => none

/-- The tasks that are counted by the key but not in the queue. -/
def prepared : ManagerPc → Nat
  | .submitting _ _ => 1
  | _ => 0

/-- What must be true for the manager to stand there. -/
def Demands (cfg : SessionConfig) : ManagerPc → List Outgoing → Nat → Prop
  | .starting, handled, _ => handled = []
  | .finishing, _, pending | .done, _, pending => pending = 0
  | .rejected, _, _ =>
    isAbsolute cfg.ctx.job.path = false ∨ isResolved cfg.ctx.job.path = false
  | .dead, _, _ =>
    isResolved cfg.visitRoot = false ∨
      ∃ o ∈ cfg.objects, o.type = .symlink ∧ isAbsolute o.linkTarget = true
  | _, _, _ => True

/-- The messages before and after the objects. -/
def frame (cfg : SessionConfig) (total : Int32) :
    ManagerPc → List PullResponse × List PullResponse
  | .starting => ([], [])
  | .rejected => ([.error (text "Paths must be absolute.")], [])
  | .done => ([.started cfg.ctx.job.id], [.finished total.toInt64])
  | _ => ([.started cfg.ctx.job.id], [])

theorem Demands.mono {cfg : SessionConfig} {pc : ManagerPc} {handled : List Outgoing} {m n : Nat}
    (h : pc.Demands cfg handled n) (hle : m ≤ n) : pc.Demands cfg handled m := by
  cases pc with
  | finishing => exact Nat.le_zero.1 (Nat.le_trans hle (Nat.le_of_eq h))
  | done => exact Nat.le_zero.1 (Nat.le_trans hle (Nat.le_of_eq h))
  | _ => exact h

end ManagerPc

def IntegrityRun.task : IntegrityRun → Option IntegrityTask
  | .running task => some task
  | .returned => none

/-- The tasks that have been made and not run. -/
def SessionState.tasks (s : SessionState) : List IntegrityTask :=
  s.pc.task.toList ++ s.pool.work some IntegrityRun.task

/-- The messages that will be sent for objects that were handled. -/
def SessionState.inflight (cfg : SessionConfig) (s : SessionState) : List PullObject :=
  s.pc.pull.toList ++ s.tasks.filterMap (IntegrityTask.message cfg.digest)

/-- The number of the `k`th item. -/
def itemNumber (k : Nat) : Int64 := (Int32.ofNat k).toInt64

/-- What every event keeps: of the objects, `seen` were handled, of which came the items `handled`;
`pulls` are the objects sent so far. -/
structure SessionInv (cfg : SessionConfig) (s : SessionState) (seen : List FsObject)
    (handled : List Outgoing) (pulls : List PullObject) : Prop where
  seen_prefix : seen <+: cfg.objects
  todo : s.pc ≠ .dead → cfg.objects = seen ++ s.pc.todo cfg
  announces : List.Forall₂ Announces (unskipped cfg.ctx seen) handled
  numbers : handled.map (·.pull.number) = (List.range' 1 handled.length).map itemNumber
  total : s.total = .ofNat handled.length
  messages : handled.filterMap (Outgoing.message cfg.digest) ~ pulls ++ s.inflight cfg
  stream : s.stream = (s.pc.frame cfg s.total).1 ++ pulls.map .object ++ (s.pc.frame cfg s.total).2
  files : ∀ task ∈ s.tasks, task.pull.type = .kTypeFile
  /-- What the manager is about to send lies at least as deep as everything before it. -/
  deepest : ∀ pull ∈ s.pc.pull, ∀ out ∈ handled,
    out.pull.path.count slash ≤ pull.path.count slash
  directoriesFirst : pulls.Pairwise fun p q => q.type = .kTypeDirectory → ¬ Under p.path q.path
  balanced : s.pool.Balanced s.pc.prepared
  demands : s.pc.Demands cfg handled s.pool.pending
  workers : s.pool.workerCount = cfg.workers

section Invariant

variable {cfg : SessionConfig} {s s' : SessionState} {seen : List FsObject}
  {handled : List Outgoing} {pulls : List PullObject}

theorem SessionInv.start (cfg : SessionConfig) (readyFiles : ReadyFilesMap) :
    SessionInv cfg (.start cfg readyFiles) [] [] [] where
  seen_prefix := List.nil_prefix
  todo := fun _ => rfl
  announces := .nil
  numbers := rfl
  total := rfl
  messages := .nil
  stream := rfl
  files := by simp [SessionState.tasks, SessionState.start, ManagerPc.task, WorkerPool.start,
    WorkerPool.work]
  deepest := by rintro _ ⟨⟩
  directoriesFirst := .nil
  balanced := rfl
  demands := rfl
  workers := rfl

/-! ## Events of the pool -/

/-- An event of the pool that neither makes nor runs a task. -/
theorem SessionInv.poolChanged (h : SessionInv cfg s seen handled pulls)
    {pool : WorkerPool IntegrityTask IntegrityRun}
    (hwork : pool.work some IntegrityRun.task ~ s.pool.work some IntegrityRun.task)
    (hbalanced : pool.Balanced s.pc.prepared) (hpending : pool.pending ≤ s.pool.pending)
    (hworkers : pool.workerCount = s.pool.workerCount) :
    SessionInv cfg { s with pool } seen handled pulls := by
  have htasks : ({ s with pool } : SessionState).tasks ~ s.tasks := hwork.append_left _
  refine ⟨h.seen_prefix, h.todo, h.announces, h.numbers, h.total, ?_, h.stream, ?_, h.deepest,
    h.directoriesFirst, hbalanced, h.demands.mono hpending, hworkers.trans h.workers⟩
  · refine h.messages.trans (List.Perm.append_left _ ?_)
    exact (htasks.symm.filterMap _).append_left _
  · intro task htask
    exact h.files task (htasks.mem_iff.1 htask)

/-- What was sent is the message of an item that was handled. -/
theorem SessionInv.sent_handled (h : SessionInv cfg s seen handled pulls) {p : PullObject}
    (hp : p ∈ pulls) : ∃ out ∈ handled, out.message cfg.digest = some p := by
  have hmem := h.messages.mem_iff.2 (List.mem_append_left _ hp)
  exact List.mem_filterMap.1 hmem

/-- A worker runs the task at `j`. -/
theorem SessionInv.run {j : Nat} {task : IntegrityTask} (h : SessionInv cfg s seen handled pulls)
    (hj : s.pool.running[j]? = some (.running task)) :
    SessionInv cfg { s with
        pool := s.pool.goOn j .returned
        stream := s.stream ++ (task.message cfg.digest).toList.map .object }
      seen handled (pulls ++ (task.message cfg.digest).toList) := by
  have hnotdone : s.pc ≠ .done := by
    intro hpc
    have hdemands := h.demands
    rw [hpc] at hdemands
    rw [(h.balanced.idle hdemands).2.1] at hj
    cases hj
  have hwork : task :: (s.pool.goOn j .returned).work some IntegrityRun.task ~
      s.pool.work some IntegrityRun.task :=
    WorkerPool.work_goOn (f := some) (g := IntegrityRun.task) hj .returned
  have htasks : task :: (s.pc.task.toList ++
      (s.pool.goOn j .returned).work some IntegrityRun.task) ~ s.tasks :=
    List.perm_middle.symm.trans (hwork.append_left _)
  refine ⟨h.seen_prefix, h.todo, h.announces, h.numbers, h.total, ?_, ?_, ?_, h.deepest, ?_,
    h.balanced.goOn j _, h.demands, h.workers⟩
  · have hmessages := htasks.filterMap (IntegrityTask.message cfg.digest)
    rw [List.filterMap_cons] at hmessages
    apply h.messages.trans
    rw [List.append_assoc]
    apply List.Perm.append_left
    unfold SessionState.inflight
    apply ((hmessages.symm).append_left s.pc.pull.toList).trans
    cases task.message cfg.digest with
    | none => exact .refl _
    | some q => exact List.perm_middle
  · have hstream := h.stream
    have hframe : (s.pc.frame cfg s.total).2 = [] := by
      revert hnotdone
      cases s.pc <;> simp [ManagerPc.frame]
    simp only [hframe, List.append_nil] at hstream ⊢
    rw [hstream, List.map_append, List.append_assoc]
  · intro t ht
    exact h.files t (htasks.mem_iff.1 (List.mem_cons_of_mem _ ht))
  · refine List.pairwise_append.2 ⟨h.directoriesFirst, ?_, ?_⟩
    · cases task.message cfg.digest with
      | none => exact .nil
      | some q => exact List.pairwise_singleton _ q
    · intro p _ q hq hdir
      obtain ⟨digest, -, rfl⟩ := Option.map_eq_some_iff.1 (Option.mem_toList.1 hq)
      have hfile := h.files task (htasks.mem_iff.1 List.mem_cons_self)
      exact absurd (hfile.symm.trans hdir) PullObject.Type.noConfusion

/-! ## Steps of the manager -/

/-- The manager goes on with the same task and sends nothing but a message before or after the
objects. -/
theorem SessionInv.goesOn (h : SessionInv cfg s seen handled pulls) {pc : ManagerPc}
    {stream : List PullResponse} (htodo : pc ≠ .dead → cfg.objects = seen ++ pc.todo cfg)
    (htask : pc.task = s.pc.task) (hpull : pc.pull = s.pc.pull)
    (hprepared : pc.prepared = s.pc.prepared)
    (hstream : stream =
      (pc.frame cfg s.total).1 ++ pulls.map .object ++ (pc.frame cfg s.total).2)
    (hdemands : pc.Demands cfg handled s.pool.pending) :
    SessionInv cfg { s with pc, stream } seen handled pulls := by
  have htasks : ({ s with pc, stream } : SessionState).tasks = s.tasks := by
    unfold SessionState.tasks
    rw [htask]
  have hinflight : ({ s with pc, stream } : SessionState).inflight cfg = s.inflight cfg := by
    unfold SessionState.inflight
    rw [htasks, hpull]
  refine ⟨h.seen_prefix, htodo, h.announces, h.numbers, h.total, ?_, hstream, ?_, ?_,
    h.directoriesFirst, ?_, hdemands, h.workers⟩
  · rw [hinflight]
    exact h.messages
  · rw [htasks]
    exact h.files
  · rw [hpull]
    exact h.deepest
  · rw [hprepared]
    exact h.balanced

/-- Before it starts the manager has sent nothing. -/
theorem SessionInv.nothingSent (h : SessionInv cfg s seen handled pulls)
    (hpc : s.pc = .starting) : pulls = [] ∧ s.stream = [] := by
  have hdemands := h.demands
  have hmessages := h.messages
  have hstream := h.stream
  rw [hpc] at hdemands hstream
  rw [show handled = [] from hdemands] at hmessages
  obtain rfl := (List.append_eq_nil_iff.1 hmessages.nil_eq.symm).1
  exact ⟨rfl, hstream⟩

/-- The manager sends its first message. -/
theorem SessionInv.opens (h : SessionInv cfg s seen handled pulls) (hpc : s.pc = .starting)
    {pc : ManagerPc} {resp : PullResponse} (htodo : pc ≠ .dead → pc.todo cfg = cfg.objects)
    (htask : pc.task = none) (hpull : pc.pull = none) (hprepared : pc.prepared = 0)
    (hframe : pc.frame cfg s.total = ([resp], []))
    (hdemands : pc.Demands cfg handled s.pool.pending) :
    SessionInv cfg { s with pc, stream := s.stream ++ [resp] } seen handled pulls := by
  obtain ⟨hnone, hempty⟩ := h.nothingSent hpc
  have hobjects : cfg.objects = seen ++ cfg.objects := by
    have htodo := h.todo (hpc ▸ ManagerPc.noConfusion)
    rwa [hpc] at htodo
  apply h.goesOn
  · intro hlive
    rw [htodo hlive]
    exact hobjects
  · rw [htask, hpc]
    rfl
  · rw [hpull, hpc]
    rfl
  · rw [hprepared, hpc]
    rfl
  · rw [hframe, hnone, hempty]
    rfl
  · exact hdemands

/-- The manager sends a directory or a symlink. -/
theorem SessionInv.send {pull : PullObject} {todo : List FsObject}
    (h : SessionInv cfg s seen handled pulls) (hpc : s.pc = .sending pull todo) :
    SessionInv cfg { s with pc := .crawling todo, stream := s.stream ++ [.object pull] }
      seen handled (pulls ++ [pull]) := by
  obtain ⟨pc, total, drawn, readyFiles, pool, stream⟩ := s
  obtain rfl : pc = .sending pull todo := hpc
  refine ⟨h.seen_prefix, fun _ => h.todo ManagerPc.noConfusion, h.announces, h.numbers, h.total, ?_,
    ?_, h.files, ?_, ?_, h.balanced, trivial, h.workers⟩
  · rw [List.append_assoc]
    exact h.messages
  · have hstream := h.stream
    simp only [ManagerPc.frame, List.append_nil] at hstream ⊢
    rw [hstream, List.map_append, List.append_assoc, List.map_singleton]
  · intro q hq
    cases hq
  · refine List.pairwise_append.2 ⟨h.directoriesFirst, List.pairwise_singleton _ _, ?_⟩
    intro p hp q hq _ hunder
    obtain rfl := List.mem_singleton.1 hq
    obtain ⟨out, hout, hmessage⟩ := h.sent_handled hp
    have hdepth := h.deepest q rfl out hout
    rw [(Outgoing.message_some hmessage).1] at hunder
    exact Nat.not_lt.2 hdepth hunder.count_lt

/-- Every item is that of an object. -/
theorem SessionInv.object_of (h : SessionInv cfg s seen handled pulls) {out : Outgoing}
    (hout : out ∈ handled) : ∃ o ∈ unskipped cfg.ctx seen, Announces o out := by
  obtain ⟨i, hi, rfl⟩ := List.getElem_of_mem hout
  have hi' : i < (unskipped cfg.ctx seen).length := h.announces.length_eq ▸ hi
  exact ⟨_, List.getElem_mem hi', h.announces.get hi' hi⟩

/-- Every object has an item. -/
theorem SessionInv.item_of (h : SessionInv cfg s seen handled pulls) {o : FsObject}
    (ho : o ∈ unskipped cfg.ctx seen) : ∃ out ∈ handled, Announces o out := by
  obtain ⟨i, hi, rfl⟩ := List.getElem_of_mem ho
  have hi' : i < handled.length := h.announces.length_eq ▸ hi
  exact ⟨_, List.getElem_mem hi', h.announces.get hi hi'⟩

/-- The manager handles an object. -/
theorem SessionInv.handle (horderly : Orderly cfg.objects) {o : FsObject} {todo : List FsObject}
    (h : SessionInv cfg s seen handled pulls) (hpc : s.pc = .crawling (o :: todo)) :
    ∃ seen' handled', SessionInv cfg (handleStep cfg s o todo) seen' handled' pulls := by
  obtain ⟨pc, total, drawn, readyFiles, pool, stream⟩ := s
  obtain rfl : pc = .crawling (o :: todo) := hpc
  have hobjects : cfg.objects = seen ++ o :: todo := h.todo ManagerPc.noConfusion
  have ho : o ∈ cfg.objects := by simp [hobjects]
  have hobjects' : cfg.objects = (seen ++ [o]) ++ todo := by simp [hobjects]
  have hseen : seen ++ [o] <+: cfg.objects := ⟨todo, hobjects'.symm⟩
  unfold handleStep
  rcases outgoing_cases cfg.ctx (horderly.relative o ho) (horderly.no_nul o ho) total drawn with
    ⟨hout, hcompleted⟩ | ⟨e, hout, hlink⟩ | ⟨out, hout, hnew, hannounces, hnumber⟩
  · rw [hout]
    have hsame : unskipped cfg.ctx (seen ++ [o]) = unskipped cfg.ctx seen := by
      simp [unskipped, hcompleted]
    exact ⟨seen ++ [o], handled, hseen, fun _ => hobjects', hsame ▸ h.announces, h.numbers, h.total,
      h.messages, h.stream, h.files, h.deepest, h.directoriesFirst, h.balanced, trivial, h.workers⟩
  · rw [hout]
    exact ⟨seen, handled, h.goesOn (fun e => absurd rfl e) rfl rfl rfl h.stream
      (.inr ⟨o, ho, hlink⟩)⟩
  · rw [hout]
    have hall : List.Forall₂ Announces (unskipped cfg.ctx (seen ++ [o])) (handled ++ [out]) := by
      have hone : unskipped cfg.ctx [o] = [o] := by simp [unskipped, hnew]
      rw [show unskipped cfg.ctx (seen ++ [o]) = unskipped cfg.ctx seen ++ unskipped cfg.ctx [o] from
        List.filter_append .., hone]
      exact List.rel_append h.announces (.cons hannounces .nil)
    have hlen : (handled ++ [out]).length = handled.length + 1 := List.length_append
    have htotal : total + 1 = Int32.ofNat (handled ++ [out]).length := by
      rw [hlen, Int32.ofNat_add, ← h.total]
      rfl
    have hnumbers : (handled ++ [out]).map (·.pull.number) =
        (List.range' 1 (handled ++ [out]).length).map itemNumber := by
      rw [List.map_append, h.numbers, hlen, List.range'_concat, List.map_append, List.map_singleton,
        List.map_singleton, hnumber, htotal, hlen, itemNumber, Nat.one_mul, Nat.add_comm 1]
    have hdeepest : ∀ out' ∈ handled ++ [out],
        out'.pull.path.count slash ≤ out.pull.path.count slash := by
      intro out' hout'
      rcases List.mem_append.1 hout' with hout' | hout'
      · obtain ⟨o', ho', hannounces'⟩ := h.object_of hout'
        have hsorted := horderly.sorted
        rw [hobjects] at hsorted
        rw [hannounces'.path, hannounces.path]
        exact (List.pairwise_append.1 hsorted).2.2 o' (List.mem_filter.1 ho').1 o List.mem_cons_self
      · rw [List.mem_singleton.1 hout']
    refine ⟨seen ++ [o], handled ++ [out], ?_⟩
    cases out with
    | send pull =>
      refine ⟨hseen, fun _ => hobjects', hall, hnumbers, htotal, ?_, h.stream, h.files, ?_,
        h.directoriesFirst, h.balanced, trivial, h.workers⟩
      · rw [List.filterMap_append]
        apply (h.messages.append_right [pull]).trans
        rw [List.append_assoc]
        exact List.perm_append_comm.append_left pulls
      · intro q hq
        cases hq
        exact hdeepest
    | submit id ready pull =>
      obtain ⟨hfile, hpath, -⟩ := hannounces.submits id ready pull rfl
      have htype : pull.type = .kTypeFile := hannounces.file.2 hfile
      refine ⟨hseen, fun _ => hobjects', hall, hnumbers, htotal, ?_, h.stream, ?_, ?_,
        h.directoriesFirst, h.balanced, trivial, h.workers⟩
      · rw [List.filterMap_append]
        apply (h.messages.append_right _).trans
        rw [List.append_assoc]
        refine (List.perm_append_comm.append_left pulls).trans (List.Perm.of_eq ?_)
        have hone : [Outgoing.submit id ready pull].filterMap (Outgoing.message cfg.digest) =
            [IntegrityTask.mk pull o.path].filterMap (IntegrityTask.message cfg.digest) := by
          simp only [List.filterMap_cons, Outgoing.message, hpath]
          rfl
        rw [hone, SessionState.inflight, SessionState.inflight, SessionState.tasks,
          SessionState.tasks]
        simp only [ManagerPc.pull, ManagerPc.task, Option.toList_none, Option.toList_some,
          List.nil_append, List.filterMap_append]
      · intro task htask
        rcases List.mem_cons.1 htask with rfl | htask
        · exact htype
        · exact h.files task htask
      · intro q hq
        cases hq

/-- A step of the manager. -/
theorem SessionInv.manager (horderly : Orderly cfg.objects)
    (h : SessionInv cfg s seen handled pulls) (hs : managerStep cfg s = some s') :
    ∃ seen' handled' pulls', SessionInv cfg s' seen' handled' pulls' := by
  cases managerStep_cases hs with
  | rejects hpc hpath =>
    exact ⟨seen, handled, pulls, h.opens hpc (fun _ => rfl) rfl rfl rfl rfl hpath⟩
  | starts hpc =>
    exact ⟨seen, handled, pulls, h.opens hpc (fun _ => rfl) rfl rfl rfl rfl trivial⟩
  | dies hpc hvisit =>
    exact ⟨seen, handled, pulls,
      h.opens hpc (fun e => absurd rfl e) rfl rfl rfl rfl (.inl hvisit)⟩
  | handles o todo hpc =>
    obtain ⟨seen', handled', hinv⟩ := h.handle horderly hpc
    exact ⟨seen', handled', pulls, hinv⟩
  | sends pull todo hpc => exact ⟨seen, handled, _, h.send hpc⟩
  | visited hpc =>
    obtain ⟨pc, total, drawn, readyFiles, pool, stream⟩ := s
    obtain rfl : pc = .crawling [] := hpc
    have hobjects : cfg.objects = seen ++ [] := h.todo ManagerPc.noConfusion
    exact ⟨seen, handled, pulls, h.goesOn (fun _ => hobjects) rfl rfl rfl h.stream trivial⟩
  | prepares task todo hpc =>
    obtain ⟨pc, total, drawn, readyFiles, pool, stream⟩ := s
    obtain rfl : pc = .preparing task todo := hpc
    exact ⟨seen, handled, pulls, h.seen_prefix, fun _ => h.todo ManagerPc.noConfusion, h.announces,
      h.numbers, h.total, h.messages, h.stream, h.files, h.deepest, h.directoriesFirst,
      h.balanced.prepare, trivial, h.workers⟩
  | submits task todo hpc =>
    obtain ⟨pc, total, drawn, readyFiles, pool, stream⟩ := s
    obtain rfl : pc = .submitting task todo := hpc
    have hwork : (pool.submit task).work some IntegrityRun.task ~
        task :: pool.work some IntegrityRun.task := WorkerPool.work_submit pool task
    refine ⟨seen, handled, pulls, h.seen_prefix, fun _ => h.todo ManagerPc.noConfusion, h.announces,
      h.numbers, h.total, ?_, h.stream, ?_, h.deepest, h.directoriesFirst, h.balanced.submit task,
      trivial, h.workers⟩
    · exact h.messages.trans ((hwork.symm.filterMap _).append_left pulls)
    · intro t ht
      exact h.files t (hwork.mem_iff.1 ht)
  | drained hpc hpending =>
    obtain ⟨pc, total, drawn, readyFiles, pool, stream⟩ := s
    obtain rfl : pc = .waiting := hpc
    have hobjects : cfg.objects = seen ++ [] := h.todo ManagerPc.noConfusion
    exact ⟨seen, handled, pulls, h.goesOn (fun _ => hobjects) rfl rfl rfl h.stream hpending⟩
  | finishes hpc =>
    obtain ⟨pc, total, drawn, readyFiles, pool, stream⟩ := s
    obtain rfl : pc = .finishing := hpc
    have hobjects : cfg.objects = seen ++ [] := h.todo ManagerPc.noConfusion
    have hstream := h.stream
    simp only [ManagerPc.frame, List.append_nil] at hstream
    refine ⟨seen, handled, pulls, h.goesOn (fun _ => hobjects) rfl rfl rfl ?_ h.demands⟩
    simp only [ManagerPc.frame]
    rw [hstream]

/-- An event of the session. -/
theorem SessionInv.step (horderly : Orderly cfg.objects)
    (h : SessionInv cfg s seen handled pulls) {event : SessionEvent}
    (hs : sessionStep cfg s event = some s') :
    ∃ seen' handled' pulls', SessionInv cfg s' seen' handled' pulls' := by
  cases sessionStep_cases hs with
  | manager hmanager => exact h.manager horderly hmanager
  | pops i pool hpop =>
    have hwork := WorkerPool.work_waitForTaskAndPop (f := some) (g := IntegrityRun.task)
      (fun _ => rfl) hpop
    obtain ⟨task, -, rfl⟩ := WorkerPool.waitForTaskAndPop_some hpop
    exact ⟨seen, handled, pulls,
      h.poolChanged hwork (h.balanced.waitForTaskAndPop hpop) (Nat.le_refl _) rfl⟩
  | runs j task hj => exact ⟨seen, handled, _, h.run hj⟩
  | finishes j hj =>
    exact ⟨seen, handled, pulls, h.poolChanged (WorkerPool.work_removePending hj rfl)
      (h.balanced.removePending hj) (Nat.sub_le _ _) rfl⟩

/-! ## The law -/

theorem toInt_itemNumber {k : Nat} (hk : k < 2 ^ 31) : (itemNumber k).toInt = k := by
  rw [itemNumber, Int32.toInt_toInt64, Int32.toInt_ofNat_of_lt hk]

theorem SessionInv.handled_length (h : SessionInv cfg s seen handled pulls) :
    handled.length ≤ cfg.unskipped.length := by
  rw [← h.announces.length_eq]
  exact (h.seen_prefix.sublist.filter _).length_le

/-- The objects in the stream. -/
theorem SessionInv.objectsOf_stream (h : SessionInv cfg s seen handled pulls) :
    objectsOf s.stream = pulls := by
  have hpulls : objectsOf (pulls.map .object) = pulls := by
    unfold objectsOf
    rw [List.filterMap_map]
    exact List.filterMap_some
  have hframe : objectsOf (s.pc.frame cfg s.total).1 = [] ∧
      objectsOf (s.pc.frame cfg s.total).2 = [] := by
    cases s.pc <;> exact ⟨rfl, rfl⟩
  rw [h.stream, objectsOf_append, objectsOf_append, hframe.1, hframe.2, hpulls, List.append_nil,
    List.nil_append]

/-- What was sent inherits that items have different values. -/
theorem SessionInv.nodup_sent (h : SessionInv cfg s seen handled pulls) {β : Type}
    {f : PullObject → β} {g : Outgoing → β}
    (hfg : ∀ out q, out.message cfg.digest = some q → f q = g out)
    (hnodup : (handled.map g).Nodup) : (pulls.map f).Nodup := by
  have hmessages := hnodup.sublist (map_messages_sublist hfg handled)
  rw [(h.messages.map f).nodup_iff, List.map_append] at hmessages
  exact hmessages.of_append_left

theorem SessionInv.distinctPaths (horderly : Orderly cfg.objects)
    (h : SessionInv cfg s seen handled pulls) : (pulls.map (·.path)).Nodup := by
  apply h.nodup_sent (g := (·.pull.path)) (fun out q hq => (Outgoing.message_some hq).1)
  have hpaths : (unskipped cfg.ctx seen).map FsObject.relativePath = handled.map (·.pull.path) := by
    have heq := h.announces.imp fun _ _ ho => ho.path.symm
    exact (List.forall₂_eq_eq_eq ▸ List.forall₂_map_right_iff.2
      (List.forall₂_map_left_iff.2 heq) : _ = _)
  rw [← hpaths]
  exact horderly.distinct.sublist ((List.filter_sublist.trans h.seen_prefix.sublist).map _)

theorem SessionInv.transfers (h : SessionInv cfg s seen handled pulls) :
    ∀ p ∈ pulls, p.type = .kTypeFile ↔ p.transfer.isSome := by
  intro p hp
  obtain ⟨out, hout, hmessage⟩ := h.sent_handled hp
  obtain ⟨o, -, hannounces⟩ := h.object_of hout
  exact hannounces.transfer hmessage

theorem SessionInv.announcedSoFar (horderly : Orderly cfg.objects)
    (hfew : cfg.unskipped.length < 2 ^ 31) (h : SessionInv cfg s seen handled pulls) :
    AnnouncedSoFar cfg pulls := by
  have hlen := h.handled_length
  refine ⟨h.distinctPaths horderly, ?_, ?_, h.directoriesFirst, h.transfers, ?_⟩
  · apply h.nodup_sent (g := (·.pull.number)) (fun out q hq => (Outgoing.message_some hq).2.2)
    rw [h.numbers]
    refine List.Nodup.map_on ?_ (List.nodup_range' 1)
    intro k hk k' hk' heq
    rw [List.mem_range'_1] at hk hk'
    have hint := congrArg Int64.toInt heq
    rw [toInt_itemNumber (by omega), toInt_itemNumber (by omega)] at hint
    exact Int.ofNat_inj.1 hint
  · intro p hp
    obtain ⟨out, hout, hmessage⟩ := h.sent_handled hp
    have hmem : p.number ∈ handled.map (·.pull.number) :=
      List.mem_map.2 ⟨out, hout, (Outgoing.message_some hmessage).2.2.symm⟩
    rw [h.numbers] at hmem
    obtain ⟨k, hk, hnumber⟩ := List.mem_map.1 hmem
    rw [List.mem_range'_1] at hk
    rw [← hnumber, toInt_itemNumber (by omega)]
    omega
  · have hsound := (h.messages.map fun p => (p.path, p.type)).symm.subperm
    rw [map_messages_announced h.announces, List.map_append] at hsound
    refine (List.sublist_append_left _ _).subperm.trans (hsound.trans ?_)
    exact (((h.seen_prefix.sublist.filter _).filter _).map _).subperm

/-- In a session that is done everything that can be announced has been. -/
theorem SessionInv.announced_all (h : SessionInv cfg s seen handled pulls) (hdone : s.pc = .done) :
    cfg.unskipped = unskipped cfg.ctx seen ∧
      handled.filterMap (Outgoing.message cfg.digest) ~ pulls := by
  obtain ⟨pc, total, drawn, readyFiles, pool, stream⟩ := s
  obtain rfl : pc = .done := hdone
  obtain ⟨hqueue, hrunning, -⟩ : pool.queue = [] ∧ pool.running = [] ∧ 0 = 0 :=
    h.balanced.idle h.demands
  have hinflight : SessionState.inflight cfg ⟨.done, total, drawn, readyFiles, pool, stream⟩ =
      [] := by
    unfold SessionState.inflight SessionState.tasks WorkerPool.work
    simp only [hqueue, hrunning]
    rfl
  have hmessages := h.messages
  have hobjects : cfg.objects = seen ++ [] := h.todo ManagerPc.noConfusion
  rw [hinflight, List.append_nil] at hmessages
  rw [SessionConfig.unskipped, hobjects, List.append_nil]
  exact ⟨rfl, hmessages⟩

theorem SessionInv.streamLaw (horderly : Orderly cfg.objects)
    (hfew : cfg.unskipped.length < 2 ^ 31) (h : SessionInv cfg s seen handled pulls)
    (hdone : s.pc = .done) : StreamLaw cfg s.stream := by
  obtain ⟨hseen, hmessages⟩ := h.announced_all hdone
  have hlen : handled.length = cfg.unskipped.length := by rw [hseen, h.announces.length_eq]
  have hstream := h.stream
  rw [hdone] at hstream
  refine ⟨pulls, s.total.toInt64, hstream, ?_, h.announcedSoFar horderly hfew, ?_⟩
  · rw [h.total, ← itemNumber, toInt_itemNumber (by omega), hlen]
  · rw [SessionConfig.announced, hseen, ← map_messages_announced h.announces]
    exact (hmessages.map _).symm

theorem SessionInv.streamSoFar (horderly : Orderly cfg.objects)
    (hfew : cfg.unskipped.length < 2 ^ 31) (habs : isAbsolute cfg.ctx.job.path = true)
    (hres : isResolved cfg.ctx.job.path = true) (h : SessionInv cfg s seen handled pulls) :
    StreamSoFar cfg s := by
  unfold StreamSoFar
  split
  · next hdone => exact h.streamLaw horderly hfew hdone
  · next hnotdone =>
    have hlaw := h.announcedSoFar horderly hfew
    obtain ⟨pc, total, drawn, readyFiles, pool, stream⟩ := s
    cases pc with
    | starting => exact .inl (h.nothingSent rfl).2
    | done => exact absurd rfl hnotdone
    | rejected =>
      rcases h.demands with hbad | hbad
      · rw [habs] at hbad
        cases hbad
      · rw [hres] at hbad
        cases hbad
    | _ => exact .inr ⟨pulls, h.stream.trans (List.append_nil _), hlaw⟩

end Invariant

end Netpull
