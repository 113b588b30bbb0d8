import Netpull.Server.StreamLaw

/-!
# A session comes to its end

Every event takes one of finitely many steps, and as long as there is a worker the session does not
stop before it is done. With the invariant of the stream this gives the law of the stream for every
schedule (`session_streamLaw`).
-/

namespace Netpull

open Transition

section Measure

variable {cfg : SessionConfig} {s s' : SessionState} {seen : List FsObject}
  {handled : List Outgoing} {pulls : List PullObject}

/-- The steps the manager has left, with those of the tasks it will submit. -/
def ManagerPc.stepsLeft (cfg : SessionConfig) : ManagerPc → Nat
  | .starting => 6 * cfg.objects.length + 5
  | .crawling todo => 6 * todo.length + 4
  | .sending _ todo => 6 * todo.length + 5
  | .preparing _ todo => 6 * todo.length + 9
  | .submitting _ todo => 6 * todo.length + 8
  | .waiting => 3
  | .finishing => 2
  | .done | .rejected | .dead => 0

def SessionState.measure (cfg : SessionConfig) (s : SessionState) : Nat :=
  s.pc.stepsLeft cfg + 2 * s.pool.queue.length + s.pool.running.length +
    (s.pool.work some IntegrityRun.task).length

theorem handleStep_measure (cfg : SessionConfig) (s : SessionState) (o : FsObject)
    (todo : List FsObject) :
    (handleStep cfg s o todo).measure cfg <
      ({ s with pc := .crawling (o :: todo) } : SessionState).measure cfg := by
  have hpool : ∀ pc total drawn readyFiles,
      pc.stepsLeft cfg < (ManagerPc.crawling (o :: todo)).stepsLeft cfg →
      ({ s with pc, total, drawn, readyFiles } : SessionState).measure cfg <
        ({ s with pc := .crawling (o :: todo) } : SessionState).measure cfg := by
    intro pc total drawn readyFiles hlt
    unfold SessionState.measure
    simp only
    omega
  unfold handleStep
  split <;>
  · apply hpool
    simp only [ManagerPc.stepsLeft, List.length_cons]
    omega

theorem managerStep_measure (hs : managerStep cfg s = some s') :
    s'.measure cfg < s.measure cfg := by
  cases managerStep_cases hs with
  | handles o todo hpc =>
    have hlt := handleStep_measure cfg s o todo
    rwa [← hpc] at hlt
  | submits task todo hpc =>
    have hwork :=
      (WorkerPool.work_submit (f := some) (g := IntegrityRun.task) s.pool task).length_eq
    unfold SessionState.measure
    rw [hwork, hpc]
    simp only [ManagerPc.stepsLeft, WorkerPool.submit, List.length_append, List.length_singleton,
      Option.toList_some]
    omega
  | prepares task todo hpc =>
    simp [SessionState.measure, ManagerPc.stepsLeft, WorkerPool.prepare, WorkerPool.work, hpc]
  | rejects hpc | starts hpc | dies hpc | visited hpc | sends _ _ hpc | drained hpc
  | finishes hpc => simp [SessionState.measure, ManagerPc.stepsLeft, hpc]

/-- Every event takes one of finitely many steps. -/
theorem sessionStep_measure {event : SessionEvent} (hs : sessionStep cfg s event = some s') :
    s'.measure cfg < s.measure cfg := by
  cases sessionStep_cases hs with
  | manager hmanager => exact managerStep_measure hmanager
  | pops i pool hpop =>
    have hwork := (WorkerPool.work_waitForTaskAndPop (f := some) (g := IntegrityRun.task)
      (fun _ => rfl) hpop).length_eq
    obtain ⟨task, htask, hpool⟩ := WorkerPool.waitForTaskAndPop_some hpop
    have hqueue := WorkerPool.length_eraseIdx_of_getElem? htask
    unfold SessionState.measure
    rw [hwork, hpool]
    simp only [List.length_append, List.length_singleton]
    omega
  | runs j task hj =>
    have hwork := (WorkerPool.work_goOn (f := some) (g := IntegrityRun.task) hj
      .returned).length_eq
    simp only [IntegrityRun.task, Option.toList_some, Option.toList_none, List.length_append,
      List.length_singleton, List.nil_append] at hwork
    unfold SessionState.measure
    simp only [WorkerPool.goOn, List.length_set] at hwork ⊢
    omega
  | finishes j hj =>
    have hwork := (WorkerPool.work_removePending (f := some) (g := IntegrityRun.task) hj
      rfl).length_eq
    have hrunning := WorkerPool.length_eraseIdx_of_getElem? hj
    unfold SessionState.measure
    rw [hwork]
    simp only [WorkerPool.removePending]
    omega

/-- Until the session is done something can happen, if there is a worker and nothing that the
session dies of. -/
theorem SessionInv.progress (hjobabs : isAbsolute cfg.ctx.job.path = true)
    (hjobres : isResolved cfg.ctx.job.path = true) (hvisit : isResolved cfg.visitRoot = true)
    (hlinks : ∀ o ∈ cfg.objects, o.type = .symlink → isAbsolute o.linkTarget = false)
    (h : SessionInv cfg s seen handled pulls) (hnotdone : s.pc ≠ .done)
    (hworkers : 0 < cfg.workers) : ∃ event s', sessionStep cfg s event = some s' := by
  have halive : s.pc ≠ .dead := by
    intro hpc
    have hdemands := h.demands
    rw [hpc] at hdemands
    rcases hdemands with hbad | ⟨o, ho, htype, htarget⟩
    · simp [hvisit] at hbad
    · simp [hlinks o ho htype] at htarget
  have haccepted : s.pc ≠ .rejected := by
    intro hpc
    have hdemands := h.demands
    rw [hpc] at hdemands
    rcases hdemands with hbad | hbad
    · simp [hjobabs] at hbad
    · simp [hjobres] at hbad
  by_cases hmanager : ∃ s', managerStep cfg s = some s'
  · obtain ⟨s', hs'⟩ := hmanager
    exact ⟨.manager, s', by rw [sessionStep, if_neg halive]; exact hs'⟩
  · obtain ⟨pc, total, drawn, readyFiles, pool, stream⟩ := s
    have hwaiting : pc = .waiting ∧ pool.pending ≠ 0 := by
      cases pc with
      | waiting =>
        refine ⟨rfl, fun hpending => hmanager ?_⟩
        simp only [managerStep]
        exact ⟨_, if_pos hpending⟩
      | starting =>
        refine absurd ?_ hmanager
        simp only [managerStep, if_pos hvisit]
        split <;> exact ⟨_, rfl⟩
      | crawling objects => cases objects <;> exact absurd ⟨_, rfl⟩ hmanager
      | done => exact absurd rfl hnotdone
      | rejected => exact absurd rfl haccepted
      | dead => exact absurd rfl halive
      | _ => exact absurd ⟨_, rfl⟩ hmanager
    obtain ⟨rfl, hpending⟩ := hwaiting
    have hcount : 0 < pool.workerCount := by
      have hsame : pool.workerCount = cfg.workers := h.workers
      omega
    rcases h.balanced.busy_or_pop .running hpending hcount with ⟨r, hr⟩ | ⟨pool', hpop⟩
    · cases r with
      | running task => exact ⟨.run 0, _, by simp only [sessionStep, hr]; rfl⟩
      | returned => exact ⟨.finish 0, _, by simp only [sessionStep, hr]; rfl⟩
    · exact ⟨.pop 0, _, by simp only [sessionStep, hpop]; rfl⟩

end Measure

/-! ## Sessions on a file system -/

/-- **The law of the stream** holds of every session, whatever its tree, the paths completed before,
the number of its workers and its schedule: so far at every time, and as a whole once it is done.
With a worker at all, every schedule brings the session there. -/
theorem session_streamLaw (fs : FileSystem) {ctx : CrawlContext} {root : Bytes}
    (hjobabs : isAbsolute ctx.job.path = true) (hjobres : isResolved ctx.job.path = true)
    (habs : isAbsolute (join root ctx.job.path) = true)
    (hres : isResolved (join root ctx.job.path) = true) (hroot : join root ctx.job.path ≠ [slash])
    (hlinks : ∀ node ∈ fs.tree.nodes [], modeType node.entry.stat.stMode = .lnk →
      isAbsolute (cstr node.entry.target) = false)
    {fuel : Nat} (hfuel : fs.tree.dirCount ≤ fuel)
    (hfew : (found fs.kernel fuel (join root ctx.job.path)).1.length < 2 ^ 31)
    (integrity : Bytes → IntegrityCalls) (workers : Nat) (readyFiles : ReadyFilesMap) :
    let cfg : SessionConfig := .onFileSystem fs fuel ctx root integrity workers
    (∀ schedule s, script (sessionStep cfg) (.start cfg readyFiles) schedule = some s →
      StreamSoFar cfg s) ∧
    (0 < workers → Inevitably (sessionStep cfg) (fun s => s.pc = .done ∧ StreamLaw cfg s.stream)
      (.start cfg readyFiles)) := by
  intro cfg
  obtain ⟨l, hvisit⟩ := exists_location habs hres hroot
  have hobjects : cfg.objects = (found fs.kernel fuel l.path).1 :=
    congrArg (fun path => (found fs.kernel fuel path).1) hvisit.symm
  have horderly : Orderly cfg.objects := hobjects ▸ found_orderly hfuel
  have hsafe : ∀ o ∈ cfg.objects, o.type = .symlink → isAbsolute o.linkTarget = false :=
    hobjects ▸ fun o ho => found_links hfuel hlinks ho
  have hunskipped : cfg.unskipped.length < 2 ^ 31 :=
    Nat.lt_of_le_of_lt (List.length_filter_le _ _) hfew
  let Inv : SessionState → Prop := fun s => ∃ seen handled pulls, SessionInv cfg s seen handled pulls
  have hinit : Inv (.start cfg readyFiles) := ⟨[], [], [], .start cfg readyFiles⟩
  have hstep : ∀ s event s', Inv s → sessionStep cfg s event = some s' → Inv s' := by
    rintro s event s' ⟨seen, handled, pulls, hinv⟩ hs
    exact hinv.step horderly hs
  constructor
  · intro schedule s hrun
    obtain ⟨seen, handled, pulls, hinv⟩ := script_invariant hstep hinit hrun
    exact hinv.streamSoFar horderly hunskipped hjobabs hjobres
  · intro hworkers
    refine inevitably_of_measure (SessionState.measure cfg) hstep ?_
      (fun s event s' _ hs => sessionStep_measure hs) hinit
    rintro s ⟨seen, handled, pulls, hinv⟩ hnotend
    refine hinv.progress hjobabs hjobres hres hsafe (fun hdone => hnotend ⟨hdone, ?_⟩) hworkers
    exact hinv.streamLaw horderly hunskipped hdone

/-- Integrity tasks that read the five bytes of a file. -/
def helloIntegrity : Bytes → IntegrityCalls :=
  fun _ => ⟨true, [text "hello"], true, fun _ => some (text "digest")⟩

theorem session_streamLaw_oneFile :
    let cfg : SessionConfig := .onFileSystem oneFile 1 srvContext (text "/") helloIntegrity 4
    (∀ schedule s, script (sessionStep cfg) (.start cfg .empty) schedule = some s →
      StreamSoFar cfg s) ∧
    (0 < 4 → Inevitably (sessionStep cfg) (fun s => s.pc = .done ∧ StreamLaw cfg s.stream)
      (.start cfg .empty)) :=
  session_streamLaw oneFile rfl rfl rfl rfl (by decide) (by decide)
    (Nat.le_refl 1) (by decide) helloIntegrity 4 .empty

end Netpull
