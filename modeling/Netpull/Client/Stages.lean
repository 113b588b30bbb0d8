import Netpull.Client.Success

/-!
# Stages of an object

An object is listed before it is created, and its path erased only when it is settled
(`clientStep_listed`, `settled_of_erasing`). Until a file is streamed it is `early`: in the hands of
one thread, that has not checked it yet (`path_ne_of_early`, `path_ne_of_early_main`).
-/

namespace Netpull

open scoped List

namespace ClientState

variable {cfg : ClientConfig} {s s' : ClientState} {path : Bytes}

theorem handleResponse_keeps (s : ClientState) (resp : PullResponse) :
    (handleResponse s resp).toComplete = s.toComplete ∧
      (handleResponse s resp).deeds = s.deeds := by
  cases resp with
  | unset | finished total | error message => exact ⟨rfl, rfl⟩
  | started job =>
    rw [handleResponse_started]
    exact ⟨rfl, rfl⟩
  | object pull =>
    rw [handleResponse_object]
    exact ⟨rfl, rfl⟩

/-! ## What is listed -/

theorem clientMainStep_listed (hs : clientMainStep cfg s = some s') (h : path ∈ s.toComplete) :
    path ∈ s'.toComplete ∨ ∃ pull, pull.path = path ∧ s.pc = .erasing pull := by
  cases clientMainStep_cases hs with
  | erases pull hpc =>
    by_cases hpath : path = pull.path
    · exact .inr ⟨pull, hpath.symm, hpc⟩
    · exact .inl (GuardedSet.mem_erase.2 ⟨hpath, h⟩)
  | inserts pull => exact .inl (GuardedSet.mem_insert.2 (.inr h))
  | asserts | createsFile | createsEntry | notCreated | prepares | submits | settles | notSettled
  | reports => exact .inl h

theorem clientRunStep_listed {j : Nat} {r : ClientRun} (h : path ∈ s.toComplete) :
    path ∈ (clientRunStep cfg s j r).toComplete ∨ ∃ pull, pull.path = path ∧ r = .erasing pull := by
  cases r with
  | erasing pull =>
    by_cases hpath : path = pull.path
    · exact .inr ⟨pull, hpath.symm, rfl⟩
    · exact .inl (GuardedSet.mem_erase.2 ⟨hpath, h⟩)
  | streaming pull | checking pull | settling pull =>
    left
    simp only [clientRunStep]
    split <;> exact h
  | preparing pull | submitting pull | returned => exact .inl h

/-- A path leaves the list only if a thread erases it. -/
theorem clientStep_listed {event : ClientEvent} (hs : clientStep cfg s event = some s')
    (h : path ∈ s.toComplete) : path ∈ s'.toComplete ∨ ∃ pull, pull.path = path ∧
      (s.pc = .erasing pull ∨ ∃ j : Nat, s.pool.running[j]? = some (.erasing pull)) := by
  cases clientStep_cases hs with
  | receives resp => exact .inl ((handleResponse_keeps s resp).1 ▸ h)
  | loses | pops | overruns => exact .inl h
  | main hmain =>
    refine (clientMainStep_listed hmain h).imp_right ?_
    rintro ⟨pull, hpath, hpc⟩
    exact ⟨pull, hpath, .inl hpc⟩
  | runs j r hj =>
    refine (clientRunStep_listed h).imp_right ?_
    rintro ⟨pull, hpath, rfl⟩
    exact ⟨pull, hpath, .inr ⟨j, hj⟩⟩

/-- What a thread erases is settled. -/
theorem settled_of_erasing (h : ClientInv cfg s) {pull : PullObject}
    (herasing : s.pc = .erasing pull ∨ ∃ j : Nat, s.pool.running[j]? = some (.erasing pull)) :
    pull ∈ objectsOf s.received ∧ Settled s.deeds pull := by
  rcases herasing with hpc | ⟨j, hj⟩
  · obtain ⟨hpull, hknown⟩ :=
      h.holds_main (by rw [hpc]; rfl : s.pc.known = some (pull, [.created, .settled]))
    have hentry := h.entry pull (by rw [hpc]; rfl)
    refine ⟨hpull, fun deed hdeed => ?_⟩
    rw [deedsFor, hentry] at hdeed
    exact hknown deed hdeed
  · obtain ⟨hpull, hknown⟩ := h.holds_run hj rfl
    exact ⟨hpull, fun deed hdeed => hknown deed (deedsFor_subset pull hdeed)⟩

/-! ## The files that are not streamed yet -/

end ClientState

def ClientPc.early : ClientPc → Option PullObject
  | .inserting pull | .creating pull | .preparing pull | .submitting pull => some pull
  | _ => none

def ClientTask.early : ClientTask → Option PullObject
  | .fileStream pull => some pull
  | .fileIntegrity _ => none

def ClientRun.early : ClientRun → Option PullObject
  | .streaming pull => some pull
  | _ => none

theorem ClientPc.object_of_early {pc : ClientPc} {pull : PullObject} (h : pc.early = some pull) :
    pc.object = some pull := by
  cases pc <;> first | exact h | cases h

theorem ClientTask.object_of_early (task : ClientTask) (pull : PullObject)
    (h : task.early = some pull) : task.object = some pull := by
  cases task with
  | fileStream q => exact h
  | fileIntegrity q => cases h

theorem ClientRun.object_of_early (r : ClientRun) (pull : PullObject) (h : r.early = some pull) :
    r.object = some pull := by
  cases r <;> first | exact h | cases h

namespace ClientState

variable {cfg : ClientConfig} {s s' : ClientState} {pull : PullObject}

def early (s : ClientState) : List PullObject :=
  s.pc.early.toList ++ s.pool.work ClientTask.early ClientRun.early

theorem mem_early : pull ∈ s.early ↔
    s.pc.early = some pull ∨ pull ∈ s.pool.work ClientTask.early ClientRun.early := by
  unfold early
  rw [List.mem_append, Option.mem_toList]

/-- The main thread has let go of its file. -/
theorem early_of_idle (h : pull ∈ s'.early) (hpc : s'.pc.early = none) (hpool : s'.pool = s.pool) :
    pull ∈ s.early := by
  rw [mem_early, hpc, hpool] at h
  exact mem_early.2 (.inr (h.resolve_left (Option.some_ne_none pull).symm))

theorem early_main (hs : clientMainStep cfg s = some s') (h : pull ∈ s'.early) :
    pull ∈ s.early := by
  cases clientMainStep_cases hs with
  | inserts q hpc | prepares q hpc =>
    rw [mem_early] at h ⊢
    rwa [hpc]
  | createsFile q _ hpc =>
    rw [mem_early] at h ⊢
    exact h.imp_left fun hearly => by rwa [hpc]
  | submits q hpc =>
    have hsubmit := WorkerPool.work_submit (f := ClientTask.early) (g := ClientRun.early) s.pool
      (.fileStream q)
    have hwork := hsubmit.mem_iff.1 ((mem_early.1 h).resolve_left (Option.some_ne_none pull).symm)
    rw [mem_early, hpc]
    exact (List.mem_append.1 hwork).imp_left Option.mem_toList.1
  | asserts | createsEntry | notCreated | settles | notSettled | erases | reports =>
    exact early_of_idle h rfl rfl

theorem early_run {j : Nat} {r : ClientRun} (hj : s.pool.running[j]? = some r)
    (h : pull ∈ (clientRunStep cfg s j r).early) : pull ∈ s.early := by
  rw [mem_early] at h ⊢
  rw [clientRunStep_pc] at h
  refine h.imp_right fun hwork => ?_
  -- No worker goes back to a stream.
  have hgoOn := fun r' (hr' : ClientRun.early r' = none) =>
    WorkerPool.mem_work_goOn (f := ClientTask.early) (g := ClientRun.early) (b := pull) hj
      fun q hq => nomatch hr'.symm.trans hq
  cases r with
  | streaming q | settling q =>
    rw [clientRunStep] at hwork
    split at hwork <;> exact hgoOn _ rfl hwork
  | preparing q => exact hgoOn (.submitting q) rfl hwork
  | submitting q =>
    have hsubmit := WorkerPool.work_submit (f := ClientTask.early) (g := ClientRun.early)
      (s.pool.goOn j .returned) (.fileIntegrity q)
    exact hgoOn .returned rfl (hsubmit.mem_iff.1 hwork)
  | checking q =>
    rw [clientRunStep] at hwork
    split at hwork <;> exact hgoOn _ rfl hwork
  | erasing q => exact hgoOn .returned rfl hwork
  | returned => exact (WorkerPool.work_removePending hj rfl).mem_iff.1 hwork

/-- Only a file that was just received has to be streamed anew. -/
theorem early_step {event : ClientEvent} (hs : clientStep cfg s event = some s')
    (h : pull ∈ s'.early) :
    pull ∈ s.early ∨ objectsOf s'.received = objectsOf s.received ++ [pull] := by
  cases clientStep_cases hs with
  | receives resp hpc =>
    cases resp with
    | unset | finished total => exact .inl (early_of_idle h rfl rfl)
    | started job =>
      rw [handleResponse_started] at h
      refine .inl (early_of_idle h ?_ rfl)
      simp only
      split
      · exact congrArg ClientPc.early hpc
      · rfl
    | error message => exact .inl (early_of_idle h (congrArg ClientPc.early hpc) rfl)
    | object q =>
      rw [handleResponse_object, mem_early] at h
      rcases h with hq | hwork
      · split at hq
        · cases hq
        · cases hq
          exact .inr (objectsOf_append _ _)
      · exact .inl (mem_early.2 (.inr hwork))
  | loses | overruns => exact .inl (early_of_idle h rfl rfl)
  | main hmain => exact .inl (early_main hmain h)
  | pops i pool hpop =>
    have hwork := WorkerPool.work_waitForTaskAndPop (f := ClientTask.early)
      (g := ClientRun.early) (by rintro (_ | _) <;> rfl) hpop
    rw [mem_early] at h ⊢
    exact .inl (h.imp_right hwork.mem_iff.1)
  | runs j r hj => exact .inl (early_run hj h)

/-- Another worker is not at a file that is still to be streamed. -/
theorem path_ne_of_early (hexact : s.Exact cfg)
    (hdistinct : ((objectsOf s.received).map (·.path)).Nodup) {j : Nat} {r : ClientRun}
    {q : PullObject} (hj : s.pool.running[j]? = some r) (hobject : r.object = some q)
    (hr : r.early = none) (h : pull ∈ s.early) : pull.path ≠ q.path := by
  have hhands : s.hands ~ q :: (s.pc.object.toList ++
      (s.pool.goOn j .returned).work ClientTask.object ClientRun.object) :=
    ((handed_returned s hj hobject).append_left _).trans List.perm_middle
  have hnodup : (s.hands.map (·.path)).Nodup :=
    ReportingClient.nodup_of_subperm (ReportingClient.map_subperm _ hexact.held) hdistinct
  have hnotin := (List.nodup_cons.1 ((hhands.map (·.path)).nodup_iff.1 hnodup)).1
  intro hpath
  refine hnotin (List.mem_map.2 ⟨pull, ?_, hpath⟩)
  rcases mem_early.1 h with hpc | hwork
  · exact List.mem_append_left _ (Option.mem_toList.2 (ClientPc.object_of_early hpc))
  · refine List.mem_append_right _ (WorkerPool.work_subset ClientTask.object_of_early
      ClientRun.object_of_early ?_)
    have hreturned :=
      WorkerPool.work_goOn (f := ClientTask.early) (g := ClientRun.early) hj .returned
    rw [hr] at hreturned
    exact hreturned.mem_iff.2 hwork

/-- Nor is the main thread, once it has let go of the file. -/
theorem path_ne_of_early_main (hexact : s.Exact cfg)
    (hdistinct : ((objectsOf s.received).map (·.path)).Nodup) {q : PullObject}
    (hobject : s.pc.object = some q) (hpc : s.pc.early = none) (h : pull ∈ s.early) :
    pull.path ≠ q.path := by
  have hnodup : (s.hands.map (·.path)).Nodup :=
    ReportingClient.nodup_of_subperm (ReportingClient.map_subperm _ hexact.held) hdistinct
  rw [hands, hobject] at hnodup
  have hnotin := (List.nodup_cons.1 hnodup).1
  intro hpath
  refine hnotin (List.mem_map.2 ⟨pull, ?_, hpath⟩)
  have hwork := (mem_early.1 h).resolve_left (by rw [hpc]; exact (Option.some_ne_none pull).symm)
  exact WorkerPool.work_subset ClientTask.object_of_early ClientRun.object_of_early hwork

end ClientState

end Netpull
