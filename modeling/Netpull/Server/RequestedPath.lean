import Netpull.Server.Session

/-!
# The path a client asks for

A session either refuses the path of its job with an `Error`, or visits the place below the root
that the path names. `requestedPath_confined_iff` says that one pair of paths does neither: at the
root `/` the path `/` is accepted, joined to nothing, and the visit of nothing fails its assertion.
-/

namespace Netpull

open Separated

/-- The component list of an absolute path, as `IsResolved` looks at it. -/
def componentList (p : Bytes) : List Bytes :=
  if p = [slash] then [] else (p.drop 1).splitOn slash

/-- The session after it has answered with the `Error`. -/
def SessionState.refused (cfg : SessionConfig) (readyFiles : ReadyFilesMap) : SessionState :=
  { SessionState.start cfg readyFiles with
    pc := .rejected, stream := [.error (text "Paths must be absolute.")] }

/-- Nothing has happened in the session but that it may have answered with the `Error`. -/
def NothingCrawled (cfg : SessionConfig) (readyFiles : ReadyFilesMap) (s : SessionState) : Prop :=
  s = .start cfg readyFiles ∨ s = .refused cfg readyFiles

/-- Whatever happens, the session crawls nothing. -/
def Refuses (cfg : SessionConfig) : Prop :=
  ∀ readyFiles events s,
    Transition.script (sessionStep cfg) (.start cfg readyFiles) events = some s →
      NothingCrawled cfg readyFiles s

/-- What is visited lies below the root, at the requested components. -/
structure Confined (root path : Bytes) : Prop where
  absolute : isAbsolute (join root path) = true
  resolved : isResolved (join root path) = true
  components : componentList (join root path) = componentList root ++ componentList path
  proper : ∀ n ∈ componentList (join root path), ProperName n

theorem componentList_path (l : Location) : componentList l.path = l.names := by
  rw [componentList, if_neg l.path_ne_root, List.drop_one, Location.path,
    splitOn_tail_spell l.ne_nil fun n hn => (l.proper n hn).no_slash]

theorem confined_of_path {root path : Bytes} {l : Location} (h : join root path = l.path)
    (hnames : l.names = componentList root ++ componentList path) : Confined root path := by
  refine ⟨?_, ?_, ?_, ?_⟩
  · rw [h, l.isAbsolute_path]
  · rw [h, l.isResolved_path]
  · rw [h, componentList_path, hnames]
  · rw [h, componentList_path]
    exact l.proper

/-- Two absolute and resolved paths, unless both are `/`. -/
theorem confined_of_resolved {root path : Bytes} (hroot : isAbsolute root = true)
    (hroot' : isResolved root = true) (hpath : isAbsolute path = true)
    (hpath' : isResolved path = true) (hne : ¬ (root = [slash] ∧ path = [slash])) :
    Confined root path := by
  by_cases hr : root = [slash]
  · have hp : path ≠ [slash] := fun hp => hne ⟨hr, hp⟩
    obtain ⟨m, rfl⟩ := exists_location hpath hpath' hp
    subst hr
    exact confined_of_path (join_root_left m) (componentList_path m).symm
  · obtain ⟨l, rfl⟩ := exists_location hroot hroot' hr
    by_cases hp : path = [slash]
    · subst hp
      refine confined_of_path (join_root_right l) ?_
      rw [componentList_path]
      exact (List.append_nil l.names).symm
    · obtain ⟨m, rfl⟩ := exists_location hpath hpath' hp
      refine confined_of_path (join_paths l m) ?_
      rw [componentList_path, componentList_path]
      rfl

theorem not_confined_root : ¬ Confined [slash] [slash] := by
  intro h
  have habs := h.absolute
  cases habs

/-- The manager accepts the path of the job. -/
def Accepts (cfg : SessionConfig) : Prop :=
  isAbsolute cfg.ctx.job.path = true ∧ isResolved cfg.ctx.job.path = true

theorem managerStep_refused {cfg : SessionConfig} (h : ¬ Accepts cfg) {s : SessionState}
    (hs : s.pc = .starting) : managerStep cfg s = some { s with
      pc := .rejected, stream := s.stream ++ [.error (text "Paths must be absolute.")] } := by
  rw [managerStep, hs, if_pos]
  rw [Bool.or_eq_true, Bool.not_eq_true', Bool.not_eq_true']
  by_contra hnot
  rw [not_or, Bool.not_eq_false, Bool.not_eq_false] at hnot
  exact h hnot

/-- Workers without a task do nothing. -/
theorem sessionStep_idle {cfg : SessionConfig} {s s' : SessionState} {e : SessionEvent}
    (hqueue : s.pool.queue = []) (hrunning : s.pool.running = [])
    (h : sessionStep cfg s e = some s') : managerStep cfg s = some s' := by
  cases sessionStep_cases h with
  | manager hmanager => exact hmanager
  | pops i pool hpop => simp [WorkerPool.waitForTaskAndPop, hqueue] at hpop
  | runs j task hj => simp [hrunning] at hj
  | finishes j hj => simp [hrunning] at hj

theorem refuses_of_not_accepts {cfg : SessionConfig} (h : ¬ Accepts cfg) : Refuses cfg := by
  intro readyFiles events s hrun
  have hstep : ∀ s e s', NothingCrawled cfg readyFiles s → sessionStep cfg s e = some s' →
      NothingCrawled cfg readyFiles s' := by
    rintro s e s' (rfl | rfl) hstep
    · have hmanager := sessionStep_idle rfl rfl hstep
      rw [managerStep_refused h rfl] at hmanager
      exact Or.inr (Option.some.inj hmanager).symm
    · have hmanager := sessionStep_idle rfl rfl hstep
      cases hmanager
  exact Transition.script_invariant hstep (Or.inl rfl) hrun

/-- A session that accepts its path sends `Started`. -/
theorem not_refuses_of_accepts {cfg : SessionConfig} (h : Accepts cfg) : ¬ Refuses cfg := by
  intro hrefuses
  have hstarted : ∃ s, sessionStep cfg (.start cfg .empty) .manager = some s ∧
      s.stream = [.started cfg.ctx.job.id] := by
    have haccept : (!isAbsolute cfg.ctx.job.path || !isResolved cfg.ctx.job.path) = false := by
      rw [h.1, h.2]
      rfl
    have hnotdead : ¬ (SessionState.start cfg .empty).pc = .dead := by
      intro hdead
      cases hdead
    rw [sessionStep, if_neg hnotdead]
    simp only [managerStep, SessionState.start, haccept, Bool.false_eq_true, if_false]
    split <;> exact ⟨_, rfl, rfl⟩
  obtain ⟨s, hs, hstream⟩ := hstarted
  have hrun : Transition.script (sessionStep cfg) (.start cfg .empty) [.manager] = some s := by
    rw [Transition.script, hs]
    rfl
  rcases hrefuses .empty [.manager] s hrun with rfl | rfl
  · cases hstream
  · cases hstream

/-- **Requested paths are confined, or refused**, if and only if it is not the whole of the root `/`
that is asked for. -/
theorem requestedPath_confined_iff (cfg : SessionConfig) (hroot : isAbsolute cfg.root = true)
    (hroot' : isResolved cfg.root = true) :
    Refuses cfg ∨ Confined cfg.root cfg.ctx.job.path ↔
      ¬ (cfg.root = [slash] ∧ cfg.ctx.job.path = [slash]) := by
  constructor
  · rintro (hrefuses | hconfined) ⟨hr, hp⟩
    · refine not_refuses_of_accepts ?_ hrefuses
      rw [Accepts, hp]
      exact ⟨rfl, rfl⟩
    · rw [hr, hp] at hconfined
      exact not_confined_root hconfined
  · intro hne
    by_cases haccepts : Accepts cfg
    · exact Or.inr (confined_of_resolved hroot hroot' haccepts.1 haccepts.2 hne)
    · exact Or.inl (refuses_of_not_accepts haccepts)

/-- A session for the place `path` of the server of `root`. -/
def requestFor (root path : Bytes) : SessionConfig where
  ctx :=
    { users := ⟨fun _ => none, fun _ => none⟩
      job := { id := text "0", path, log := [], completedPaths := .empty }
      peer := ⟨127, 0, 0, 1⟩
      secureRandomId := fun _ => [] }
  root := root
  objects := []
  integrity := fun _ => ⟨true, [], true, fun _ => none⟩
  workers := 1

/-- Asked for `/`, the server of `/` says that it has started and dies. -/
theorem wholeRoot_dies :
    (∀ readyFiles,
        Transition.script (sessionStep (requestFor [slash] [slash]))
            (.start (requestFor [slash] [slash]) readyFiles) [.manager] =
          some { SessionState.start (requestFor [slash] [slash]) readyFiles with
            pc := .dead, stream := [.started (text "0")] }) ∧
      ¬ (Refuses (requestFor [slash] [slash]) ∨ Confined [slash] [slash]) := by
  refine ⟨fun readyFiles => rfl, ?_⟩
  rintro (hrefuses | hconfined)
  · exact not_refuses_of_accepts ⟨rfl, rfl⟩ hrefuses
  · exact not_confined_root hconfined

/-- The server of `/srv` visits `/srv/a/b` for the request `/a/b`. -/
theorem requestedPath_confined_srv :
    Refuses (requestFor (text "/srv") (text "/a/b")) ∨
      Confined (text "/srv") (text "/a/b") := by
  refine (requestedPath_confined_iff (requestFor (text "/srv") (text "/a/b")) rfl rfl).2 ?_
  rintro ⟨h, -⟩
  cases h

end Netpull
