import Netpull.Server.Finished

/-!
# Sessions, whether accepted or not

What holds of every session: it sends one message at a time, and names no job but its own. A session
that does not accept the path of its job never comes to its visit (`Serves`).
-/

namespace Netpull

variable {cfg : SessionConfig} {s s' : SessionState}

/-! ## One message at a time -/

/-- The job that a message starts is that of the session. -/
def Names (id : Bytes) (resp : PullResponse) : Prop :=
  resp ≠ .unset ∧ ∀ job, resp = .started job → job = id

theorem Names.object (id : Bytes) (pull : PullObject) : Names id (.object pull) :=
  ⟨PullResponse.noConfusion, fun _ => PullResponse.noConfusion⟩

/-- An event sends one message at most. -/
structure Sends (cfg : SessionConfig) (s s' : SessionState) (new : List PullResponse) : Prop where
  stream : s'.stream = s.stream ++ new
  few : new.length ≤ 1
  names : ∀ resp ∈ new, Names cfg.ctx.job.id resp

theorem Sends.nothing (h : s'.stream = s.stream) : Sends cfg s s' [] :=
  ⟨by rw [h, List.append_nil], Nat.zero_le 1, by rintro resp ⟨⟩⟩

theorem Sends.one {resp : PullResponse} (h : s'.stream = s.stream ++ [resp])
    (hresp : Names cfg.ctx.job.id resp) : Sends cfg s s' [resp] :=
  ⟨h, Nat.le_refl 1, fun _ hmem => List.mem_singleton.1 hmem ▸ hresp⟩

theorem managerStep_sends (hs : managerStep cfg s = some s') : ∃ new, Sends cfg s s' new := by
  cases managerStep_cases hs with
  | handles o todo => exact ⟨[], .nothing (handleStep_stream o todo)⟩
  | visited | prepares | submits | drained => exact ⟨[], .nothing rfl⟩
  | starts | dies => exact ⟨_, .one rfl ⟨PullResponse.noConfusion, by rintro job ⟨⟩; rfl⟩⟩
  | sends pull => exact ⟨_, .one rfl (.object _ pull)⟩
  | rejects | finishes =>
    exact ⟨_, .one rfl ⟨PullResponse.noConfusion, fun _ => PullResponse.noConfusion⟩⟩

theorem sessionStep_sends {event : SessionEvent} (hs : sessionStep cfg s event = some s') :
    ∃ new, Sends cfg s s' new := by
  cases sessionStep_cases hs with
  | manager hmanager => exact managerStep_sends hmanager
  | pops | finishes => exact ⟨[], .nothing rfl⟩
  | runs j task =>
    cases hmessage : task.message cfg.digest with
    | none => exact ⟨[], .nothing (by rw [Option.toList_none, List.map_nil, List.append_nil])⟩
    | some pull => exact ⟨[.object pull], .one rfl (.object _ pull)⟩

/-- No message names another job. -/
theorem sessionStep_names {event : SessionEvent} (h : ∀ resp ∈ s.stream, Names cfg.ctx.job.id resp)
    (hs : sessionStep cfg s event = some s') : ∀ resp ∈ s'.stream, Names cfg.ctx.job.id resp := by
  obtain ⟨new, hsends⟩ := sessionStep_sends hs
  intro resp hresp
  rw [hsends.stream] at hresp
  rcases List.mem_append.1 hresp with hold | hnew
  · exact h resp hold
  · exact hsends.names resp hnew

theorem jobsOf_objects (pulls : List PullObject) : jobsOf (pulls.map .object) = [] := by
  rw [jobsOf, List.filterMap_map]
  exact List.filterMap_eq_nil_iff.2 fun _ _ => rfl

/-- A session starts its job once at most. -/
theorem SessionInv.startsOnce {seen : List FsObject} {handled : List Outgoing}
    {pulls : List PullObject} (h : SessionInv cfg s seen handled pulls) :
    (jobsOf s.stream).length ≤ 1 := by
  rw [h.stream, jobsOf_append, jobsOf_append, jobsOf_objects, List.append_nil]
  cases s.pc <;> simp [ManagerPc.frame, jobsOf, PullResponse.job, List.filterMap_cons]

theorem Unvisited.startsOnce (h : Unvisited s) : (jobsOf s.stream).length ≤ 1 :=
  Nat.le_trans (List.length_filterMap_le _ _) h.brief

/-! ## Accepted and refused -/

/-- A session that visits the directory of its job, or one that never does. -/
inductive Serves (cfg : SessionConfig) (s : SessionState) : Prop
  | visits (accepts : cfg.accepts = true) (seen : List FsObject) (handled : List Outgoing)
      (pulls : List PullObject) (inv : SessionInv cfg s seen handled pulls)
  | refuses (refused : cfg.accepts = false) (inv : Unvisited s)

/-- What holds of the objects of a session that is accepted. -/
structure Servable (cfg : SessionConfig) : Prop where
  orderly : cfg.accepts = true → Orderly cfg.objects
  relative : cfg.accepts = true → ∀ o ∈ cfg.objects, startsWith o.relativePath [slash] = false

theorem Serves.start (cfg : SessionConfig) (readyFiles : ReadyFilesMap) :
    Serves cfg (.start cfg readyFiles) := by
  cases haccepts : cfg.accepts with
  | true => exact .visits haccepts [] [] [] (.start cfg readyFiles)
  | false => exact .refuses haccepts (.start readyFiles)

theorem Serves.step (hcfg : Servable cfg) (h : Serves cfg s) {event : SessionEvent}
    (hs : sessionStep cfg s event = some s') : Serves cfg s' := by
  cases h with
  | visits haccepts seen handled pulls hinv =>
    obtain ⟨seen', handled', pulls', hinv'⟩ := hinv.step (hcfg.orderly haccepts) hs
    exact .visits haccepts seen' handled' pulls' hinv'
  | refuses hrefused hinv => exact .refuses hrefused (hinv.step hrefused hs)

theorem Serves.distinct (hcfg : Servable cfg) (h : Serves cfg s) :
    ((objectsOf s.stream).map (·.path)).Nodup := by
  cases h with
  | visits haccepts seen handled pulls hinv =>
    rw [hinv.objectsOf_stream]
    exact hinv.distinctPaths (hcfg.orderly haccepts)
  | refuses _ hinv =>
    rw [hinv.objects]
    exact .nil

/-- The paths of the objects that are sent are C strings. -/
theorem Serves.no_nul (hcfg : Servable cfg) (h : Serves cfg s) :
    ∀ pull ∈ objectsOf s.stream, 0 ∉ pull.path := by
  intro pull hpull
  cases h with
  | visits haccepts seen handled pulls hinv =>
    rw [hinv.objectsOf_stream] at hpull
    obtain ⟨out, hout, hmessage⟩ := hinv.sent_handled hpull
    obtain ⟨o, ho, hannounces⟩ := hinv.object_of hout
    rw [(Outgoing.message_some hmessage).1, hannounces.path]
    exact (hcfg.orderly haccepts).no_nul o (hinv.seen_prefix.subset (List.mem_filter.1 ho).1)
  | refuses _ hinv =>
    rw [hinv.objects] at hpull
    cases hpull

/-- The session of a file system is servable. -/
theorem servable_onFileSystem (fs : FileSystem) (ctx : CrawlContext) {root : Bytes}
    (habs : isAbsolute root = true) (hres : isResolved root = true) {fuel : Nat}
    (hfuel : fs.tree.dirCount ≤ fuel) (integrity : Bytes → IntegrityCalls) (workers : Nat) :
    Servable (.onFileSystem fs fuel ctx root integrity workers) where
  orderly := orderly_of_accepts fs habs hres hfuel
  relative := by
    intro haccepts o ho
    rw [SessionConfig.accepts, Bool.and_eq_true, Bool.and_eq_true] at haccepts
    obtain ⟨⟨hjobabs, hjobres⟩, hvisit⟩ := haccepts
    have hvisit : isResolved (join root ctx.job.path) = true := hvisit
    have ho : o ∈ (found fs.kernel fuel (join root ctx.job.path)).1 := ho
    rcases join_cases habs hres hjobabs hjobres with hnil | ⟨l, hl⟩
    · have hnil : join root ctx.job.path = [] := hnil
      rw [hnil] at hvisit
      cases hvisit
    · have hl : l.path = join root ctx.job.path := hl
      rw [← hl] at ho
      obtain ⟨node, hnode, -, hobj⟩ := (FileSystem.mem_found_iff hfuel).1 ho
      rw [objectOf_relativePath hobj]
      exact (FileSystem.object_paths hnode hobj).2.2.2

end Netpull
