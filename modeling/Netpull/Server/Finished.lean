import Netpull.Server.StreamLaw

/-!
# What the end of a session says

`Finished` is the last message, so who has received it has received the whole stream, and everything
up to its total stands for an item of the crawler. A session whose paths are not accepted never
sends it (`Unvisited.step`).
-/

namespace Netpull

variable {cfg : SessionConfig} {s s' : SessionState}

/-! ## What was sent stays sent -/

theorem handleStep_stream (o : FsObject) (todo : List FsObject) :
    (handleStep cfg s o todo).stream = s.stream := by
  unfold handleStep
  split <;> rfl

theorem managerStep_stream (hs : managerStep cfg s = some s') : s.stream <+: s'.stream := by
  cases managerStep_cases hs with
  | handles o todo => rw [handleStep_stream]
  | rejects | starts | dies | sends | finishes => exact List.prefix_append _ _
  | visited | prepares | submits | drained => exact List.prefix_rfl

theorem sessionStep_stream {event : SessionEvent} (hs : sessionStep cfg s event = some s') :
    s.stream <+: s'.stream := by
  cases sessionStep_cases hs with
  | manager hmanager => exact managerStep_stream hmanager
  | runs => exact List.prefix_append _ _
  | pops | finishes => exact List.prefix_rfl

/-! ## What was sent when `Finished` is -/

section Finished

variable {seen : List FsObject} {handled : List Outgoing} {pulls : List PullObject}

/-- `Finished` is the last message of a session that is done. -/
theorem SessionInv.finished_sent (h : SessionInv cfg s seen handled pulls) {total : Int64}
    (hfinished : .finished total ∈ s.stream) : s.pc = .done ∧ total = s.total.toInt64 := by
  rw [h.stream, List.mem_append, List.mem_append] at hfinished
  rcases hfinished with (hmem | hmem) | hmem
  · cases hpc : s.pc <;> simp [hpc, ManagerPc.frame] at hmem
  · obtain ⟨pull, -, hobject⟩ := List.mem_map.1 hmem
    cases hobject
  · cases hpc : s.pc with
    | done =>
      rw [hpc] at hmem
      exact ⟨rfl, PullResponse.finished.inj (List.mem_singleton.1 hmem)⟩
    | _ =>
      rw [hpc] at hmem
      cases hmem

/-- Who has received `Finished` has received everything. -/
theorem SessionInv.received_all (h : SessionInv cfg s seen handled pulls)
    {received : List PullResponse} (harrived : received <+: s.stream) {total : Int64}
    (hfinished : .finished total ∈ received) : received = s.stream := by
  obtain ⟨hdone, -⟩ := h.finished_sent (harrived.subset hfinished)
  have hstream := h.stream
  simp only [hdone, ManagerPc.frame] at hstream
  rw [hstream] at harrived ⊢
  rcases List.prefix_concat_iff.1 harrived with hall | hfew
  · exact hall
  · have hmem := hfew.subset hfinished
    simp at hmem

/-- Every number up to the total is that of an item. -/
theorem SessionInv.numbered (h : SessionInv cfg s seen handled pulls) {n : Int} (hn : 1 ≤ n)
    (hn' : n ≤ s.total.toInt64.toInt) : ∃ out ∈ handled, out.pull.number.toInt = n := by
  have hlt := Int32.toInt_lt s.total
  have hle : s.total.toInt ≤ handled.length := by
    rw [h.total, Int32.toInt_ofNat', Int.bmod_def, Int32.size]
    split <;> omega
  rw [Int32.toInt_toInt64] at hn'
  obtain ⟨k, rfl⟩ := Int.eq_ofNat_of_zero_le (by omega : 0 ≤ n)
  have hmem : itemNumber k ∈ handled.map (·.pull.number) := by
    rw [h.numbers]
    exact List.mem_map_of_mem (List.mem_range'_1.2 (by omega))
  obtain ⟨out, hout, hnumber⟩ := List.mem_map.1 hmem
  exact ⟨out, hout, by rw [hnumber, toInt_itemNumber (by omega)]⟩

/-- If no task fails, something is sent for every item. -/
theorem SessionInv.sent_all (h : SessionInv cfg s seen handled pulls) (hdone : s.pc = .done)
    (hdigests : ∀ o ∈ cfg.unskipped, o.type = .file → (cfg.digest o.path).isSome)
    {o : FsObject} {out : Outgoing} (ho : o ∈ cfg.unskipped) (hannounces : Announces o out)
    (hout : out ∈ handled) : ∃ pull ∈ pulls, out.message cfg.digest = some pull := by
  have hmessage : (out.message cfg.digest).isSome := by
    cases out with
    | send pull => rfl
    | submit id ready pull =>
      obtain ⟨hfile, hpath, -⟩ := hannounces.submits id ready pull rfl
      rw [Outgoing.message, IntegrityTask.message, Option.isSome_map, hpath]
      exact hdigests o ho hfile
  obtain ⟨pull, hpull⟩ := Option.isSome_iff_exists.1 hmessage
  refine ⟨pull, (h.announced_all hdone).2.mem_iff.1 ?_, hpull⟩
  exact List.mem_filterMap.2 ⟨out, hout, hpull⟩

end Finished

/-! ## Sessions that do not come to their visit -/

/-- The manager has not come to its visit. -/
structure Unvisited (s : SessionState) : Prop where
  pc : s.pc = .starting ∨ s.pc = .rejected ∨ s.pc = .dead
  queue : s.pool.queue = []
  running : s.pool.running = []
  objects : objectsOf s.stream = []
  unfinished : ∀ total, .finished total ∉ s.stream
  brief : s.stream.length ≤ 1
  unsent : s.pc = .starting → s.stream = []

/-- What the manager demands of the paths before it visits the directory of the job. -/
def SessionConfig.accepts (cfg : SessionConfig) : Bool :=
  isAbsolute cfg.ctx.job.path && isResolved cfg.ctx.job.path && isResolved cfg.visitRoot

theorem Unvisited.start (readyFiles : ReadyFilesMap) : Unvisited (.start cfg readyFiles) where
  pc := .inl rfl
  queue := rfl
  running := rfl
  objects := rfl
  unfinished := fun _ => List.not_mem_nil
  brief := Nat.zero_le 1
  unsent _ := rfl

theorem Unvisited.send (h : Unvisited s) (hstarting : s.pc = .starting) {pc : ManagerPc}
    (hpc : pc = .rejected ∨ pc = .dead)
    {resp : PullResponse} (hobject : objectsOf [resp] = [])
    (hfinished : ∀ total, resp ≠ .finished total) :
    Unvisited { s with pc, stream := s.stream ++ [resp] } where
  pc := .inr hpc
  queue := h.queue
  running := h.running
  objects := by rw [objectsOf_append, h.objects, hobject, List.append_nil]
  unfinished total hmem := by
    rcases List.mem_append.1 hmem with hmem | hmem
    · exact h.unfinished total hmem
    · exact hfinished total (List.mem_singleton.1 hmem).symm
  brief := by rw [h.unsent hstarting]; exact Nat.le_refl 1
  unsent := by rintro rfl; simp at hpc

/-- Without good paths the manager never comes to its visit. -/
theorem Unvisited.step (hbad : cfg.accepts = false) (h : Unvisited s) {event : SessionEvent}
    (hs : sessionStep cfg s event = some s') : Unvisited s' := by
  cases sessionStep_cases hs with
  | manager hmanager =>
    cases managerStep_cases hmanager with
    | rejects hpc => exact h.send hpc (.inl rfl) rfl (fun _ => PullResponse.noConfusion)
    | starts _ habsolute hresolved hvisit =>
      rw [SessionConfig.accepts, habsolute, hresolved, hvisit] at hbad
      cases hbad
    | dies hpc => exact h.send hpc (.inr rfl) rfl (fun _ => PullResponse.noConfusion)
    | visited hpc | handles _ _ hpc | sends _ _ hpc | prepares _ _ hpc | submits _ _ hpc
    | drained hpc | finishes hpc => exact absurd (hpc ▸ h.pc) (by simp)
  | pops i pool hpop => simp [WorkerPool.waitForTaskAndPop, h.queue] at hpop
  | runs j task hj => simp [h.running] at hj
  | finishes j hj => simp [h.running] at hj

/-- A session that comes to its visit finds its objects in order. -/
theorem orderly_of_accepts (fs : FileSystem) {ctx : CrawlContext} {root : Bytes}
    (habs : isAbsolute root = true) (hres : isResolved root = true) {fuel : Nat}
    (hfuel : fs.tree.dirCount ≤ fuel) {integrity : Bytes → IntegrityCalls} {workers : Nat}
    (haccepts : (SessionConfig.onFileSystem fs fuel ctx root integrity workers).accepts = true) :
    Orderly (SessionConfig.onFileSystem fs fuel ctx root integrity workers).objects := by
  rw [SessionConfig.accepts, Bool.and_eq_true, Bool.and_eq_true] at haccepts
  obtain ⟨⟨hjobabs, hjobres⟩, hvisit⟩ := haccepts
  have hvisit : isResolved (join root ctx.job.path) = true := hvisit
  rcases join_cases habs hres hjobabs hjobres with hnil | ⟨l, hl⟩
  · have hnil : join root ctx.job.path = [] := hnil
    rw [hnil] at hvisit
    cases hvisit
  · have horderly : Orderly (found fs.kernel fuel l.path).1 := found_orderly hfuel
    rwa [hl] at horderly

end Netpull
