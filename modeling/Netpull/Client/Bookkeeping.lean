import Netpull.Client.PullInvariant

/-!
# The books of the client

What `toComplete` holds when the client comes to its end: exactly the paths of the received objects
for which a step failed (`ClientState.Exact.mem_reported_iff`). `clientStep_moves` says what an event
does to the objects in the hands of the threads; a thread lets go of one only where a step failed or
the path is erased.
-/

namespace Netpull

open scoped List

/-! ## Where a step fails -/

/-- What the client sets out to do for an object. -/
def goalsFor (pull : PullObject) : List Deed :=
  if pull.transfer.isSome then [.created, .streamed, .verified, .settled] else [.created, .settled]

/-- Whether the calls of a step succeed. -/
def ClientConfig.succeeds (cfg : ClientConfig) (pull : PullObject) : Deed → Bool
  | .created => (cfg.calls pull.path).creates
  | .streamed => (cfg.calls pull.path).stream.completes (pull.transfer.getD ⟨[], 0, []⟩).bytes
  | .checked =>
    (cfg.calls pull.path).integrity.verdict (pull.transfer.getD ⟨[], 0, []⟩).sha256 ≠ .failed
  | .verified =>
    (cfg.calls pull.path).integrity.verdict (pull.transfer.getD ⟨[], 0, []⟩).sha256 = .verified
  | .settled => setMetadata (cfg.calls pull.path).metadata pull

/-- A step fails. -/
def ClientConfig.Fails (cfg : ClientConfig) (pull : PullObject) : Prop :=
  ∃ deed ∈ goalsFor pull, cfg.succeeds pull deed = false

/-- A step fails after which the path is not erased: a digest that cannot be computed is none. -/
def ClientConfig.ReturnsEarly (cfg : ClientConfig) (pull : PullObject) : Prop :=
  ∃ deed ∈ deedsFor pull, cfg.succeeds pull deed = false

theorem mem_goalsFor_settled (pull : PullObject) : .settled ∈ goalsFor pull := by
  unfold goalsFor
  split
  · exact .tail _ (.tail _ (.tail _ (.head _)))
  · exact .tail _ (.head _)

theorem mem_goalsFor_file {pull : PullObject} (h : pull.transfer.isSome) :
    .streamed ∈ goalsFor pull ∧ .verified ∈ goalsFor pull := by
  rw [goalsFor, if_pos h]
  exact ⟨.tail _ (.head _), .tail _ (.tail _ (.head _))⟩

theorem ClientConfig.succeeds_of_goal (cfg : ClientConfig) {pull : PullObject} {deed : Deed}
    (h : ¬ cfg.Fails pull) (hdeed : deed ∈ goalsFor pull) : cfg.succeeds pull deed = true := by
  by_contra hfails
  exact h ⟨deed, hdeed, Bool.eq_false_iff.2 hfails⟩

/-- Without a failed check no step fails, if the digests can be computed. -/
theorem ClientConfig.fails_iff {cfg : ClientConfig} {pull : PullObject}
    (hfinish : (cfg.calls pull.path).integrity.finish.isSome) :
    cfg.Fails pull ↔ cfg.ReturnsEarly pull := by
  have hchecked : cfg.succeeds pull .checked = cfg.succeeds pull .verified := by
    have hverdict := (cfg.calls pull.path).integrity.finish_of_verdict
      (pull.transfer.getD ⟨[], 0, []⟩).sha256
    cases h : (cfg.calls pull.path).integrity.verdict (pull.transfer.getD ⟨[], 0, []⟩).sha256 with
    | failed | verified =>
      simp only [succeeds, h]
      rfl
    | unchecked =>
      rw [hverdict.1 h] at hfinish
      cases hfinish
  unfold Fails ReturnsEarly goalsFor deedsFor
  split <;> simp [hchecked]

/-- The digest of a verified file is the announced one. -/
theorem IntegrityCalls.finish_of_verified (calls : IntegrityCalls) (sha256 : Bytes)
    (h : calls.verdict sha256 = .verified) : calls.finish = some sha256 := by
  unfold verdict at h
  split at h
  · cases h
  · split at h
    · cases h
    · split at h
      · next digest hfinish =>
        split at h
        · cases h
        · next hsame => rw [hfinish, not_ne_iff.1 hsame]
      · cases h

/-! ## The objects in hand -/

def ClientPc.object : ClientPc → Option PullObject
  | .inserting pull | .creating pull | .preparing pull | .submitting pull | .settling pull
  | .erasing pull => some pull
  | .reading | .waiting | .reported _ | .failed | .dead => none

def ClientTask.object : ClientTask → Option PullObject
  | .fileStream pull | .fileIntegrity pull => some pull

def ClientRun.object : ClientRun → Option PullObject
  | .streaming pull | .preparing pull | .submitting pull | .checking pull | .settling pull
  | .erasing pull => some pull
  | .returned => none

/-- The files that the main thread hands over to the workers. -/
def ClientPc.file : ClientPc → Option PullObject
  | .preparing pull | .submitting pull => some pull
  | _ => none

def ClientPc.prepared : ClientPc → Option PullObject
  | .submitting pull => some pull
  | _ => none

def ClientRun.prepared : ClientRun → Option PullObject
  | .submitting pull => some pull
  | _ => none

namespace ClientState

/-- The objects the workers have, or will have. -/
def handed (s : ClientState) : List PullObject := s.pool.work ClientTask.object ClientRun.object

/-- The objects the threads are at. -/
def hands (s : ClientState) : List PullObject := s.pc.object.toList ++ s.handed

/-- The files of the tasks. -/
def files (s : ClientState) : List PullObject := s.pc.file.toList ++ s.handed

/-- The tasks on their way to the queue. -/
def prepared (s : ClientState) : List PullObject :=
  s.pc.prepared.toList ++ s.pool.running.filterMap ClientRun.prepared

/-- What an event can do: receive an object, list one, do a step for one, fail in a step, erase the
path of one, or none of it. -/
inductive Moves (cfg : ClientConfig) (s s' : ClientState) : Prop
  | receives (pull : PullObject) (hands : s'.hands ~ pull :: s.hands)
      (objects : objectsOf s'.received = objectsOf s.received ++ [pull])
      (toComplete : s'.toComplete = s.toComplete) (deeds : s'.deeds = s.deeds)
  | inserts (pull : PullObject) (mem : pull ∈ s'.hands) (hands : s'.hands ~ s.hands)
      (objects : objectsOf s'.received = objectsOf s.received)
      (toComplete : s'.toComplete = s.toComplete.insert pull.path) (deeds : s'.deeds = s.deeds)
  | does (pull : PullObject) (new : List Deed) (mem : pull ∈ s'.hands) (hands : s'.hands ~ s.hands)
      (succeeds : ∀ deed ∈ new, cfg.succeeds pull deed = true)
      (objects : objectsOf s'.received = objectsOf s.received)
      (toComplete : s'.toComplete = s.toComplete)
      (deeds : s'.deeds = new.map (·, pull.path) ++ s.deeds)
  | fails (pull : PullObject) (hands : s.hands ~ pull :: s'.hands) (fails : cfg.ReturnsEarly pull)
      (objects : objectsOf s'.received = objectsOf s.received)
      (toComplete : s'.toComplete = s.toComplete) (deeds : s'.deeds = s.deeds)
  | erases (pull : PullObject) (hands : s.hands ~ pull :: s'.hands)
      (objects : objectsOf s'.received = objectsOf s.received)
      (toComplete : s'.toComplete = s.toComplete.erase pull.path) (deeds : s'.deeds = s.deeds)
  | stays (hands : s'.hands ~ s.hands) (objects : objectsOf s'.received = objectsOf s.received)
      (toComplete : s'.toComplete = s.toComplete) (deeds : s'.deeds = s.deeds)
  | dies (pc : s'.pc = .dead) (objects : objectsOf s.received <+: objectsOf s'.received)
      (toComplete : s'.toComplete = s.toComplete) (deeds : s'.deeds = s.deeds)

variable {cfg : ClientConfig} {s s' : ClientState}

/-! ## What an event does -/

theorem clientRunStep_pc (cfg : ClientConfig) (s : ClientState) (j : Nat) (r : ClientRun) :
    (clientRunStep cfg s j r).pc = s.pc := by
  cases r <;> simp only [clientRunStep] <;> split <;> rfl

theorem clientRunStep_received (cfg : ClientConfig) (s : ClientState) (j : Nat) (r : ClientRun) :
    (clientRunStep cfg s j r).received = s.received := by
  cases r <;> simp only [clientRunStep] <;> split <;> rfl

theorem clientRunStep_jobId (cfg : ClientConfig) (s : ClientState) (j : Nat) (r : ClientRun) :
    (clientRunStep cfg s j r).jobId = s.jobId := by
  cases r <;> simp only [clientRunStep] <;> split <;> rfl

theorem clientRunStep_sigint (cfg : ClientConfig) (s : ClientState) (j : Nat) (r : ClientRun) :
    (clientRunStep cfg s j r).sigint = s.sigint := by
  cases r <;> simp only [clientRunStep] <;> split <;> rfl

/-- A worker goes on with its object. -/
theorem handed_goOn (s : ClientState) {j : Nat} {r r' : ClientRun}
    (hj : s.pool.running[j]? = some r) (hobject : r'.object = r.object) :
    (s.pool.goOn j r').work ClientTask.object ClientRun.object ~ s.handed := by
  have hwork := WorkerPool.work_goOn (f := ClientTask.object) (g := ClientRun.object) hj r'
  rw [hobject] at hwork
  exact (List.perm_append_left_iff _).1 hwork

/-- A worker lets go of its object. -/
theorem handed_returned (s : ClientState) {j : Nat} {r : ClientRun} {pull : PullObject}
    (hj : s.pool.running[j]? = some r) (hobject : r.object = some pull) :
    s.handed ~ pull :: (s.pool.goOn j .returned).work ClientTask.object ClientRun.object := by
  have hwork := WorkerPool.work_goOn (f := ClientTask.object) (g := ClientRun.object) hj .returned
  rw [hobject] at hwork
  exact hwork.symm

theorem mem_handed (s : ClientState) {j : Nat} {r : ClientRun} {pull : PullObject}
    (hj : s.pool.running[j]? = some r) (hobject : r.object = some pull) : pull ∈ s.handed :=
  List.mem_append_right _ (List.mem_filterMap.2 ⟨r, List.mem_of_getElem? hj, hobject⟩)

/-- The step of a worker that does something for its object. -/
theorem moves_does {j : Nat} {r r' : ClientRun} {pull : PullObject} (new : List Deed)
    (hj : s.pool.running[j]? = some r) (hr : r.object = some pull) (hr' : r'.object = some pull)
    (hnew : ∀ deed ∈ new, cfg.succeeds pull deed = true) :
    Moves cfg s { s with
      pool := s.pool.goOn j r', deeds := new.map (·, pull.path) ++ s.deeds } := by
  have hhanded := handed_goOn s hj (hr'.trans hr.symm)
  have hmem := hhanded.mem_iff.2 (mem_handed s hj hr)
  exact .does pull new (List.mem_append_right _ hmem) (hhanded.append_left _) hnew rfl rfl rfl

/-- The step of a worker that fails. -/
theorem moves_fails {j : Nat} {r : ClientRun} {pull : PullObject}
    (hj : s.pool.running[j]? = some r) (hr : r.object = some pull)
    (hfails : cfg.ReturnsEarly pull) :
    Moves cfg s { s with pool := s.pool.goOn j .returned } := by
  have hhanded := handed_returned s hj hr
  refine .fails pull ?_ hfails rfl rfl rfl
  exact (hhanded.append_left _).trans List.perm_middle

theorem clientRunStep_moves {j : Nat} {r : ClientRun} (hj : s.pool.running[j]? = some r)
    (hfiles : ∀ pull ∈ s.files, pull.transfer.isSome) : Moves cfg s (clientRunStep cfg s j r) := by
  have hfile : ∀ pull, r.object = some pull → pull.transfer.isSome :=
    fun pull hr => hfiles pull (List.mem_append_right _ (mem_handed s hj hr))
  cases r with
  | streaming pull =>
    rw [clientRunStep]
    split
    · next hcompletes =>
      refine moves_does [.streamed] hj rfl rfl fun deed hdeed => ?_
      obtain rfl := List.mem_singleton.1 hdeed
      exact hcompletes
    · next hcompletes =>
      refine moves_fails hj rfl ⟨.streamed, (mem_deedsFor_file (hfile pull rfl)).1, ?_⟩
      exact Bool.eq_false_iff.2 hcompletes
  | preparing pull =>
    have hhanded : (s.pool.prepare.goOn j (.submitting pull)).work ClientTask.object
        ClientRun.object ~ s.handed := handed_goOn s hj rfl
    exact .stays (hhanded.append_left _) rfl rfl rfl
  | submitting pull =>
    have hreturned := handed_returned s hj rfl
    have hsubmit := WorkerPool.work_submit (f := ClientTask.object) (g := ClientRun.object)
      (s.pool.goOn j .returned) (.fileIntegrity pull)
    exact .stays ((hsubmit.trans hreturned.symm).append_left _) rfl rfl rfl
  | checking pull =>
    rw [clientRunStep]
    split
    · next hverdict =>
      refine moves_fails hj rfl ⟨.checked, (mem_deedsFor_file (hfile pull rfl)).2, ?_⟩
      rw [ClientConfig.succeeds, hverdict]
      rfl
    · next hverdict =>
      refine moves_does [.checked] hj rfl rfl fun deed hdeed => ?_
      obtain rfl := List.mem_singleton.1 hdeed
      rw [ClientConfig.succeeds, hverdict]
      rfl
    · next hverdict =>
      refine moves_does [.verified, .checked] hj rfl rfl fun deed hdeed => ?_
      rcases List.mem_pair.1 hdeed with rfl | rfl
      all_goals
        rw [ClientConfig.succeeds, hverdict]
        rfl
  | settling pull =>
    rw [clientRunStep]
    split
    · next hsettles =>
      refine moves_does [.settled] hj rfl rfl fun deed hdeed => ?_
      obtain rfl := List.mem_singleton.1 hdeed
      exact hsettles
    · next hsettles =>
      refine moves_fails hj rfl ⟨.settled, settled_mem_deedsFor pull, ?_⟩
      exact Bool.eq_false_iff.2 hsettles
  | erasing pull =>
    have hhanded := handed_returned s hj rfl
    exact .erases pull ((hhanded.append_left _).trans List.perm_middle) rfl rfl rfl
  | returned =>
    have hwork := WorkerPool.work_removePending (f := ClientTask.object) (g := ClientRun.object)
      hj rfl
    exact .stays (hwork.append_left _) rfl rfl rfl

theorem clientMainStep_moves (hs : clientMainStep cfg s = some s') : Moves cfg s s' := by
  cases clientMainStep_cases hs with
  | inserts pull hpc =>
    refine .inserts pull (.head _) ?_ rfl rfl rfl
    rw [hands, hands, hpc]
    exact .refl _
  | asserts => exact .dies rfl (List.prefix_refl _) rfl rfl
  | createsFile pull call hpc _ hcreates | createsEntry pull call hpc _ hcreates =>
    refine .does pull [.created] (.head _) ?_ (fun deed hdeed => ?_) rfl rfl rfl
    · rw [hands, hands, hpc]
      exact .refl _
    · obtain rfl := List.mem_singleton.1 hdeed
      exact hcreates
  | notCreated pull call hpc _ hcreates =>
    refine .fails pull ?_ ⟨.created, mem_deedsFor_created pull, hcreates⟩ rfl rfl rfl
    rw [hands, hands, hpc]
    exact .refl _
  | prepares pull hpc =>
    refine .stays ?_ rfl rfl rfl
    rw [hands, hands, hpc]
    exact .refl _
  | submits pull hpc =>
    refine .stays ?_ rfl rfl rfl
    rw [hands, hands, hpc]
    exact WorkerPool.work_submit s.pool (.fileStream pull)
  | settles pull hpc hsettles =>
    refine .does pull [.settled] (.head _) ?_ (fun deed hdeed => ?_) rfl rfl rfl
    · rw [hands, hands, hpc]
      exact .refl _
    · obtain rfl := List.mem_singleton.1 hdeed
      exact hsettles
  | notSettled pull hpc hsettles =>
    refine .fails pull ?_ ⟨.settled, settled_mem_deedsFor pull, hsettles⟩ rfl rfl rfl
    rw [hands, hands, hpc]
    exact .refl _
  | erases pull hpc =>
    refine .erases pull ?_ rfl rfl rfl
    rw [hands, hands, hpc]
    exact .refl _
  | reports hpc =>
    refine .stays ?_ rfl rfl rfl
    rw [hands, hands, hpc]
    exact .refl _

theorem handleResponse_moves (hpc : s.pc = .reading) (resp : PullResponse) :
    Moves cfg s { handleResponse s resp with received := s.received ++ [resp] } := by
  have hsame : ∀ pc jobId sigint totalItems, pc.object = none → objectsOf [resp] = [] →
      Moves cfg s { s with pc, jobId, sigint, totalItems, received := s.received ++ [resp] } := by
    intro pc jobId sigint totalItems hobject hnone
    refine .stays ?_ ?_ rfl rfl
    · rw [hands, hands, hobject, hpc]
      exact .refl _
    · rw [objectsOf_append, hnone, List.append_nil]
  have hdies : ∀ jobId sigint totalItems, Moves cfg s
      { s with pc := .dead, jobId, sigint, totalItems, received := s.received ++ [resp] } := by
    intro jobId sigint totalItems
    refine .dies rfl ?_ rfl rfl
    rw [objectsOf_append]
    exact List.prefix_append _ _
  cases resp with
  | unset => exact hdies s.jobId s.sigint s.totalItems
  | started job =>
    rw [handleResponse_started, hpc]
    split
    · exact hsame .reading job _ s.totalItems rfl rfl
    · exact hdies job _ s.totalItems
  | error message =>
    have hmoves := hsame .reading s.jobId s.sigint s.totalItems rfl rfl
    rwa [← hpc] at hmoves
  | finished total => exact hsame .waiting s.jobId s.sigint s.totalItems rfl rfl
  | object pull =>
    rw [handleResponse_object]
    split
    · exact hdies s.jobId s.sigint _
    · refine .receives pull ?_ (objectsOf_append _ _) rfl rfl
      rw [hands, hands, hpc]
      exact .refl _

/-- **What an event does to the objects.** -/
theorem clientStep_moves {event : ClientEvent} (hfiles : ∀ pull ∈ s.files, pull.transfer.isSome)
    (hs : clientStep cfg s event = some s') : Moves cfg s s' := by
  cases clientStep_cases hs with
  | receives resp hpc => exact handleResponse_moves hpc resp
  | loses hpc =>
    refine .stays ?_ rfl rfl rfl
    rw [hands, hands, hpc]
    exact .refl _
  | main hmain => exact clientMainStep_moves hmain
  | pops i pool hpop =>
    have hwork := WorkerPool.work_waitForTaskAndPop (f := ClientTask.object)
      (g := ClientRun.object) (by rintro (_ | _) <;> rfl) hpop
    exact .stays (hwork.append_left _) rfl rfl rfl
  | runs j r hj => exact clientRunStep_moves hj hfiles
  | overruns => exact .dies rfl (List.prefix_refl _) rfl rfl

/-! ## The files -/

theorem mem_handed_run {j : Nat} {r : ClientRun} (hj : s.pool.running[j]? = some r)
    {pull : PullObject} (h : pull ∈ (clientRunStep cfg s j r).handed) : pull ∈ s.handed := by
  have hgoOn := fun r' (hr' : ∀ q, ClientRun.object r' = some q → r.object = some q) =>
    WorkerPool.mem_work_goOn (f := ClientTask.object) (b := pull) hj hr'
  have hsame := fun r' (hr' : r'.object = r.object) =>
    hgoOn r' (by rw [hr']; exact fun _ hr => hr)
  have hreturned := hgoOn .returned (by rintro _ ⟨⟩)
  cases r with
  | streaming q =>
    rw [clientRunStep] at h
    split at h
    · exact hsame (.preparing q) rfl h
    · exact hreturned h
  | preparing q => exact hsame (.submitting q) rfl h
  | submitting q =>
    have hhanded := handed_returned s hj rfl
    have hsubmit := WorkerPool.work_submit (f := ClientTask.object) (g := ClientRun.object)
      (s.pool.goOn j .returned) (.fileIntegrity q)
    exact (hsubmit.trans hhanded.symm).mem_iff.1 h
  | checking q =>
    rw [clientRunStep] at h
    split at h
    · exact hreturned h
    · exact hsame (.settling q) rfl h
    · exact hsame (.settling q) rfl h
  | settling q =>
    rw [clientRunStep] at h
    split at h
    · exact hsame (.erasing q) rfl h
    · exact hreturned h
  | erasing q => exact hreturned h
  | returned =>
    have hwork := WorkerPool.work_removePending (f := ClientTask.object) (g := ClientRun.object)
      hj rfl
    exact hwork.mem_iff.1 h

/-- The workers only get objects that have a transfer. -/
theorem clientMainStep_files (hs : clientMainStep cfg s = some s')
    (h : ∀ pull ∈ s.files, pull.transfer.isSome) : ∀ pull ∈ s'.files, pull.transfer.isSome := by
  have hhanded : ∀ pull ∈ s.handed, pull.transfer.isSome :=
    fun pull hpull => h pull (List.mem_append_right _ hpull)
  cases clientMainStep_cases hs with
  | createsFile q call hpc _ _ htransfer =>
    intro pull hpull
    rcases List.mem_cons.1 hpull with rfl | hpull
    · exact htransfer
    · exact hhanded pull hpull
  | prepares q hpc => rwa [files, hpc] at h
  | submits q hpc =>
    intro pull hpull
    have hsubmit := WorkerPool.work_submit (f := ClientTask.object) (g := ClientRun.object)
      s.pool (.fileStream q)
    refine h pull ?_
    rw [files, hpc]
    exact hsubmit.mem_iff.1 hpull
  | _ => exact hhanded

theorem clientStep_files {event : ClientEvent} (hs : clientStep cfg s event = some s')
    (h : ∀ pull ∈ s.files, pull.transfer.isSome) : ∀ pull ∈ s'.files, pull.transfer.isSome := by
  have hhanded : ∀ pull ∈ s.handed, pull.transfer.isSome :=
    fun pull hpull => h pull (List.mem_append_right _ hpull)
  cases clientStep_cases hs with
  | receives resp hpc =>
    cases resp with
    | unset | finished total => exact hhanded
    | error message => exact h
    | started job =>
      rw [handleResponse_started]
      split
      · exact h
      · exact hhanded
    | object pull =>
      rw [handleResponse_object]
      split <;> exact hhanded
  | loses | overruns => exact hhanded
  | main hmain => exact clientMainStep_files hmain h
  | pops i pool hpop =>
    have hwork := WorkerPool.work_waitForTaskAndPop (f := ClientTask.object)
      (g := ClientRun.object) (by rintro (_ | _) <;> rfl) hpop
    intro pull hpull
    exact h pull ((hwork.append_left _).mem_iff.1 hpull)
  | runs j r hj =>
    intro pull hpull
    rw [files, clientRunStep_pc] at hpull
    rcases List.mem_append.1 hpull with hpull | hpull
    · exact h pull (List.mem_append_left _ hpull)
    · exact hhanded pull (mem_handed_run hj hpull)

/-! ## The count of the key -/

/-- The key counts the tasks of the client. -/
def Balanced (s : ClientState) : Prop := s.pool.Balanced s.prepared.length

theorem length_prepared_goOn (pool : WorkerPool ClientTask ClientRun) {j : Nat} {r : ClientRun}
    (hj : pool.running[j]? = some r) (r' : ClientRun) :
    r.prepared.toList.length + ((pool.goOn j r').running.filterMap ClientRun.prepared).length =
      r'.prepared.toList.length + (pool.running.filterMap ClientRun.prepared).length := by
  have hset := WorkerPool.filterMap_perm_set (f := ClientRun.prepared) hj r'
  rw [← List.length_append, ← List.length_append]
  exact hset.length_eq

theorem Balanced.run (h : s.Balanced) {j : Nat} {r : ClientRun}
    (hj : s.pool.running[j]? = some r) : (clientRunStep cfg s j r).Balanced := by
  have hlength := length_prepared_goOn s.pool hj
  unfold Balanced prepared at h ⊢
  rw [List.length_append] at h ⊢
  -- A worker that neither prepares nor submits.
  have hgoOn : ∀ r', r.prepared = none → r'.prepared = none → (s.pool.goOn j r').Balanced
      (s.pc.prepared.toList.length +
        ((s.pool.goOn j r').running.filterMap ClientRun.prepared).length) := by
    intro r' hr hr'
    have hsame := hlength r'
    rw [hr, hr', Nat.add_left_cancel_iff] at hsame
    rw [hsame]
    exact h.goOn j r'
  cases r with
  | streaming pull =>
    rw [clientRunStep]
    split <;> exact hgoOn _ rfl rfl
  | preparing pull =>
    have hmore : 0 + _ = 1 + _ := hlength (.submitting pull)
    have hprepare := h.prepare.goOn j (.submitting pull)
    rw [Nat.zero_add, Nat.add_comm] at hmore
    rw [Nat.add_assoc, ← hmore] at hprepare
    exact hprepare
  | submitting pull =>
    have hless : 1 + _ = 0 + _ := hlength .returned
    rw [Nat.zero_add, Nat.add_comm] at hless
    rw [← hless, ← Nat.add_assoc] at h
    exact (h.submit (.fileIntegrity pull)).goOn j .returned
  | checking pull =>
    rw [clientRunStep]
    split <;> exact hgoOn _ rfl rfl
  | settling pull =>
    rw [clientRunStep]
    split <;> exact hgoOn _ rfl rfl
  | erasing pull => exact hgoOn .returned rfl rfl
  | returned =>
    have herase := WorkerPool.filterMap_perm_eraseIdx (f := ClientRun.prepared) hj
    have hremoved := h.removePending hj
    rw [herase.length_eq] at hremoved
    exact hremoved

theorem Balanced.main (h : s.Balanced) (hs : clientMainStep cfg s = some s') : s'.Balanced := by
  unfold Balanced prepared at h ⊢
  rw [List.length_append] at h ⊢
  cases clientMainStep_cases hs with
  | prepares pull hpc =>
    rw [hpc] at h
    have hprepare := h.prepare
    rwa [Nat.add_right_comm] at hprepare
  | submits pull hpc =>
    rw [hpc, show ClientPc.prepared (.submitting pull) = some pull from rfl, Nat.add_comm] at h
    have hsubmit := WorkerPool.Balanced.submit h (.fileStream pull)
    rwa [← Nat.zero_add (s.pool.running.filterMap _).length] at hsubmit
  | inserts pull hpc | asserts pull fault hpc | createsFile pull call hpc
  | createsEntry pull call hpc | notCreated pull call hpc | settles pull hpc
  | notSettled pull hpc | erases pull hpc | reports hpc =>
    rw [hpc] at h
    exact h

/-- Every event keeps it, unless the process dies of it. -/
theorem Balanced.step (h : s.Balanced) {event : ClientEvent}
    (hs : clientStep cfg s event = some s') : s'.pc = .dead ∨ s'.Balanced := by
  cases clientStep_cases hs with
  | receives resp hpc =>
    right
    unfold Balanced prepared at h ⊢
    rw [hpc] at h
    cases resp with
    | unset | finished total => exact h
    | error message =>
      rw [handleResponse, hpc]
      exact h
    | started job =>
      rw [handleResponse_started, hpc]
      split <;> exact h
    | object pull =>
      rw [handleResponse_object]
      split <;> exact h
  | loses hpc =>
    right
    unfold Balanced prepared at h ⊢
    rw [hpc] at h
    exact h
  | main hmain => exact .inr (h.main hmain)
  | pops i pool hpop =>
    have hbalanced := WorkerPool.Balanced.waitForTaskAndPop h hpop
    obtain ⟨task, -, rfl⟩ := WorkerPool.waitForTaskAndPop_some hpop
    have hnone : [task.run].filterMap ClientRun.prepared = [] := by
      cases task <;> rfl
    right
    unfold Balanced prepared
    rw [List.filterMap_append, hnone, List.append_nil]
    exact hbalanced
  | runs j r hj => exact .inr (h.run hj)
  | overruns => exact .inl rfl

/-! ## The books are exact -/

/-- The main thread reports only when nothing is pending. -/
theorem clientMainStep_reported (hs : clientMainStep cfg s = some s') {incomplete : Finset Bytes}
    (hpc' : s'.pc = .reported incomplete) : s.pool.pending = 0 ∧ s'.pool = s.pool := by
  cases clientMainStep_cases hs with
  | reports hpc hpending => exact ⟨hpending, rfl⟩
  | _ => cases hpc'

/-- The client comes to its end when its workers have nothing left. -/
theorem hands_of_reported (h : s.Balanced) {event : ClientEvent}
    (hs : clientStep cfg s event = some s') {incomplete : Finset Bytes}
    (hpc : s'.pc = .reported incomplete) : s'.hands = [] := by
  have hlive : s.pc ≠ .reported incomplete := by
    intro hreported
    have hover := clientStep_live hs
    rw [hreported] at hover
    cases hover
  cases clientStep_cases hs with
  | receives resp =>
    cases resp with
    | unset | finished total => cases hpc
    | error message => exact absurd hpc hlive
    | started job =>
      rw [handleResponse_started] at hpc
      simp only at hpc
      split at hpc
      · exact absurd hpc hlive
      · cases hpc
    | object pull =>
      rw [handleResponse_object] at hpc
      simp only at hpc
      split at hpc <;> cases hpc
  | loses | overruns => cases hpc
  | main hmain =>
    obtain ⟨hpending, hpool⟩ := clientMainStep_reported hmain hpc
    obtain ⟨hqueue, hrunning, -⟩ := WorkerPool.Balanced.idle h hpending
    rw [hands, handed, hpc, hpool, WorkerPool.work, hqueue, hrunning]
    rfl
  | pops i pool => exact absurd hpc hlive
  | runs j r =>
    rw [clientRunStep_pc] at hpc
    exact absurd hpc hlive

/-- What the client does for its objects, and what it lists, agree. -/
structure Exact (cfg : ClientConfig) (s : ClientState) : Prop where
  files : ∀ pull ∈ s.files, pull.transfer.isSome
  balanced : s.Balanced
  held : s.hands <+~ objectsOf s.received
  done : ∀ deed path, (deed, path) ∈ s.deeds →
    ∃ pull ∈ objectsOf s.received, pull.path = path ∧ cfg.succeeds pull deed = true
  /-- A listed object is in someone's hands, or a step failed. -/
  listed : ∀ path ∈ s.toComplete, ∃ pull ∈ objectsOf s.received,
    pull.path = path ∧ (pull ∈ s.hands ∨ cfg.ReturnsEarly pull)
  idle : ∀ incomplete, s.pc = .reported incomplete → s.hands = []

theorem Exact.start (cfg : ClientConfig) : Exact cfg (.start cfg) where
  files := by rintro pull ⟨⟩
  balanced := rfl
  held := List.nil_subperm
  done := by rintro deed path ⟨⟩
  listed := by rintro path ⟨⟩
  idle := by rintro incomplete ⟨⟩

/-- **Every event keeps the books exact**, as long as the client lives. -/
theorem Exact.step (h : Exact cfg s) {event : ClientEvent} (hs : clientStep cfg s event = some s') :
    s'.pc = .dead ∨ Exact cfg s' := by
  have hfiles := clientStep_files hs h.files
  rcases h.balanced.step hs with hdead | hbalanced
  · exact .inl hdead
  have hidle : ∀ incomplete, s'.pc = .reported incomplete → s'.hands = [] :=
    fun _ hpc => hands_of_reported h.balanced hs hpc
  cases clientStep_moves h.files hs with
  | receives pull hands objects toComplete deeds =>
    have hmore : ∀ q ∈ objectsOf s.received, q ∈ objectsOf s'.received := by
      rw [objects]
      exact fun q hq => List.mem_append_left _ hq
    refine .inr ⟨hfiles, hbalanced, ?_, ?_, ?_, hidle⟩
    · rw [objects]
      have hperm := (List.perm_append_singleton pull (objectsOf s.received)).symm
      exact hands.subperm.trans (((List.subperm_cons pull).2 h.held).trans hperm.subperm)
    · rw [deeds]
      intro deed path hdeed
      obtain ⟨q, hq, hpath, hsucceeds⟩ := h.done deed path hdeed
      exact ⟨q, hmore q hq, hpath, hsucceeds⟩
    · rw [toComplete]
      intro path hpath
      obtain ⟨q, hq, hqpath, hstate⟩ := h.listed path hpath
      refine ⟨q, hmore q hq, hqpath, hstate.imp_left fun hq => ?_⟩
      exact hands.mem_iff.2 (List.mem_cons_of_mem _ hq)
  | inserts pull mem hands objects toComplete deeds =>
    have hheld := hands.subperm.trans h.held
    rw [← objects] at hheld
    refine .inr ⟨hfiles, hbalanced, hheld, ?_, ?_, hidle⟩
    · rw [deeds, objects]
      exact h.done
    · rw [toComplete]
      intro path hpath
      rcases GuardedSet.mem_insert.1 hpath with rfl | hpath
      · exact ⟨pull, hheld.subset mem, rfl, .inl mem⟩
      · obtain ⟨q, hq, hqpath, hstate⟩ := h.listed path hpath
        exact ⟨q, objects ▸ hq, hqpath, hstate.imp_left hands.mem_iff.2⟩
  | does pull new mem hands succeeds objects toComplete deeds =>
    have hheld := hands.subperm.trans h.held
    rw [← objects] at hheld
    refine .inr ⟨hfiles, hbalanced, hheld, ?_, ?_, hidle⟩
    · rw [deeds]
      intro deed path hdeed
      rcases List.mem_append.1 hdeed with hdeed | hdeed
      · obtain ⟨d, hd, hnew⟩ := List.mem_map.1 hdeed
        cases hnew
        exact ⟨pull, hheld.subset mem, rfl, succeeds _ hd⟩
      · rw [objects]
        exact h.done deed path hdeed
    · rw [toComplete, objects]
      intro path hpath
      obtain ⟨q, hq, hqpath, hstate⟩ := h.listed path hpath
      exact ⟨q, hq, hqpath, hstate.imp_left hands.mem_iff.2⟩
  | fails pull hands fails objects toComplete deeds =>
    refine .inr ⟨hfiles, hbalanced, ?_, ?_, ?_, hidle⟩
    · rw [objects]
      exact ((List.sublist_cons_self _ _).subperm.trans hands.symm.subperm).trans h.held
    · rw [deeds, objects]
      exact h.done
    · rw [toComplete, objects]
      intro path hpath
      obtain ⟨q, hq, hqpath, hstate⟩ := h.listed path hpath
      refine ⟨q, hq, hqpath, ?_⟩
      rcases hstate with hq | hfails
      · rcases List.mem_cons.1 (hands.mem_iff.1 hq) with rfl | hq
        · exact .inr fails
        · exact .inl hq
      · exact .inr hfails
  | erases pull hands objects toComplete deeds =>
    refine .inr ⟨hfiles, hbalanced, ?_, ?_, ?_, hidle⟩
    · rw [objects]
      exact ((List.sublist_cons_self _ _).subperm.trans hands.symm.subperm).trans h.held
    · rw [deeds, objects]
      exact h.done
    · rw [toComplete, objects]
      intro path hpath
      obtain ⟨hne, hpath⟩ := GuardedSet.mem_erase.1 hpath
      obtain ⟨q, hq, rfl, hstate⟩ := h.listed path hpath
      refine ⟨q, hq, rfl, hstate.imp_left fun hq => ?_⟩
      rcases List.mem_cons.1 (hands.mem_iff.1 hq) with rfl | hq
      · exact absurd rfl hne
      · exact hq
  | stays hands objects toComplete deeds =>
    refine .inr ⟨hfiles, hbalanced, ?_, ?_, ?_, hidle⟩
    · rw [objects]
      exact hands.subperm.trans h.held
    · rw [deeds, objects]
      exact h.done
    · rw [toComplete, objects]
      intro path hpath
      obtain ⟨q, hq, hqpath, hstate⟩ := h.listed path hpath
      exact ⟨q, hq, hqpath, hstate.imp_left hands.mem_iff.2⟩
  | dies pc objects toComplete deeds => exact .inl pc

/-- What is done for an object of which the paths are distinct, succeeds for that object. -/
theorem Exact.succeeds_of_deed (h : Exact cfg s)
    (hdistinct : ((objectsOf s.received).map (·.path)).Nodup) {pull : PullObject}
    (hpull : pull ∈ objectsOf s.received) {deed : Deed} (hdeed : (deed, pull.path) ∈ s.deeds) :
    cfg.succeeds pull deed = true := by
  obtain ⟨q, hq, hpath, hsucceeds⟩ := h.done deed pull.path hdeed
  obtain rfl := List.inj_on_of_nodup_map hdistinct hq hpull hpath
  exact hsucceeds

/-- For a settled object no step failed, if its digest was compared. -/
theorem Exact.not_fails (h : Exact cfg s) (hinv : ClientInv cfg s)
    (hdistinct : ((objectsOf s.received).map (·.path)).Nodup)
    (hfinish : ∀ path, (cfg.calls path).integrity.finish.isSome) {pull : PullObject}
    (hpull : pull ∈ objectsOf s.received) (hsettled : Settled s.deeds pull) : ¬ cfg.Fails pull := by
  rintro ⟨deed, hgoal, hfails⟩
  have hdone : (deed, pull.path) ∈ s.deeds := by
    unfold goalsFor at hgoal
    unfold Settled deedsFor at hsettled
    split at hgoal
    · next hfile =>
      rw [if_pos hfile] at hsettled
      have hchecked := hsettled .checked (.tail _ (.tail _ (.head _)))
      have hverified := hinv.compared.verified_of_checked (hfinish pull.path) hchecked
      cases deed with
      | verified => exact hverified
      | created => exact hsettled _ (.head _)
      | streamed => exact hsettled _ (.tail _ (.head _))
      | settled => exact hsettled _ (.tail _ (.tail _ (.tail _ (.head _))))
      | checked => simp at hgoal
    · next hfile =>
      rw [if_neg hfile] at hsettled
      exact hsettled deed hgoal
  rw [h.succeeds_of_deed hdistinct hpull hdone] at hfails
  cases hfails

/-- For a settled object no step returned early. -/
theorem Exact.not_returnsEarly (h : Exact cfg s)
    (hdistinct : ((objectsOf s.received).map (·.path)).Nodup) {pull : PullObject}
    (hpull : pull ∈ objectsOf s.received) (hsettled : Settled s.deeds pull) :
    ¬ cfg.ReturnsEarly pull := by
  rintro ⟨deed, hdeed, hfails⟩
  rw [h.succeeds_of_deed hdistinct hpull (hsettled deed hdeed)] at hfails
  cases hfails

/-- **What the client reports.** -/
theorem Exact.mem_reported_iff (h : Exact cfg s) (hinv : ClientInv cfg s)
    (hdistinct : ((objectsOf s.received).map (·.path)).Nodup) {incomplete : Finset Bytes}
    (hpc : s.pc = .reported incomplete) (path : Bytes) :
    path ∈ incomplete ↔
      ∃ pull ∈ objectsOf s.received, pull.path = path ∧ cfg.ReturnsEarly pull := by
  rw [hinv.reported incomplete hpc]
  constructor
  · intro hpath
    obtain ⟨pull, hpull, hpath, hstate⟩ := h.listed path hpath
    refine ⟨pull, hpull, hpath, hstate.resolve_left fun hhands => ?_⟩
    rw [h.idle incomplete hpc] at hhands
    cases hhands
  · rintro ⟨pull, hpull, rfl, hfails⟩
    rcases hinv.listed (by simp [hpc]) pull hpull with hmem | hinsert | hsettled
    · exact hmem
    · rw [hpc] at hinsert
      cases hinsert
    · exact absurd hfails (h.not_returnsEarly hdistinct hpull hsettled)

/-- Where the digests can be computed, it reports the objects for which a step failed. -/
theorem Exact.reported_iff (h : Exact cfg s) (hinv : ClientInv cfg s)
    (hdistinct : ((objectsOf s.received).map (·.path)).Nodup)
    (hfinish : ∀ path, (cfg.calls path).integrity.finish.isSome) {incomplete : Finset Bytes}
    (hpc : s.pc = .reported incomplete) (path : Bytes) :
    path ∈ incomplete ↔ ∃ pull ∈ objectsOf s.received, pull.path = path ∧ cfg.Fails pull := by
  simp only [h.mem_reported_iff hinv hdistinct hpc path, ClientConfig.fails_iff (hfinish _)]

end ClientState

end Netpull
