import Netpull.Client.Bookkeeping

/-!
# A client comes to its end

Every event takes one of finitely many steps, of which each message brings some more, and with a
worker the client only ever waits for its connection. What it is sent decides whether it dies: the
messages of a session are such that none of its assertions fails, so nothing but a progress line can
bring it down (`Lives`).
-/

namespace Netpull

/-! ## The steps that are left -/

/-- The steps the main thread has left before it reads, with those of the task it will submit. -/
def ClientPc.stepsLeft : ClientPc → Nat
  | .inserting _ => 15
  | .creating _ => 14
  | .preparing _ => 13
  | .submitting _ => 12
  | .settling _ => 3
  | .erasing _ => 2
  | .reading | .waiting => 1
  | .reported _ | .failed | .dead => 0

def ClientTask.stepsLeft : ClientTask → Nat
  | .fileStream _ => 10
  | .fileIntegrity _ => 5

def ClientRun.stepsLeft : ClientRun → Nat
  | .streaming _ => 9
  | .preparing _ => 8
  | .submitting _ => 7
  | .checking _ => 4
  | .settling _ => 3
  | .erasing _ => 2
  | .returned => 1

/-- A thread takes its next step, without the connection and within its buffers. -/
def ClientEvent.goesOn : ClientEvent → Bool
  | .main | .pop _ | .run _ => true
  | .receive _ | .overrun _ _ => false

namespace ClientState

def measure (s : ClientState) : Nat :=
  s.pc.stepsLeft + s.pool.load ClientTask.stepsLeft ClientRun.stepsLeft

variable {cfg : ClientConfig} {s s' : ClientState}

theorem clientRunStep_measure {j : Nat} {r : ClientRun} (hj : s.pool.running[j]? = some r) :
    (clientRunStep cfg s j r).measure < s.measure := by
  have hgoOn := WorkerPool.load_goOn (f := ClientTask.stepsLeft) (g := ClientRun.stepsLeft) hj
  have hless : ∀ r' deeds, r'.stepsLeft < r.stepsLeft →
      ({ s with pool := s.pool.goOn j r', deeds } : ClientState).measure < s.measure := by
    intro r' deeds hlt
    have hload := hgoOn r'
    simp only [measure]
    omega
  cases r with
  | streaming pull =>
    rw [clientRunStep]
    split <;> exact hless _ _ (by simp [ClientRun.stepsLeft])
  | preparing pull => exact hless (.submitting pull) s.deeds (by simp [ClientRun.stepsLeft])
  | submitting pull =>
    -- The task that is submitted has fewer steps left than the one that submits it.
    have hload := WorkerPool.load_goOn (f := ClientTask.stepsLeft) (g := ClientRun.stepsLeft)
      (p := s.pool.submit (.fileIntegrity pull)) hj .returned
    rw [WorkerPool.load_submit] at hload
    simp only [clientRunStep, measure, ClientTask.stepsLeft, ClientRun.stepsLeft] at hload ⊢
    omega
  | checking pull =>
    rw [clientRunStep]
    split <;> exact hless _ _ (by simp [ClientRun.stepsLeft])
  | settling pull =>
    rw [clientRunStep]
    split <;> exact hless _ _ (by simp [ClientRun.stepsLeft])
  | erasing pull => exact hless .returned s.deeds (by simp [ClientRun.stepsLeft])
  | returned =>
    have hload := WorkerPool.load_removePending (f := ClientTask.stepsLeft)
      (g := ClientRun.stepsLeft) hj
    simp only [clientRunStep, measure, ClientRun.stepsLeft] at hload ⊢
    omega

theorem clientMainStep_measure (hs : clientMainStep cfg s = some s') :
    s'.measure < s.measure := by
  cases clientMainStep_cases hs with
  | submits pull hpc =>
    have hload := WorkerPool.load_submit (f := ClientTask.stepsLeft) (g := ClientRun.stepsLeft)
      s.pool (.fileStream pull)
    simp only [measure, hpc, ClientPc.stepsLeft, ClientTask.stepsLeft] at hload ⊢
    omega
  | inserts _ hpc | asserts _ _ hpc | createsFile _ _ hpc | createsEntry _ _ hpc
  | notCreated _ _ hpc | prepares _ hpc | settles _ hpc | notSettled _ hpc | erases _ hpc
  | reports hpc =>
    simp [measure, hpc, ClientPc.stepsLeft, WorkerPool.load, WorkerPool.prepare]

theorem stepsLeft_of_live (h : s.pc.isOver = false) : 0 < s.pc.stepsLeft := by
  cases hpc : s.pc with
  | reported incomplete | failed | dead =>
    rw [hpc] at h
    cases h
  | _ => exact Nat.succ_pos _

/-- Every event takes one of finitely many steps; a message brings fourteen more at most. -/
theorem clientStep_measure {event : ClientEvent} (hs : clientStep cfg s event = some s') :
    s'.measure + 15 * s.received.length < s.measure + 15 * s'.received.length := by
  cases clientStep_cases hs with
  | receives resp hpc =>
    have hsteps : (handleResponse s resp).pc.stepsLeft ≤ 15 := by
      cases resp with
      | object pull =>
        rw [handleResponse_object]
        simp only
        split <;> simp only [ClientPc.stepsLeft] <;> decide
      | started job =>
        rw [handleResponse_started, hpc]
        simp only
        split <;> decide
      | error message =>
        rw [handleResponse, hpc]
        decide
      | finished total | unset => simp only [handleResponse, ClientPc.stepsLeft]; decide
    have hpool : (handleResponse s resp).pool = s.pool := by
      cases resp with
      | object pull => rw [handleResponse_object]
      | started job => rw [handleResponse_started]
      | _ => rfl
    simp only [measure, hpc, hpool, ClientPc.stepsLeft, List.length_append,
      List.length_singleton] at hsteps ⊢
    omega
  | loses hpc =>
    simp only [measure, hpc, ClientPc.stepsLeft]
    omega
  | main hmain =>
    have hless := clientMainStep_measure hmain
    rw [clientMainStep_received hmain]
    omega
  | pops i pool hpop =>
    obtain ⟨task, hload⟩ := WorkerPool.load_waitForTaskAndPop (f := ClientTask.stepsLeft)
      (g := ClientRun.stepsLeft) hpop
    have htask : task.run.stepsLeft + 1 = task.stepsLeft := by
      cases task <;> rfl
    simp only [measure]
    omega
  | runs j r hj =>
    have hless : (clientRunStep cfg s j r).measure < s.measure := clientRunStep_measure hj
    rw [clientRunStep_received]
    omega
  | overruns =>
    have hlive := stepsLeft_of_live (clientStep_live hs)
    have hdead : ClientPc.dead.stepsLeft = 0 := rfl
    simp only [measure, hdead]
    omega

/-! ## Progress -/

theorem clientStep_workers {event : ClientEvent} (hs : clientStep cfg s event = some s') :
    s'.pool.workerCount = s.pool.workerCount := by
  cases clientStep_cases hs with
  | receives resp =>
    cases resp with
    | object pull => rw [handleResponse_object]
    | started job => rw [handleResponse_started]
    | _ => rfl
  | loses | overruns => rfl
  | main hmain => cases clientMainStep_cases hmain <;> rfl
  | pops i pool hpop =>
    obtain ⟨task, -, rfl⟩ := WorkerPool.waitForTaskAndPop_some hpop
    rfl
  | runs j r hj =>
    cases r with
    | streaming | checking | settling => rw [clientRunStep]; split <;> rfl
    | preparing | submitting | erasing | returned => rfl

/-- With a worker, a client that does not read from its connection can go on. -/
theorem progress (cfg : ClientConfig) (h : s.Balanced) (hlive : s.pc.isOver = false)
    (hworkers : 0 < s.pool.workerCount) (hpc : s.pc ≠ .reading) :
    ∃ event s', event.goesOn = true ∧ clientStep cfg s event = some s' := by
  have hmain : ∀ s', clientMainStep cfg s = some s' → ∃ event s',
      event.goesOn = true ∧ clientStep cfg s event = some s' := by
    intro s' hs'
    refine ⟨.main, s', rfl, ?_⟩
    rw [clientStep, hlive]
    exact hs'
  have hrun : ∀ r, s.pool.running[0]? = some r → ∃ event s',
      event.goesOn = true ∧ clientStep cfg s event = some s' := by
    intro r hr
    refine ⟨.run 0, clientRunStep cfg s 0 r, rfl, ?_⟩
    simp [clientStep, hlive, hr]
  cases hwhere : s.pc with
  | reading => exact absurd hwhere hpc
  | reported incomplete | failed | dead => simp [hwhere, ClientPc.isOver] at hlive
  | waiting =>
    by_cases hpending : s.pool.pending = 0
    · exact hmain _ (by simp only [clientMainStep, hwhere]; exact if_pos hpending)
    · cases hrunning : s.pool.running with
      | cons r running => exact hrun r (by rw [hrunning]; rfl)
      | nil =>
        have hbalanced : s.pool.Balanced 0 := by
          unfold Balanced prepared at h
          rwa [hwhere, hrunning] at h
        rcases hbalanced.busy_or_pop ClientTask.run hpending hworkers with ⟨r, hr⟩ | ⟨pool, hpop⟩
        · exact hrun r hr
        · refine ⟨.pop 0, { s with pool }, rfl, ?_⟩
          simp [clientStep, hlive, hpop]
  | creating pull =>
    cases hcall : createCall cfg.dest pull with
    | error fault => exact hmain _ (by simp only [clientMainStep, hwhere, hcall]; rfl)
    | ok call =>
      by_cases hcreates : (cfg.calls pull.path).creates = true
      · exact hmain _ (by simp only [clientMainStep, hwhere, hcall]; exact if_pos hcreates)
      · exact hmain _ (by simp only [clientMainStep, hwhere, hcall]; exact if_neg hcreates)
  | settling pull =>
    by_cases hsettles : setMetadata (cfg.calls pull.path).metadata pull = true
    · exact hmain _ (by simp only [clientMainStep, hwhere]; exact if_pos hsettles)
    · exact hmain _ (by simp only [clientMainStep, hwhere]; exact if_neg hsettles)
  | inserting pull | preparing pull | submitting pull | erasing pull =>
    exact hmain _ (by simp only [clientMainStep, hwhere]; rfl)

end ClientState

theorem clientStep_receives (cfg : ClientConfig) {s : ClientState} (hpc : s.pc = .reading)
    (resp : Option PullResponse) : ∃ s', clientStep cfg s (.receive resp) = some s' := by
  have hlive : s.pc.isOver = false := by
    rw [hpc]
    rfl
  cases resp with
  | some resp => exact ⟨_, by rw [clientStep, hlive, if_neg Bool.false_ne_true, if_pos hpc]⟩
  | none => exact ⟨_, by rw [clientStep, hlive, if_neg Bool.false_ne_true, if_pos hpc]⟩

theorem reading_of_receive {cfg : ClientConfig} {s s' : ClientState} {resp : Option PullResponse}
    (hs : clientStep cfg s (.receive resp) = some s') : s.pc = .reading := by
  cases resp with
  | some resp => cases clientStep_cases hs; assumption
  | none => cases clientStep_cases hs; assumption

/-! ## What a client lives on -/

/-- An object that the client accepts: it creates something, at a relative path. -/
structure Acceptable (pull : PullObject) : Prop where
  relative : startsWith pull.path [slash] = false
  known : ∀ value, pull.type ≠ .other value

/-- Messages that begin with the start of the job `id`, if there is an object among them. -/
structure Conforms (id : Bytes) (messages : List PullResponse) : Prop where
  first : objectsOf messages = [] ∨ ∃ rest, messages = .started id :: rest
  job : ∀ job, .started job ∈ messages → job = id
  once : (jobsOf messages).length ≤ 1
  acceptable : ∀ pull ∈ objectsOf messages, Acceptable pull
  isSet : .unset ∉ messages

/-- There is a terminal on which a progress line of the object overruns. -/
def ClientConfig.Overlong (cfg : ClientConfig) (pull : PullObject) : Prop :=
  ∃ action wsCol, (action = kDownloadAction ∨ action = kVerifyAction) ∧
    cfg.overruns wsCol (action, pull.path) = true

/-- What a client keeps as long as what it receives conforms. -/
structure Lives (cfg : ClientConfig) (id : Bytes) (s : ClientState) : Prop where
  dead : s.pc = .dead →
    ∃ pull ∈ objectsOf s.received, pull.transfer.isSome ∧ cfg.Overlong pull
  job : .started id ∈ s.received → s.jobId = id
  fresh : jobsOf s.received = [] → s.sigint.previousHandler = .sigDfl
  acceptable : ∀ pull ∈ s.pc.object, Acceptable pull
  finished : ∀ total, .finished total ∈ s.received →
    s.pc = .waiting ∨ (∃ incomplete, s.pc = .reported incomplete) ∨ s.pc = .dead

section Lives

variable {cfg : ClientConfig} {s s' : ClientState} {id : Bytes}

theorem Conforms.mono {messages messages' : List PullResponse} (h : Conforms id messages')
    (hsub : messages <+: messages') : Conforms id messages where
  first := by
    obtain ⟨rest', rfl⟩ := hsub
    cases messages with
    | nil => exact .inl rfl
    | cons resp rest =>
      rcases h.first with hnone | ⟨tail, htail⟩
      · rw [objectsOf_append, List.append_eq_nil_iff] at hnone
        exact .inl hnone.1
      · rw [List.cons_append, List.cons.injEq] at htail
        exact .inr ⟨rest, by rw [htail.1]⟩
  job job hjob := h.job job (hsub.subset hjob)
  once := Nat.le_trans (hsub.sublist.filterMap _).length_le h.once
  acceptable pull hpull := h.acceptable pull ((hsub.sublist.filterMap _).subset hpull)
  isSet hunset := h.isSet (hsub.subset hunset)

/-- An object only comes after the start of the job. -/
theorem Conforms.started {messages : List PullResponse} {pull : PullObject}
    (h : Conforms id (messages ++ [.object pull])) : .started id ∈ messages := by
  rcases h.first with hnone | ⟨rest, hrest⟩
  · rw [objectsOf_append, List.append_eq_nil_iff] at hnone
    cases hnone.2
  · cases messages with
    | nil => cases hrest
    | cons resp messages =>
      rw [List.cons_append, List.cons.injEq] at hrest
      rw [hrest.1]
      exact List.mem_cons_self

/-- The job is started once. -/
theorem Conforms.fresh {messages : List PullResponse} {job : Bytes}
    (h : Conforms id (messages ++ [.started job])) : jobsOf messages = [] := by
  have honce := h.once
  rw [jobsOf_append, List.length_append, show (jobsOf [.started job]).length = 1 from rfl] at honce
  exact List.eq_nil_of_length_eq_zero (by omega)

theorem Lives.start (id : Bytes) (cfg : ClientConfig) : Lives cfg id (.start cfg) where
  dead := by rintro ⟨⟩
  job := by rintro ⟨⟩
  fresh _ := rfl
  acceptable := by rintro pull ⟨⟩
  finished := by rintro total ⟨⟩

theorem createCall_ok (dest : Bytes) {pull : PullObject} (h : Acceptable pull) :
    ∃ call, createCall dest pull = .ok call := by
  cases htype : pull.type with
  | other value => exact absurd htype (h.known value)
  | kTypeFile | kTypeDirectory | kTypeSymlink =>
    simp only [createCall, htype]
    exact ⟨_, rfl⟩

/-- A client that reads was not told that everything was sent. -/
theorem Lives.unfinished (h : Lives cfg id s) (hpc : s.pc = .reading) :
    ∀ total, .finished total ∉ s.received := by
  intro total htotal
  rcases h.finished total htotal with hend | ⟨incomplete, hend⟩ | hend
  all_goals
    rw [hpc] at hend
    cases hend

/-- A message that conforms is survived. -/
theorem Lives.receive (hid : id ≠ []) (h : Lives cfg id s) (hpc : s.pc = .reading)
    {resp : PullResponse} (hconforms : Conforms id (s.received ++ [resp])) :
    Lives cfg id { handleResponse s resp with received := s.received ++ [resp] } ∧
      (handleResponse s resp).pc ≠ .dead := by
  have hunfinished := h.unfinished hpc
  have hmem : ∀ {resp'}, resp' ∈ s.received ++ [resp] → resp' ≠ resp → resp' ∈ s.received := by
    intro resp' hresp' hne
    rcases List.mem_append.1 hresp' with hold | hnew
    · exact hold
    · exact absurd (List.mem_singleton.1 hnew) hne
  have hfresh : jobsOf (s.received ++ [resp]) = [] → s.sigint.previousHandler = .sigDfl := by
    intro hnone
    rw [jobsOf_append, List.append_eq_nil_iff] at hnone
    exact h.fresh hnone.1
  cases resp with
  | unset => exact absurd (List.mem_append_right _ List.mem_cons_self) hconforms.isSet
  | object pull =>
    have hjob : s.jobId = id := h.job hconforms.started
    have hacceptable : Acceptable pull := by
      apply hconforms.acceptable
      rw [objectsOf_append]
      exact List.mem_append_right _ List.mem_cons_self
    have hgood : ¬ (s.jobId = [] ∨ startsWith pull.path [slash] = true) := by
      rw [hjob, hacceptable.relative]
      simp [hid]
    rw [handleResponse_object, if_neg hgood]
    refine ⟨⟨by rintro ⟨⟩, fun _ => hjob, hfresh, ?_, ?_⟩, ClientPc.noConfusion⟩
    · rintro pull' ⟨⟩
      exact hacceptable
    · intro total htotal
      exact absurd (hmem htotal PullResponse.noConfusion) (hunfinished total)
  | started job =>
    have hjob : job = id := hconforms.job job (List.mem_append_right _ List.mem_cons_self)
    rw [handleResponse_started, if_pos (h.fresh hconforms.fresh)]
    have halive : s.pc ≠ .dead := by
      rw [hpc]
      exact ClientPc.noConfusion
    refine ⟨⟨fun hdead => absurd hdead halive, fun _ => hjob, ?_, h.acceptable, ?_⟩, halive⟩
    · intro hnone
      rw [jobsOf_append, List.append_eq_nil_iff] at hnone
      cases hnone.2
    · intro total htotal
      exact absurd (hmem htotal PullResponse.noConfusion) (hunfinished total)
  | finished total =>
    refine ⟨⟨by rintro ⟨⟩, ?_, hfresh, by rintro pull ⟨⟩, fun _ _ => .inl rfl⟩,
      ClientPc.noConfusion⟩
    exact fun hstarted => h.job (hmem hstarted PullResponse.noConfusion)
  | error message =>
    have halive : s.pc ≠ .dead := by
      rw [hpc]
      exact ClientPc.noConfusion
    refine ⟨⟨fun hdead => absurd hdead halive, ?_, hfresh, h.acceptable, ?_⟩, halive⟩
    · exact fun hstarted => h.job (hmem hstarted PullResponse.noConfusion)
    · intro total htotal
      exact absurd (hmem htotal PullResponse.noConfusion) (hunfinished total)

/-- The main thread goes on to `pc`. -/
theorem Lives.goesOn (h : Lives cfg id s) {pc : ClientPc} {toComplete : GuardedSet Bytes}
    {pool : WorkerPool ClientTask ClientRun} {deeds : List (Deed × Bytes)} (halive : pc ≠ .dead)
    (hobject : ∀ pull ∈ pc.object, pull ∈ s.pc.object)
    (hpc : s.pc ≠ .waiting ∧ (∀ incomplete, s.pc ≠ .reported incomplete) ∧ s.pc ≠ .dead) :
    Lives cfg id { s with pc, toComplete, pool, deeds } := by
  refine ⟨fun hdead => absurd hdead halive, h.job, h.fresh,
    fun pull hpull => h.acceptable pull (hobject pull hpull), ?_⟩
  intro total htotal
  rcases h.finished total htotal with hwaiting | ⟨incomplete, hreported⟩ | hdead
  · exact absurd hwaiting hpc.1
  · exact absurd hreported (hpc.2.1 incomplete)
  · exact absurd hdead hpc.2.2

theorem Lives.main (h : Lives cfg id s) (hs : clientMainStep cfg s = some s') :
    Lives cfg id s' ∧ s'.pc ≠ .dead := by
  have hat : ∀ {pc : ClientPc}, s.pc = pc → pc ≠ .waiting →
      (∀ incomplete, pc ≠ .reported incomplete) → pc ≠ .dead →
      s.pc ≠ .waiting ∧ (∀ incomplete, s.pc ≠ .reported incomplete) ∧ s.pc ≠ .dead := by
    rintro pc rfl hwaiting hreported hdead
    exact ⟨hwaiting, hreported, hdead⟩
  cases clientMainStep_cases hs with
  | asserts pull fault hpc hcall =>
    obtain ⟨call, hok⟩ := createCall_ok cfg.dest (h.acceptable pull (by rw [hpc]; rfl))
    rw [hok] at hcall
    cases hcall
  | reports hpc =>
    exact ⟨⟨by rintro ⟨⟩, h.job, h.fresh, by rintro pull ⟨⟩, fun _ _ => .inr (.inl ⟨_, rfl⟩)⟩,
      ClientPc.noConfusion⟩
  | inserts _ hpc | createsFile _ _ hpc | createsEntry _ _ hpc | prepares _ hpc | settles _ hpc =>
    refine ⟨h.goesOn ClientPc.noConfusion ?_ ?_, ClientPc.noConfusion⟩
    · rw [hpc]
      exact fun _ hpull => hpull
    · exact hat hpc ClientPc.noConfusion (fun _ => ClientPc.noConfusion) ClientPc.noConfusion
  | notCreated _ _ hpc | submits _ hpc | notSettled _ hpc | erases _ hpc =>
    refine ⟨h.goesOn ClientPc.noConfusion ?_ ?_, ClientPc.noConfusion⟩
    · rintro _ ⟨⟩
    · exact hat hpc ClientPc.noConfusion (fun _ => ClientPc.noConfusion) ClientPc.noConfusion

/-- A progress line is that of a file in the hands of a worker. -/
theorem overlong_of_line {r : ClientRun} {line : Bytes × Bytes} {wsCol : Option UInt16}
    (hdraws : cfg.line r = some line) (hoverruns : cfg.overruns wsCol line = true) :
    ∃ pull, r.object = some pull ∧ cfg.Overlong pull := by
  cases r with
  | streaming pull =>
    simp only [ClientConfig.line] at hdraws
    split at hdraws
    · exact ⟨pull, rfl, _, wsCol, .inl rfl, Option.some.inj hdraws ▸ hoverruns⟩
    · cases hdraws
  | checking pull =>
    simp only [ClientConfig.line] at hdraws
    split at hdraws
    · exact ⟨pull, rfl, _, wsCol, .inr rfl, Option.some.inj hdraws ▸ hoverruns⟩
    · cases hdraws
  | preparing pull | submitting pull | settling pull | erasing pull | returned => cases hdraws

/-- **A client lives** as long as what it receives conforms: none of its assertions fails, and it
dies only where a progress line overruns. -/
theorem Lives.step (hid : id ≠ []) (h : Lives cfg id s) (hexact : s.Exact cfg) {event : ClientEvent}
    (hevent : ∀ resp, event = .receive (some resp) → Conforms id (s.received ++ [resp]))
    (hs : clientStep cfg s event = some s') :
    Lives cfg id s' ∧ (s'.pc = .dead → ∃ j wsCol, event = .overrun j wsCol) := by
  have hlive := clientStep_live hs
  have halive : s.pc ≠ .dead := ClientPc.ne_dead_of_live hlive
  cases clientStep_cases hs with
  | receives resp hpc =>
    obtain ⟨hlives, hsurvives⟩ := h.receive hid hpc (hevent resp rfl)
    exact ⟨hlives, fun hdead => absurd hdead hsurvives⟩
  | loses hpc =>
    refine ⟨h.goesOn ClientPc.noConfusion (by rintro pull ⟨⟩) ?_, by rintro ⟨⟩⟩
    rw [hpc]
    exact ⟨ClientPc.noConfusion, fun _ => ClientPc.noConfusion, ClientPc.noConfusion⟩
  | main hmain =>
    obtain ⟨hlives, hsurvives⟩ := h.main hmain
    exact ⟨hlives, fun hdead => absurd hdead hsurvives⟩
  | pops i pool =>
    exact ⟨⟨h.dead, h.job, h.fresh, h.acceptable, h.finished⟩, fun hdead => absurd hdead halive⟩
  | runs j r =>
    have hpc := ClientState.clientRunStep_pc cfg s j r
    refine ⟨⟨?_, ?_, ?_, ?_, ?_⟩, fun hdead => absurd (hpc ▸ hdead) halive⟩
    · exact fun hdead => absurd (hpc ▸ hdead) halive
    · rw [ClientState.clientRunStep_received, ClientState.clientRunStep_jobId]
      exact h.job
    · rw [ClientState.clientRunStep_received, ClientState.clientRunStep_sigint]
      exact h.fresh
    · rw [hpc]
      exact h.acceptable
    · rw [hpc, ClientState.clientRunStep_received]
      exact h.finished
  | overruns j r line wsCol hj hdraws hoverruns =>
    obtain ⟨pull, hobject, hoverlong⟩ := overlong_of_line hdraws hoverruns
    have hhanded := ClientState.mem_handed s hj hobject
    refine ⟨⟨fun _ => ⟨pull, ?_, ?_, hoverlong⟩, h.job, h.fresh, by rintro pull ⟨⟩,
      fun _ _ => .inr (.inr rfl)⟩, fun _ => ⟨j, wsCol, rfl⟩⟩
    · exact hexact.held.subset (List.mem_append_right _ hhanded)
    · exact hexact.files pull (List.mem_append_right _ hhanded)

/-- Only a read that fails lets the client fail. -/
theorem clientStep_failed {event : ClientEvent} (hs : clientStep cfg s event = some s')
    (hpc : s'.pc = .failed) : s.pc = .reading ∧ event = .receive none := by
  have hlive := clientStep_live hs
  have hnotfailed : s.pc ≠ .failed := by
    intro hfailed
    rw [hfailed] at hlive
    cases hlive
  cases clientStep_cases hs with
  | loses hreading => exact ⟨hreading, rfl⟩
  | receives resp =>
    cases resp with
    | object pull =>
      rw [handleResponse_object] at hpc
      simp only at hpc
      split at hpc <;> cases hpc
    | started job =>
      rw [handleResponse_started] at hpc
      simp only at hpc
      split at hpc
      · exact absurd hpc hnotfailed
      · cases hpc
    | error message => exact absurd hpc hnotfailed
    | finished total | unset => cases hpc
  | overruns => cases hpc
  | main hmain =>
    cases clientMainStep_cases hmain <;> cases hpc
  | pops i pool => exact absurd hpc hnotfailed
  | runs j r =>
    rw [ClientState.clientRunStep_pc] at hpc
    exact absurd hpc hnotfailed

end Lives

end Netpull
