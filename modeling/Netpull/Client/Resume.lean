import Netpull.Client.Success
import Netpull.Console

/-!
# The resume message

What the client prints about its job when the loop of the main thread ends the process. Only the
branch of `Finished` prints the message, and it does so if a path is left in `toComplete`. A read
that fails, a refused message, an object of an unknown type, an id after the handler of `SIGINT` was
replaced, and a progress line that overruns end the process without a word (`jobNamed_iff`).
-/

namespace Netpull

open Ansi Transition

/-! ## The program -/

/-- `PrintJobResumeMessage`. -/
def printJobResumeMessage (job : Bytes) : Bytes :=
  text "To resume the job next time, use the path: " ++ kBold ++ text "@" ++ job ++ kReset ++
    [newline]

/-- The client with the resume messages that it printed. -/
structure ResumeState where
  client : ClientState
  printed : List Bytes

def ResumeState.start (cfg : ClientConfig) : ResumeState where
  client := .start cfg
  printed := []

/-- The resume messages of the branch of `Finished`. -/
def ClientState.resumeMessages (s : ClientState) : List Bytes :=
  match s.pc with
  | .reported incomplete => if incomplete = ∅ then [] else [printJobResumeMessage s.jobId]
  | _ => []

def resumeStep (cfg : ClientConfig) (s : ResumeState) (event : ClientEvent) : Option ResumeState :=
  (clientStep cfg s.client event).map fun client =>
    { client, printed := s.printed ++ client.resumeMessages }

/-! ## What the message is for -/

/-- The id that the client was given last. -/
def jobOf (received : List PullResponse) : Option Bytes := (jobsOf received).getLast?

def PullResponse.isFinished : PullResponse → Bool
  | .finished _ => true
  | _ => false

/-- Some object of the job may not be completed. -/
def ClientState.Interrupted (s : ClientState) : Prop :=
  s.received.any PullResponse.isFinished = false ∨ s.toComplete.pull ≠ ∅

/-- If the job is interrupted, its id is printed by the time the process has ended. -/
def ResumeState.JobNamed (s : ResumeState) : Prop :=
  s.client.pc.isOver → ∀ job ∈ jobOf s.client.received, s.client.Interrupted →
    printJobResumeMessage job ∈ s.printed

/-- The event takes the client out of its loop, and not through `Finished`. -/
def ResumeState.BreaksOff (cfg : ClientConfig) (s : ResumeState) : ClientEvent → Prop
  | .receive none | .receive (some .unset) => s.client.pc = .reading
  | .receive (some (.object pull)) =>
    s.client.pc = .reading ∧ (s.client.jobId = [] ∨ startsWith pull.path [slash])
  | .receive (some (.started _)) =>
    s.client.pc = .reading ∧ s.client.sigint.previousHandler ≠ .sigDfl
  | .main => ∃ pull value, s.client.pc = .creating pull ∧ pull.type = .other value
  | .overrun j wsCol =>
    s.client.pc.isOver = false ∧ s.client.Interrupted ∧
      (s.client.pool.running[j]?.bind cfg.line).any (cfg.overruns wsCol) = true
  | .receive (some (.finished _)) | .receive (some (.error _)) | .pop _ | .run _ => False

/-- Once there is a job, the loop is not broken off. -/
def ResumeState.StaysOn (cfg : ClientConfig) (s : ResumeState) (event : ClientEvent) : Prop :=
  (jobOf s.client.received).isSome → ¬ s.BreaksOff cfg event

/-! ## The main thread -/

/-- `Finished` was received. -/
def ClientPc.hasFinished : ClientPc → Bool
  | .waiting | .reported _ => true
  | _ => false

section Client

variable {cfg : ClientConfig} {s s' : ClientState}

theorem jobOf_append (received : List PullResponse) (resp : PullResponse) :
    jobOf (received ++ [resp]) = resp.job.or (jobOf received) := by
  unfold jobOf jobsOf
  cases h : resp.job <;> simp [h]

theorem clientMainStep_jobId (hs : clientMainStep cfg s = some s') : s'.jobId = s.jobId := by
  cases clientMainStep_cases hs <;> rfl

theorem clientMainStep_hasFinished (hs : clientMainStep cfg s = some s') :
    s'.pc.hasFinished = s.pc.hasFinished := by
  cases clientMainStep_cases hs with
  | inserts pull hpc | asserts pull _ hpc | createsFile pull _ hpc | createsEntry pull _ hpc
  | notCreated pull _ hpc | prepares pull hpc | submits pull hpc | settles pull hpc
  | notSettled pull hpc | erases pull hpc | reports hpc =>
    rw [hpc]
    rfl

/-- The assertion of a call fails for an unknown type only. -/
theorem type_of_createCall {dest : Bytes} {pull : PullObject} {fault : Fault}
    (h : createCall dest pull = .error fault) : ∃ value, pull.type = .other value := by
  unfold createCall at h
  split at h
  · cases h
  · cases h
  · cases h
  · next value htype => exact ⟨value, htype⟩

/-- Past its loop, the main thread comes to its end with what is left, or at an unknown type. -/
theorem clientMainStep_isOver (hs : clientMainStep cfg s = some s') (hover : s'.pc.isOver = true) :
    s'.pc = .reported s'.toComplete.pull ∨
      ∃ pull value, s.pc = .creating pull ∧ pull.type = .other value := by
  cases clientMainStep_cases hs with
  | asserts pull fault hpc hcall =>
    obtain ⟨value, htype⟩ := type_of_createCall hcall
    exact .inr ⟨pull, value, hpc, htype⟩
  | reports => exact .inl rfl
  | inserts | createsFile | createsEntry | notCreated | prepares | submits | settles | notSettled
  | erases => cases hover

theorem handleResponse_jobId (s : ClientState) (resp : PullResponse) :
    (handleResponse s resp).jobId = resp.job.getD s.jobId := by
  cases resp with
  | object pull =>
    rw [handleResponse_object]
    rfl
  | started job =>
    rw [handleResponse_started]
    rfl
  | unset | finished total | error message => rfl

theorem handleResponse_hasFinished (hpc : s.pc = .reading) (resp : PullResponse) :
    (handleResponse s resp).pc.hasFinished = resp.isFinished := by
  cases resp with
  | object pull =>
    rw [handleResponse_object]
    simp only
    split <;> rfl
  | started job =>
    rw [handleResponse_started, hpc]
    simp only
    split <;> rfl
  | error message =>
    simp only [handleResponse, hpc]
    rfl
  | unset | finished total => rfl

/-- What the client knows of its job is what it received about it, as long as it lives. -/
structure JobBooks (s : ClientState) : Prop where
  jobId : s.jobId = (jobOf s.received).getD []
  finished : s.pc ≠ .dead → s.received.any PullResponse.isFinished = s.pc.hasFinished

theorem JobBooks.step (h : JobBooks s) {event : ClientEvent}
    (hs : clientStep cfg s event = some s') : JobBooks s' := by
  have hfinished := h.finished (ClientPc.ne_dead_of_live (clientStep_live hs))
  cases clientStep_cases hs with
  | receives resp hpc =>
    have hnone : s.received.any PullResponse.isFinished = false := by
      rw [hfinished, hpc]
      rfl
    constructor
    · simp only [handleResponse_jobId, jobOf_append, h.jobId]
      cases resp.job <;> rfl
    · simp [handleResponse_hasFinished hpc, hnone]
  | loses hpc =>
    refine ⟨h.jobId, fun _ => ?_⟩
    rw [hfinished, hpc]
    rfl
  | main hmain =>
    have hreceived := clientMainStep_received hmain
    constructor
    · rw [clientMainStep_jobId hmain, hreceived]
      exact h.jobId
    · rw [clientMainStep_hasFinished hmain, hreceived]
      exact fun _ => hfinished
  | pops => exact ⟨h.jobId, fun _ => hfinished⟩
  | runs j r =>
    constructor
    · rw [ClientState.clientRunStep_jobId, ClientState.clientRunStep_received]
      exact h.jobId
    · rw [ClientState.clientRunStep_pc, ClientState.clientRunStep_received]
      exact fun _ => hfinished
  | overruns => exact ⟨h.jobId, fun hnotdead => absurd rfl hnotdead⟩

end Client

/-! ## How the process ends -/

section Resume

variable {cfg : ClientConfig} {s s' : ResumeState} {event : ClientEvent}

/-- Without a job nothing has replaced the handler, and nothing is printed before the end. -/
structure ResumeInv (s : ResumeState) : Prop where
  books : JobBooks s.client
  first : jobOf s.client.received = none → s.client.sigint.previousHandler = .sigDfl
  silent : s.client.pc.isOver = false → s.printed = []

theorem ClientState.resumeMessages_of_live {s : ClientState} (h : s.pc.isOver = false) :
    s.resumeMessages = [] := by
  unfold resumeMessages
  split
  · next hpc =>
    rw [hpc] at h
    cases h
  · rfl

/-- The branch of `Finished` prints the message if something is left. -/
theorem ClientState.mem_resumeMessages {s : ClientState} (hpc : s.pc = .reported s.toComplete.pull)
    (hleft : s.toComplete.pull ≠ ∅) : printJobResumeMessage s.jobId ∈ s.resumeMessages := by
  unfold resumeMessages
  rw [hpc]
  simp only
  rw [if_neg hleft]
  exact .head _

theorem clientStep_reading {s : ClientState} (hpc : s.pc = .reading) (resp : PullResponse) :
    clientStep cfg s (.receive (some resp)) =
      some { handleResponse s resp with received := s.received ++ [resp] } := by
  simp [clientStep, ClientPc.isOver, hpc]

/-- The process ends where the loop is broken off, or with what is left after `Finished`. A progress
line that overruns ends it in any case. -/
theorem clientStep_isOver (h : ResumeInv s) {client : ClientState}
    (hs : clientStep cfg s.client event = some client) (hover : client.pc.isOver = true) :
    (client.Interrupted → (jobOf client.received).isSome →
      s.BreaksOff cfg event ∧ (jobOf s.client.received).isSome) ∨
      client.pc = .reported client.toComplete.pull := by
  have hlive := clientStep_live hs
  have hsame : ∀ resp : PullResponse, resp.job = none →
      jobOf s.client.received = jobOf (s.client.received ++ [resp]) := by
    intro resp hresp
    rw [jobOf_append, hresp, Option.none_or]
  cases clientStep_cases hs with
  | receives resp hpc =>
    cases resp with
    | unset => exact .inl fun _ hjob => ⟨hpc, hsame .unset rfl ▸ hjob⟩
    | started job =>
      rw [handleResponse_started] at hover
      simp only at hover
      split at hover
      · rw [hpc] at hover
        cases hover
      · next hprevious =>
        refine .inl fun _ _ => ⟨⟨hpc, hprevious⟩, ?_⟩
        exact Option.isSome_iff_ne_none.2 fun hnone => hprevious (h.first hnone)
    | error message =>
      simp only [handleResponse, hpc] at hover
      cases hover
    | finished total => cases hover
    | object pull =>
      refine .inl fun _ hjob => ⟨⟨hpc, ?_⟩, hsame (.object pull) rfl ▸ hjob⟩
      rw [handleResponse_object] at hover
      simp only at hover
      split at hover
      · next hrefused => exact hrefused
      · cases hover
  | loses hpc => exact .inl fun _ hjob => ⟨hpc, hjob⟩
  | main hmain =>
    rcases clientMainStep_isOver hmain hover with hreported | hother
    · exact .inr hreported
    · exact .inl fun _ hjob => ⟨hother, clientMainStep_received hmain ▸ hjob⟩
  | pops =>
    rw [hlive] at hover
    cases hover
  | runs =>
    rw [ClientState.clientRunStep_pc, hlive] at hover
    cases hover
  | overruns j r line wsCol hj hdraws hoverruns =>
    refine .inl fun hinterrupted hjob => ⟨⟨hlive, hinterrupted, ?_⟩, hjob⟩
    rw [hj, Option.bind_some, hdraws]
    exact hoverruns

/-- Where the loop is broken off, the process ends at once, and the job is interrupted. -/
theorem ResumeState.BreaksOff.client (h : s.BreaksOff cfg event) (hbooks : JobBooks s.client) :
    ∃ client, clientStep cfg s.client event = some client ∧
      (client.pc = .failed ∨ client.pc = .dead) ∧ client.Interrupted := by
  have hunfinished : ∀ pc, s.client.pc = pc → pc.hasFinished = false → pc ≠ .dead →
      s.client.received.any PullResponse.isFinished = false := by
    rintro pc rfl hpc hnotdead
    rw [hbooks.finished hnotdead, hpc]
  have hreading : s.client.pc = .reading →
      s.client.received.any PullResponse.isFinished = false :=
    fun hpc => hunfinished .reading hpc rfl ClientPc.noConfusion
  cases event with
  | receive resp =>
    cases resp with
    | none =>
      have hpc : s.client.pc = .reading := h
      refine ⟨{ s.client with pc := .failed }, ?_, .inl rfl, .inl (hreading hpc)⟩
      simp [clientStep, ClientPc.isOver, hpc]
    | some resp =>
      cases resp with
      | unset =>
        have hpc : s.client.pc = .reading := h
        refine ⟨_, clientStep_reading hpc .unset, .inr rfl, .inl ?_⟩
        simp [hreading hpc, PullResponse.isFinished]
      | object pull =>
        obtain ⟨hpc, hrefused⟩ := h
        refine ⟨_, clientStep_reading hpc (.object pull), .inr ?_, .inl ?_⟩
        · rw [handleResponse_object]
          exact if_pos hrefused
        · simp [hreading hpc, PullResponse.isFinished]
      | started job =>
        obtain ⟨hpc, hprevious⟩ := h
        refine ⟨_, clientStep_reading hpc (.started job), .inr ?_, .inl ?_⟩
        · rw [handleResponse_started]
          exact if_neg hprevious
        · simp [hreading hpc, PullResponse.isFinished]
      | finished total | error message => exact h.elim
  | main =>
    obtain ⟨pull, value, hpc, htype⟩ := h
    refine ⟨{ s.client with pc := .dead }, ?_, .inr rfl,
      .inl (hunfinished (.creating pull) hpc rfl ClientPc.noConfusion)⟩
    simp [clientStep, ClientPc.isOver, clientMainStep, createCall, hpc, htype]
  | overrun j wsCol =>
    obtain ⟨hlive, hinterrupted, hoverruns⟩ := h
    refine ⟨{ s.client with pc := .dead }, ?_, .inr rfl, hinterrupted⟩
    simp [clientStep, hlive, hoverruns]
  | pop i | run j => exact h.elim

theorem jobOf_clientStep {s s' : ClientState} (hs : clientStep cfg s event = some s')
    (hjob : (jobOf s.received).isSome) : (jobOf s'.received).isSome := by
  rcases clientStep_received hs with hsame | ⟨resp, -, happend⟩
  · exact hsame ▸ hjob
  · rw [happend, jobOf_append, Option.isSome_or, hjob, Bool.or_true]

/-- Only the start of a job replaces the handler. -/
theorem clientStep_sigint {s s' : ClientState} (hs : clientStep cfg s event = some s')
    (hnone : jobOf s'.received = none) : s'.sigint = s.sigint ∧ jobOf s.received = none := by
  have hbefore : jobOf s.received = none := by
    by_contra hjob
    have hsome := jobOf_clientStep hs (Option.isSome_iff_ne_none.2 hjob)
    rw [hnone] at hsome
    cases hsome
  refine ⟨?_, hbefore⟩
  cases clientStep_cases hs with
  | receives resp =>
    cases resp with
    | started job =>
      rw [jobOf_append] at hnone
      cases hnone
    | object pull =>
      rw [handleResponse_object]
    | unset | finished total | error message => rfl
  | loses | pops | overruns => rfl
  | main hmain => cases clientMainStep_cases hmain <;> rfl
  | runs j r => exact ClientState.clientRunStep_sigint cfg s j r

namespace ResumeInv

theorem start (cfg : ClientConfig) : ResumeInv (.start cfg) :=
  ⟨⟨rfl, fun _ => rfl⟩, fun _ => rfl, fun _ => rfl⟩

theorem step (h : ResumeInv s) (hs : resumeStep cfg s event = some s') : ResumeInv s' := by
  obtain ⟨client, hclient, rfl⟩ := Option.map_eq_some_iff.1 hs
  refine ⟨h.books.step hclient, ?_, ?_⟩
  · intro hnone
    obtain ⟨hsame, hbefore⟩ := clientStep_sigint hclient hnone
    rw [hsame]
    exact h.first hbefore
  · intro hlive
    simp only [h.silent (clientStep_live hclient), ClientState.resumeMessages_of_live hlive,
      List.append_nil]

/-- As long as the loop is not broken off, the process names an interrupted job at its end. -/
theorem named (h : ResumeInv s) (hgood : s.StaysOn cfg event)
    (hs : resumeStep cfg s event = some s') : s'.JobNamed := by
  intro hover job hjob hinterrupted
  have hbooks := (h.step hs).books
  obtain ⟨client, hclient, rfl⟩ := Option.map_eq_some_iff.1 hs
  rcases clientStep_isOver h hclient hover with hbreaks | hpc
  · obtain ⟨hbreaks, hsome⟩ := hbreaks hinterrupted (Option.isSome_iff_exists.2 ⟨job, hjob⟩)
    exact absurd hbreaks (hgood hsome)
  · have hpc : client.pc = .reported client.toComplete.pull := hpc
    have hjobId : client.jobId = job := by
      rw [hbooks.jobId, show jobOf client.received = some job from hjob]
      rfl
    have hnotdead : client.pc ≠ .dead := by
      rw [hpc]
      exact ClientPc.noConfusion
    have hleft : client.toComplete.pull ≠ ∅ := by
      refine hinterrupted.resolve_left fun hnone => ?_
      rw [hbooks.finished hnotdead, hpc] at hnone
      cases hnone
    exact List.mem_append_right _ (hjobId ▸ ClientState.mem_resumeMessages hpc hleft)

/-- Where the loop is broken off, a job that the client was given is not named. -/
theorem unnamed (h : ResumeInv s) (hbad : ¬ s.StaysOn cfg event) :
    ∃ s', resumeStep cfg s event = some s' ∧ ¬ s'.JobNamed := by
  unfold ResumeState.StaysOn at hbad
  push Not at hbad
  obtain ⟨hjob, hbreaks⟩ := hbad
  obtain ⟨client, hclient, hend, hinterrupted⟩ := hbreaks.client h.books
  have hnothing : client.resumeMessages = [] := by
    rcases hend with hpc | hpc <;> simp [ClientState.resumeMessages, hpc]
  have hover : client.pc.isOver = true := by
    rcases hend with hpc | hpc <;> rw [hpc] <;> rfl
  refine ⟨_, by rw [resumeStep, hclient, Option.map_some], fun hnamed => ?_⟩
  obtain ⟨job, hsome⟩ := Option.isSome_iff_exists.1 (jobOf_clientStep hclient hjob)
  have hmem := hnamed hover job hsome hinterrupted
  simp [h.silent (clientStep_live hclient), hnothing] at hmem

end ResumeInv

/-- **An interrupted job is named** in exactly the runs in which the loop is not broken off once the
client has a job: whatever `Finished` leaves is reported, and nothing else is. -/
theorem jobNamed_iff (cfg : ClientConfig) (events : List ClientEvent) :
    EachState (resumeStep cfg) ResumeState.JobNamed (.start cfg) events ↔
      EachStep (resumeStep cfg) (ResumeState.StaysOn cfg) (.start cfg) events := by
  refine eachState_iff (fun s (h : ResumeInv s ∧ s.JobNamed) => h.2) ?_ ?_ ?_
  · intro s event s' h hgood hs
    exact ⟨h.1.step hs, h.1.named hgood hs⟩
  · intro s event h hbad
    exact h.1.unnamed hbad
  · exact ⟨.start cfg, by rintro ⟨⟩⟩

end Resume

/-- The connection is lost after the id. -/
def lostConnection : List ClientEvent := [.receive (some (.started (text "job"))), .receive none]

/-- The client ends with a job that it was given, and prints nothing. -/
theorem lost_connection_unnamed :
    (script (resumeStep oneFailure) (.start oneFailure) lostConnection).map
        (fun s => (s.client.pc, jobOf s.client.received, s.printed)) =
      some (.failed, some (text "job"), []) ∧
    ¬ EachState (resumeStep oneFailure) ResumeState.JobNamed (.start oneFailure)
        lostConnection := by
  refine ⟨rfl, fun h => ?_⟩
  obtain ⟨s, hrun, hpc, hjob, hunfinished, hprinted⟩ :
      ∃ s, script (resumeStep oneFailure) (.start oneFailure) lostConnection = some s ∧
        s.client.pc = .failed ∧ jobOf s.client.received = some (text "job") ∧
        s.client.received.any PullResponse.isFinished = false ∧ s.printed = [] :=
    ⟨_, rfl, rfl, rfl, rfl, rfl⟩
  have hmem := h lostConnection [] s rfl hrun (by rw [hpc]; rfl) _ hjob (.inl hunfinished)
  rw [hprinted] at hmem
  cases hmem

end Netpull
