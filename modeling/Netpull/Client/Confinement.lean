import Netpull.Client.Success
import Netpull.LexicalPath

/-!
# What the client touches

Each call the client makes on a path of its destination directory is given the path of an object
message as it came. The one check is that it does not begin with a slash, so
`destination_confined_iff` says for which messages nothing above the destination is touched. Messages
that come after an assertion has failed are not handled any more.
-/

namespace Netpull

open Lexical PullObject Transition

/-! ## The calls -/

/-- The path a call that creates an object is given. -/
def CreateCall.path : CreateCall → Bytes
  | .openat path => path
  | .mkdirat path _ => path
  | .symlinkat _ path => path

/-- A call on a path of the destination. -/
inductive AtCall
  | create (call : CreateCall)
  | openat (path : Bytes) (writes : Bool)
  | utimensat (path : Bytes) (times : Times)
  | fchmodat (path : Bytes) (perms : Int32)
  | fchownat (path : Bytes) (uid gid : Int32)
deriving DecidableEq, Repr

def AtCall.path : AtCall → Bytes
  | .create call => call.path
  | .openat path _ => path
  | .utimensat path _ => path
  | .fchmodat path _ => path
  | .fchownat path _ _ => path

/-- The users and groups of the client's system. -/
structure Accounts where
  getpwnam : Bytes → Option Int32
  getgrnam : Bytes → Option Int32

/-- The owner that `SetMetadata` gives to an object. -/
def Accounts.owner (accounts : Accounts) (owner : Ownership) : Int32 × Int32 :=
  (if owner.user = [] then owner.uid else (accounts.getpwnam (cstr owner.user)).getD owner.uid,
    if owner.group = [] then owner.gid else (accounts.getgrnam (cstr owner.group)).getD owner.gid)

/-- The calls of `SetMetadata`, up to the first that fails. -/
def setMetadataCalls (accounts : Accounts) (calls : MetadataCalls) (pull : PullObject) :
    List AtCall :=
  let path := cstr pull.path
  let owner := accounts.owner pull.owner
  .utimensat path pull.times ::
    if !calls.utimensat then []
    else if pull.type = .kTypeFile then
      .fchmodat path pull.nonlink.perms ::
        if !calls.fchmodat then [] else [.fchownat path owner.1 owner.2]
    else [.fchownat path owner.1 owner.2]

/-- The calls of a step of the main thread. -/
def ClientPc.calls (cfg : ClientConfig) (accounts : Accounts) : ClientPc → List AtCall
  | .creating pull =>
    match createCall cfg.dest pull with
    | .ok call => [.create call]
    | .error _ => []
  | .settling pull => setMetadataCalls accounts (cfg.calls pull.path).metadata pull
  | _ => []

/-- The calls of a step of a worker. -/
def ClientRun.calls (cfg : ClientConfig) (accounts : Accounts) : ClientRun → List AtCall
  | .streaming pull => [.openat (cstr pull.path) true]
  | .checking pull => [.openat (cstr pull.path) false]
  | .settling pull => setMetadataCalls accounts (cfg.calls pull.path).metadata pull
  | _ => []

/-- A client with the calls it made in its destination. -/
structure CallingClient where
  run : ReportingClient
  calls : List AtCall

namespace CallingClient

def start (cfg : ClientConfig) : CallingClient := ⟨.start cfg, []⟩

/-- The calls of an event. -/
def callsOf (cfg : ClientConfig) (accounts : Accounts) (s : ClientState) :
    ReportEvent → List AtCall
  | .client .main => s.pc.calls cfg accounts
  | .client (.run j) => s.pool.running[j]?.elim [] (·.calls cfg accounts)
  | _ => []

def callStep (cfg : ClientConfig) (accounts : Accounts) (s : CallingClient) (event : ReportEvent) :
    Option CallingClient :=
  (ReportingClient.reportStep cfg s.run event).map fun run =>
    ⟨run, s.calls ++ callsOf cfg accounts s.run.client event⟩

variable {cfg : ClientConfig} {accounts : Accounts}

theorem createCall_path {dest : Bytes} {pull : PullObject} {call : CreateCall}
    (h : createCall dest pull = .ok call) : call.path = cstr pull.path := by
  unfold createCall at h
  split at h <;> cases h <;> rfl

theorem setMetadataCalls_path {calls : MetadataCalls} {pull : PullObject} {call : AtCall}
    (h : call ∈ setMetadataCalls accounts calls pull) : call.path = cstr pull.path := by
  unfold setMetadataCalls at h
  rcases List.mem_cons.1 h with rfl | h
  · rfl
  · split at h
    · cases h
    · split at h
      · rcases List.mem_cons.1 h with rfl | h
        · rfl
        · split at h
          · cases h
          · obtain rfl := List.mem_singleton.1 h
            rfl
      · obtain rfl := List.mem_singleton.1 h
        rfl

/-- The main thread only makes calls for an object it found a call to create for. -/
theorem calls_main {pc : ClientPc} {call : AtCall} (h : call ∈ pc.calls cfg accounts) :
    ∃ pull, call.path = cstr pull.path ∧
      ((pc = .creating pull ∧ ∃ c, createCall cfg.dest pull = .ok c) ∨ pc = .settling pull) := by
  cases pc with
  | creating pull =>
    simp only [ClientPc.calls] at h
    split at h
    · next c hc =>
      obtain rfl := List.mem_singleton.1 h
      exact ⟨pull, createCall_path hc, .inl ⟨rfl, c, hc⟩⟩
    · cases h
  | settling pull => exact ⟨pull, setMetadataCalls_path h, .inr rfl⟩
  | inserting pull | preparing pull | submitting pull | erasing pull | reported incomplete =>
    cases h
  | reading | waiting | failed | dead => cases h

theorem calls_run {r : ClientRun} {call : AtCall} (h : call ∈ r.calls cfg accounts) :
    ∃ pull, call.path = cstr pull.path ∧ r.object = some pull := by
  cases r with
  | streaming pull | checking pull =>
    obtain rfl := List.mem_singleton.1 h
    exact ⟨pull, rfl, rfl⟩
  | settling pull => exact ⟨pull, setMetadataCalls_path h, rfl⟩
  | preparing pull | submitting pull | erasing pull => cases h
  | returned => cases h

/-! ## The objects that pass the checks -/

end CallingClient

/-- What the main loop makes of messages: the job, the handler of `SIGINT`, whether it goes on
reading, and the objects it handles. -/
structure Handling where
  jobId : Bytes
  sigint : SigintHandler
  reads : Bool
  objects : List PullObject

def Handling.step (cfg : ClientConfig) (h : Handling) (resp : PullResponse) : Handling :=
  if !h.reads then h
  else
    match resp with
    | .object pull =>
      if h.jobId = [] then { h with reads := false }
      else if startsWith pull.path [slash] then { h with reads := false }
      else
        match createCall cfg.dest pull with
        | .error _ => { h with reads := false }
        | .ok _ => { h with objects := h.objects ++ [pull] }
    | .started job =>
      match h.sigint.activate with
      | some sigint => { h with jobId := job, sigint }
      | none => { h with jobId := job, reads := false }
    | .finished _ => { h with reads := false }
    | .error _ => h
    | .unset => { h with reads := false }

def handlingOf (cfg : ClientConfig) (messages : List PullResponse) : Handling :=
  messages.foldl (Handling.step cfg) ⟨[], ⟨.sigDfl, cfg.disposition⟩, true, []⟩

/-- The objects among the messages that pass the checks of the client. -/
def handledObjects (cfg : ClientConfig) (messages : List PullResponse) : List PullObject :=
  (handlingOf cfg messages).objects

theorem handling_append (cfg : ClientConfig) (messages : List PullResponse) (resp : PullResponse) :
    handlingOf cfg (messages ++ [resp]) = (handlingOf cfg messages).step cfg resp :=
  List.foldl_append

/-- A message brings at most one object, which has passed the checks. -/
theorem Handling.step_objects (cfg : ClientConfig) (h : Handling) (resp : PullResponse) :
    (h.step cfg resp).objects = h.objects ∨
      ∃ pull, startsWith pull.path [slash] = false ∧
        (h.step cfg resp).objects = h.objects ++ [pull] := by
  unfold step
  split
  · exact .inl rfl
  · cases resp with
    | object pull =>
      simp only
      split
      · exact .inl rfl
      · split
        · exact .inl rfl
        · next hrelative =>
          split
          · exact .inl rfl
          · exact .inr ⟨pull, Bool.eq_false_iff.2 hrelative, rfl⟩
    | started job =>
      simp only
      split <;> exact .inl rfl
    | finished total | error message | unset => exact .inl rfl

theorem Handling.grows (cfg : ClientConfig) (h : Handling) (resp : PullResponse) :
    h.objects <+: (h.step cfg resp).objects := by
  rcases h.step_objects cfg resp with hsame | ⟨pull, -, hmore⟩
  · exact hsame ▸ List.prefix_refl _
  · exact hmore ▸ List.prefix_append _ _

theorem handledObjects_mono {cfg : ClientConfig} {messages messages' : List PullResponse}
    (h : messages <+: messages') :
    handledObjects cfg messages <+: handledObjects cfg messages' := by
  obtain ⟨more, rfl⟩ := h
  induction more using List.reverseRecOn with
  | nil => rw [List.append_nil]
  | append_singleton more resp ih =>
    rw [← List.append_assoc, handledObjects, handledObjects, handling_append]
    exact ih.trans (Handling.grows cfg _ resp)

theorem relative_of_handled {cfg : ClientConfig} {messages : List PullResponse} :
    ∀ pull ∈ handledObjects cfg messages, startsWith pull.path [slash] = false := by
  induction messages using List.reverseRecOn with
  | nil => rintro pull ⟨⟩
  | append_singleton messages resp ih =>
    intro pull hpull
    rw [handledObjects, handling_append] at hpull
    rcases (handlingOf cfg messages).step_objects cfg resp with hsame | ⟨q, hq, hmore⟩
    · rw [hsame] at hpull
      exact ih pull hpull
    · rw [hmore] at hpull
      rcases List.mem_append.1 hpull with hpull | hpull
      · exact ih pull hpull
      · obtain rfl := List.mem_singleton.1 hpull
        exact hq

/-! ## Every call is for a handled object -/

namespace CallingClient

variable {cfg : ClientConfig} {accounts : Accounts} {s s' : CallingClient}

/-- The main thread is where its messages have led it, and goes on reading. -/
def Follows (cfg : ClientConfig) (c : ClientState) : Prop :=
  (handlingOf cfg c.received).reads = true ∧ (handlingOf cfg c.received).jobId = c.jobId ∧
    (handlingOf cfg c.received).sigint = c.sigint

/-- Where the main thread stands in its messages, and that the object it is at was handled. -/
def Handled (cfg : ClientConfig) (c : ClientState) (pull : PullObject) : Prop :=
  pull ∈ handledObjects cfg c.received ∧ Follows cfg c

def PcHandled (cfg : ClientConfig) (c : ClientState) : Prop :=
  match c.pc with
  | .reading => Follows cfg c
  | .inserting pull | .creating pull =>
    ∀ call, createCall cfg.dest pull = .ok call → Handled cfg c pull
  | .preparing pull | .submitting pull | .settling pull | .erasing pull => Handled cfg c pull
  | .waiting | .reported _ | .failed | .dead => True

/-- The objects in the hands of the threads were handled. -/
structure HandsInv (cfg : ClientConfig) (c : ClientState) : Prop where
  pc : PcHandled cfg c
  workers : ∀ pull ∈ c.handed, pull ∈ handledObjects cfg c.received

variable {c c' : ClientState}

theorem HandsInv.main (h : HandsInv cfg c) (hs : clientMainStep cfg c = some c') :
    HandsInv cfg c' := by
  have hpcHandled := h.pc
  unfold PcHandled at hpcHandled
  cases clientMainStep_cases hs with
  | inserts pull hpc | prepares pull hpc | settles pull hpc =>
    rw [hpc] at hpcHandled
    exact ⟨hpcHandled, h.workers⟩
  | createsFile pull call hpc hcall _ htransfer | createsEntry pull call hpc hcall _ htransfer =>
    rw [hpc] at hpcHandled
    exact ⟨hpcHandled call hcall, h.workers⟩
  | notCreated pull call hpc hcall =>
    rw [hpc] at hpcHandled
    exact ⟨(hpcHandled call hcall).2, h.workers⟩
  | submits pull hpc =>
    rw [hpc] at hpcHandled
    refine ⟨hpcHandled.2, ?_⟩
    intro q hq
    have hsubmit := WorkerPool.work_submit (f := ClientTask.object) (g := ClientRun.object)
      c.pool (.fileStream pull)
    rcases List.mem_cons.1 (hsubmit.mem_iff.1 hq) with rfl | hq
    · exact hpcHandled.1
    · exact h.workers q hq
  | notSettled pull hpc | erases pull hpc =>
    rw [hpc] at hpcHandled
    exact ⟨hpcHandled.2, h.workers⟩
  | asserts | reports => exact ⟨trivial, h.workers⟩

theorem HandsInv.receive (h : HandsInv cfg c) (hpc : c.pc = .reading) (resp : PullResponse) :
    HandsInv cfg { handleResponse c resp with received := c.received ++ [resp] } := by
  have hreading := h.pc
  simp only [PcHandled, hpc] at hreading
  obtain ⟨hreads, hjob, hsigint⟩ := hreading
  have hworkers : ∀ pull ∈ c.handed, pull ∈ handledObjects cfg (c.received ++ [resp]) :=
    fun pull hpull => (handledObjects_mono (List.prefix_append _ _)).subset (h.workers pull hpull)
  have hstep := handling_append cfg c.received resp
  simp only [Handling.step, hreads, Bool.not_true, Bool.false_eq_true, if_false] at hstep
  cases resp with
  | unset => exact ⟨trivial, hworkers⟩
  | finished total => exact ⟨trivial, hworkers⟩
  | started job =>
    simp only [hsigint] at hstep
    rw [handleResponse]
    cases hactivate : c.sigint.activate with
    | some sigint =>
      simp only [hactivate] at hstep ⊢
      refine ⟨?_, hworkers⟩
      simp only [PcHandled, hpc]
      exact ⟨by rw [hstep], by rw [hstep], by rw [hstep]⟩
    | none => exact ⟨trivial, hworkers⟩
  | error message =>
    refine ⟨?_, hworkers⟩
    simp only [handleResponse, PcHandled, hpc]
    exact ⟨by rw [hstep]; exact hreads, by rw [hstep]; exact hjob, by rw [hstep]; exact hsigint⟩
  | object pull =>
    simp only [hjob] at hstep
    rw [handleResponse_object]
    refine ⟨?_, hworkers⟩
    unfold PcHandled
    split_ifs with hrefused
    · trivial
    · obtain ⟨hstarted, hrelative⟩ := not_or.1 hrefused
      intro call hcall
      simp only [hstarted, hrelative, Bool.false_eq_true, if_false, hcall] at hstep
      refine ⟨?_, by rw [hstep], by rw [hstep], ?_⟩
      · rw [handledObjects, hstep]
        exact List.mem_append_right _ (.head _)
      · rw [hstep]
        exact hsigint

theorem HandsInv.step (h : HandsInv cfg c) {event : ClientEvent}
    (hs : clientStep cfg c event = some c') : HandsInv cfg c' := by
  cases clientStep_cases hs with
  | receives resp hpc => exact h.receive hpc resp
  | loses | overruns => exact ⟨trivial, h.workers⟩
  | main hmain => exact h.main hmain
  | pops i pool hpop =>
    have hwork := WorkerPool.work_waitForTaskAndPop (f := ClientTask.object)
      (g := ClientRun.object) (by rintro (_ | _) <;> rfl) hpop
    exact ⟨h.pc, fun pull hpull => h.workers pull (hwork.mem_iff.1 hpull)⟩
  | runs j r hj =>
    constructor
    · have hhandled := h.pc
      unfold PcHandled Handled Follows at hhandled ⊢
      rwa [ClientState.clientRunStep_pc, ClientState.clientRunStep_received,
        ClientState.clientRunStep_jobId, ClientState.clientRunStep_sigint]
    · intro pull hpull
      rw [ClientState.clientRunStep_received]
      exact h.workers pull (ClientState.mem_handed_run hj hpull)

/-- A call of an event is for a handled object. -/
theorem HandsInv.call (h : HandsInv cfg c) {event : ReportEvent} {call : AtCall}
    (hcall : call ∈ callsOf cfg accounts c event) :
    ∃ pull ∈ handledObjects cfg c.received, call.path = cstr pull.path := by
  unfold callsOf at hcall
  split at hcall
  · obtain ⟨pull, hpath, ⟨hpc, create, hcreate⟩ | hpc⟩ := calls_main hcall
    all_goals
      have hhandled := h.pc
      simp only [PcHandled, hpc] at hhandled
    · exact ⟨pull, (hhandled create hcreate).1, hpath⟩
    · exact ⟨pull, hhandled.1, hpath⟩
  · next j =>
    cases hj : c.pool.running[j]? with
    | none =>
      rw [hj] at hcall
      cases hcall
    | some r =>
      rw [hj] at hcall
      obtain ⟨pull, hpath, hobject⟩ := calls_run hcall
      exact ⟨pull, h.workers pull (ClientState.mem_handed c hj hobject), hpath⟩
  · cases hcall

/-- What every event keeps. -/
structure CallInv (cfg : ClientConfig) (s : CallingClient) : Prop where
  hands : HandsInv cfg s.run.client
  calls : ∀ call ∈ s.calls,
    ∃ pull ∈ handledObjects cfg s.run.client.received, call.path = cstr pull.path

theorem CallInv.step (h : CallInv cfg s) {event : ReportEvent}
    (hs : callStep cfg accounts s event = some s') : CallInv cfg s' := by
  obtain ⟨run, hrun, rfl⟩ := Option.map_eq_some_iff.1 hs
  constructor
  · rcases ReportingClient.reportStep_client hrun with ⟨hsame, -⟩ | ⟨e, -, hstep⟩
    · exact hsame ▸ h.hands
    · exact h.hands.step hstep
  · intro call hcall
    have hmono : handledObjects cfg s.run.client.received <+: handledObjects cfg _ :=
      handledObjects_mono (ReportingClient.reportStep_received hrun)
    have hbefore : ∃ pull ∈ handledObjects cfg s.run.client.received,
        call.path = cstr pull.path := by
      rcases List.mem_append.1 hcall with hcall | hcall
      · exact h.calls call hcall
      · exact h.hands.call hcall
    obtain ⟨pull, hpull, hpath⟩ := hbefore
    exact ⟨pull, hmono.subset hpull, hpath⟩

/-! ## Every handled object leads to a call -/

/-- The client is reading, after these messages, and has made these calls. -/
structure Reads (s : CallingClient) (received : List PullResponse) (jobId : Bytes)
    (sigint : SigintHandler) (calls : List AtCall) : Prop where
  pc : s.run.client.pc = .reading
  done : s.run.done = false
  received : s.run.client.received = received
  jobId : s.run.client.jobId = jobId
  sigint : s.run.client.sigint = sigint
  calls : calls ⊆ s.calls

variable (cfg accounts) in
/-- A script leads from one client to another. -/
def Leads (s s' : CallingClient) : Prop :=
  ∃ events, script (callStep cfg accounts) s events = some s'

theorem Leads.trans {s'' : CallingClient} (h : Leads cfg accounts s s')
    (h' : Leads cfg accounts s' s'') : Leads cfg accounts s s'' := by
  obtain ⟨events, hs⟩ := h
  obtain ⟨events', hs'⟩ := h'
  refine ⟨events ++ events', ?_⟩
  rw [script_append, hs]
  exact hs'

theorem Leads.step {event : ReportEvent} (h : callStep cfg accounts s event = some s') :
    Leads cfg accounts s s' := by
  refine ⟨[event], ?_⟩
  rw [script, h]
  rfl

/-- The main thread takes a step. -/
theorem Leads.main (hdone : s.run.done = false) (hlive : s.run.client.pc.isOver = false)
    (h : clientMainStep cfg s.run.client = some c') : Leads cfg accounts s
      ⟨{ s.run with client := c' }, s.calls ++ s.run.client.pc.calls cfg accounts⟩ := by
  have hevent : callStep cfg accounts s (.client .main) = some
      ⟨{ s.run with client := c' }, s.calls ++ s.run.client.pc.calls cfg accounts⟩ := by
    simp only [callStep, ReportingClient.reportStep, clientStep, hdone, hlive, Bool.false_eq_true,
      if_false, h, Option.map_some, callsOf]
  exact .step hevent

/-- The main thread reads a message. -/
theorem Leads.receive (hdone : s.run.done = false) (hpc : s.run.client.pc = .reading)
    (resp : PullResponse) : Leads cfg accounts s
      ⟨{ s.run with client := { handleResponse s.run.client resp with
          received := s.run.client.received ++ [resp] } }, s.calls⟩ := by
  have hevent : callStep cfg accounts s (.client (.receive (some resp))) = some
      ⟨{ s.run with client := { handleResponse s.run.client resp with
          received := s.run.client.received ++ [resp] } }, s.calls ++ []⟩ := by
    simp only [callStep, ReportingClient.reportStep, clientStep, hdone, hpc, ClientPc.isOver,
      Bool.false_eq_true, if_false, if_true, Option.map_some, callsOf]
  rw [List.append_nil] at hevent
  exact .step hevent

variable (cfg accounts) in
/-- The main thread comes back to its loop, and makes these calls on its way. -/
def Returns (s : CallingClient) (calls : List AtCall) : Prop :=
  ∃ s', Leads cfg accounts s s' ∧
    Reads s' s.run.client.received s.run.client.jobId s.run.client.sigint (s.calls ++ calls)

/-- A step of the main thread inside `HandleTransfer`, and back from there. -/
theorem Returns.main (hdone : s.run.done = false) (hlive : s.run.client.pc.isOver = false)
    (h : clientMainStep cfg s.run.client = some c') (hreceived : c'.received = s.run.client.received)
    (hjob : c'.jobId = s.run.client.jobId) (hsigint : c'.sigint = s.run.client.sigint)
    {calls rest : List AtCall}
    (hcalls : calls ⊆ s.run.client.pc.calls cfg accounts ++ rest)
    (hrest : ∀ before, Returns cfg accounts ⟨{ s.run with client := c' }, before⟩ rest) :
    Returns cfg accounts s calls := by
  obtain ⟨s', hleads, hreads⟩ := hrest (s.calls ++ s.run.client.pc.calls cfg accounts)
  refine ⟨s', (Leads.main hdone hlive h).trans hleads, ?_⟩
  rw [← hreceived, ← hjob, ← hsigint]
  refine ⟨hreads.pc, hreads.done, hreads.received, hreads.jobId, hreads.sigint,
    fun call hcall => hreads.calls ?_⟩
  rw [List.append_assoc]
  rcases List.mem_append.1 hcall with hcall | hcall
  · exact List.mem_append_left _ hcall
  · exact List.mem_append_right _ (hcalls hcall)

theorem Returns.reading (hdone : s.run.done = false) (hpc : s.run.client.pc = .reading) :
    Returns cfg accounts s [] := by
  refine ⟨s, ⟨[], rfl⟩, hpc, hdone, rfl, rfl, rfl, ?_⟩
  rw [List.append_nil]
  exact List.Subset.refl _

theorem Returns.submitting (hdone : s.run.done = false) {pull : PullObject}
    (hpc : s.run.client.pc = .submitting pull) : Returns cfg accounts s [] := by
  have hmain : clientMainStep cfg s.run.client = some { s.run.client with
      pc := .reading, pool := s.run.client.pool.submit (.fileStream pull) } := by
    simp only [clientMainStep, hpc]
  exact .main hdone (by rw [hpc]; rfl) hmain rfl rfl rfl (List.nil_subset _) fun _ => .reading hdone rfl

theorem Returns.preparing (hdone : s.run.done = false) {pull : PullObject}
    (hpc : s.run.client.pc = .preparing pull) : Returns cfg accounts s [] := by
  have hmain : clientMainStep cfg s.run.client = some { s.run.client with
      pc := .submitting pull, pool := s.run.client.pool.prepare } := by
    simp only [clientMainStep, hpc]
  exact .main hdone (by rw [hpc]; rfl) hmain rfl rfl rfl (List.nil_subset _) fun _ =>
    .submitting hdone rfl

theorem Returns.erasing (hdone : s.run.done = false) {pull : PullObject}
    (hpc : s.run.client.pc = .erasing pull) : Returns cfg accounts s [] := by
  have hmain : clientMainStep cfg s.run.client = some { s.run.client with
      pc := .reading, toComplete := s.run.client.toComplete.erase pull.path } := by
    simp only [clientMainStep, hpc]
  exact .main hdone (by rw [hpc]; rfl) hmain rfl rfl rfl (List.nil_subset _) fun _ => .reading hdone rfl

theorem Returns.settling (hdone : s.run.done = false) {pull : PullObject}
    (hpc : s.run.client.pc = .settling pull) : Returns cfg accounts s [] := by
  cases hsettles : setMetadata (cfg.calls pull.path).metadata pull with
  | true =>
    have hmain : clientMainStep cfg s.run.client = some { s.run.client with
        pc := .erasing pull, deeds := (.settled, pull.path) :: s.run.client.deeds } := by
      simp only [clientMainStep, hpc, hsettles, if_true]
    exact .main hdone (by rw [hpc]; rfl) hmain rfl rfl rfl (List.nil_subset _) fun _ =>
      .erasing hdone rfl
  | false =>
    have hmain : clientMainStep cfg s.run.client = some { s.run.client with pc := .reading } := by
      simp only [clientMainStep, hpc, hsettles, Bool.false_eq_true, if_false]
    exact .main hdone (by rw [hpc]; rfl) hmain rfl rfl rfl (List.nil_subset _) fun _ => .reading hdone rfl

theorem Returns.creating (hdone : s.run.done = false) {pull : PullObject} {call : CreateCall}
    (hpc : s.run.client.pc = .creating pull) (hcall : createCall cfg.dest pull = .ok call) :
    Returns cfg accounts s [.create call] := by
  have hcalls : [.create call] ⊆ s.run.client.pc.calls cfg accounts ++ [] := by
    simp only [hpc, ClientPc.calls, hcall, List.append_nil, List.Subset.refl]
  cases hcreates : (cfg.calls pull.path).creates with
  | true =>
    cases htransfer : pull.transfer.isSome with
    | true =>
      have hmain : clientMainStep cfg s.run.client = some { s.run.client with
          pc := .preparing pull, deeds := (.created, pull.path) :: s.run.client.deeds } := by
        simp only [clientMainStep, hpc, hcall, hcreates, htransfer, if_true]
      exact .main hdone (by rw [hpc]; rfl) hmain rfl rfl rfl hcalls fun _ => .preparing hdone rfl
    | false =>
      have hmain : clientMainStep cfg s.run.client = some { s.run.client with
          pc := .settling pull, deeds := (.created, pull.path) :: s.run.client.deeds } := by
        simp only [clientMainStep, hpc, hcall, hcreates, htransfer, Bool.false_eq_true, if_true,
          if_false]
      exact .main hdone (by rw [hpc]; rfl) hmain rfl rfl rfl hcalls fun _ => .settling hdone rfl
  | false =>
    have hmain : clientMainStep cfg s.run.client = some { s.run.client with pc := .reading } := by
      simp only [clientMainStep, hpc, hcall, hcreates, Bool.false_eq_true, if_false]
    exact .main hdone (by rw [hpc]; rfl) hmain rfl rfl rfl hcalls fun _ => .reading hdone rfl

theorem Returns.inserting (hdone : s.run.done = false) {pull : PullObject} {call : CreateCall}
    (hpc : s.run.client.pc = .inserting pull) (hcall : createCall cfg.dest pull = .ok call) :
    Returns cfg accounts s [.create call] := by
  have hmain : clientMainStep cfg s.run.client = some { s.run.client with
      pc := .creating pull, toComplete := s.run.client.toComplete.insert pull.path } := by
    simp only [clientMainStep, hpc]
  refine .main hdone (by rw [hpc]; rfl) hmain rfl rfl rfl (List.subset_append_right _ _) fun _ => ?_
  apply Returns.creating ?_ ?_ hcall
  · exact hdone
  · rfl

variable (accounts) in
/-- An object that passes the checks is created, or at least its call is made. -/
theorem leads_object (hdone : s.run.done = false) (hpc : s.run.client.pc = .reading)
    {pull : PullObject} {call : CreateCall} (hjob : s.run.client.jobId ≠ [])
    (hrelative : ¬ startsWith pull.path [slash] = true)
    (hcall : createCall cfg.dest pull = .ok call) :
    ∃ s', Leads cfg accounts s s' ∧ Reads s' (s.run.client.received ++ [.object pull])
      s.run.client.jobId s.run.client.sigint (s.calls ++ [.create call]) := by
  have hresponse : handleResponse s.run.client (.object pull) = { s.run.client with
      totalItems := max s.run.client.totalItems pull.number, pc := .inserting pull } := by
    simp only [handleResponse, hjob, hrelative, Bool.false_eq_true, if_false]
  have hreceive : Leads cfg accounts s _ := .receive hdone hpc (.object pull)
  rw [hresponse] at hreceive
  obtain ⟨s', hleads, hreads⟩ := Returns.inserting (s := ⟨{ s.run with client :=
    { s.run.client with
      totalItems := max s.run.client.totalItems pull.number
      pc := .inserting pull
      received := s.run.client.received ++ [.object pull] } }, s.calls⟩) hdone rfl hcall
  exact ⟨s', hreceive.trans hleads, hreads⟩

/-- A run for some messages: it makes a call for each handled object, and goes on reading if the
client does. -/
structure RunsThrough (cfg : ClientConfig) (accounts : Accounts) (messages : List PullResponse)
    (s : CallingClient) : Prop where
  leads : Leads cfg accounts (.start cfg) s
  received : s.run.client.received <+: messages
  calls : ∀ pull ∈ handledObjects cfg messages, ∃ call ∈ s.calls, call.path = cstr pull.path
  reads : (handlingOf cfg messages).reads = true →
    Reads s messages (handlingOf cfg messages).jobId (handlingOf cfg messages).sigint s.calls

variable {messages : List PullResponse}

/-- A message after which the client does not go on need not be read. -/
theorem RunsThrough.stop (h : RunsThrough cfg accounts messages s) {resp : PullResponse}
    (hstops : (handlingOf cfg (messages ++ [resp])).reads = false)
    (hsame : handledObjects cfg (messages ++ [resp]) = handledObjects cfg messages) :
    RunsThrough cfg accounts (messages ++ [resp]) s := by
  refine ⟨h.leads, h.received.trans (List.prefix_append _ _), ?_, ?_⟩
  · rw [hsame]
    exact h.calls
  · rw [hstops]
    exact Bool.noConfusion

/-- A message that is only read. -/
theorem RunsThrough.read (h : RunsThrough cfg accounts messages s) {resp : PullResponse}
    (hreads : (handlingOf cfg messages).reads = true)
    (hpc : (handleResponse s.run.client resp).pc = .reading)
    (hjob : (handleResponse s.run.client resp).jobId =
      (handlingOf cfg (messages ++ [resp])).jobId)
    (hsigint : (handleResponse s.run.client resp).sigint =
      (handlingOf cfg (messages ++ [resp])).sigint)
    (hsame : handledObjects cfg (messages ++ [resp]) = handledObjects cfg messages) :
    ∃ s', RunsThrough cfg accounts (messages ++ [resp]) s' := by
  have hstate := h.reads hreads
  have hreceive : Leads cfg accounts s _ := .receive hstate.done hstate.pc resp
  have hreceived : s.run.client.received ++ [resp] = messages ++ [resp] := by
    rw [hstate.received]
  refine ⟨_, h.leads.trans hreceive, ?_, ?_, fun _ => ?_⟩
  · exact hreceived ▸ List.prefix_refl _
  · rw [hsame]
    exact h.calls
  · exact ⟨hpc, hstate.done, hreceived, hjob, hsigint, List.Subset.refl _⟩

theorem RunsThrough.object (h : RunsThrough cfg accounts messages s)
    (hreads : (handlingOf cfg messages).reads = true) {pull : PullObject} {call : CreateCall}
    (hjob : (handlingOf cfg messages).jobId ≠ [])
    (hrelative : ¬ startsWith pull.path [slash] = true)
    (hcall : createCall cfg.dest pull = .ok call)
    (hstep : handlingOf cfg (messages ++ [.object pull]) =
      { handlingOf cfg messages with
        objects := (handlingOf cfg messages).objects ++ [pull] }) :
    ∃ s', RunsThrough cfg accounts (messages ++ [.object pull]) s' := by
  have hstate := h.reads hreads
  rw [← hstate.jobId] at hjob
  obtain ⟨s', hleads, hpc, hdone, hreceived, hjob', hsigint, hcalls⟩ :=
    leads_object accounts hstate.done hstate.pc hjob hrelative hcall
  rw [hstate.received] at hreceived
  refine ⟨s', h.leads.trans hleads, ?_, ?_, fun _ => ?_⟩
  · exact hreceived ▸ List.prefix_refl _
  · intro q hq
    rw [handledObjects, hstep] at hq
    rcases List.mem_append.1 hq with hq | hq
    · obtain ⟨c, hc, hpath⟩ := h.calls q hq
      exact ⟨c, hcalls (List.mem_append_left _ hc), hpath⟩
    · obtain rfl := List.mem_singleton.1 hq
      exact ⟨.create call, hcalls (List.mem_append_right _ (.head _)), createCall_path hcall⟩
  · refine ⟨hpc, hdone, hreceived, ?_, ?_, List.Subset.refl _⟩
    · rw [hjob', hstate.jobId, hstep]
    · rw [hsigint, hstate.sigint, hstep]

theorem exists_runsThrough (cfg : ClientConfig) (accounts : Accounts)
    (messages : List PullResponse) : ∃ s, RunsThrough cfg accounts messages s := by
  induction messages using List.reverseRecOn with
  | nil =>
    refine ⟨.start cfg, ⟨[], rfl⟩, List.prefix_refl _, ?_, fun _ => ?_⟩
    · rintro pull ⟨⟩
    · exact ⟨rfl, rfl, rfl, rfl, rfl, List.Subset.refl _⟩
  | append_singleton messages resp ih =>
    obtain ⟨s, h⟩ := ih
    have hstep := handling_append cfg messages resp
    rw [Handling.step.eq_def] at hstep
    cases hreads : (handlingOf cfg messages).reads with
    | false =>
      simp only [hreads, Bool.not_false, if_true] at hstep
      exact ⟨s, h.stop (by rw [hstep]; exact hreads) (by rw [handledObjects, hstep]; rfl)⟩
    | true =>
      have hstate := h.reads hreads
      rw [if_neg (by rw [hreads]; exact Bool.noConfusion)] at hstep
      cases resp with
      | unset | finished total =>
        exact ⟨s, h.stop (by rw [hstep]) (by rw [handledObjects, hstep]; rfl)⟩
      | started job =>
        simp only at hstep
        cases hactivate : (handlingOf cfg messages).sigint.activate with
        | none =>
          rw [hactivate] at hstep
          exact ⟨s, h.stop (by rw [hstep]) (by rw [handledObjects, hstep]; rfl)⟩
        | some sigint =>
          rw [hactivate] at hstep
          rw [← hstate.sigint] at hactivate
          have hresponse : handleResponse s.run.client (.started job) =
              { s.run.client with jobId := job, sigint } := by
            simp only [handleResponse, hactivate]
          exact h.read hreads (by rw [hresponse]; exact hstate.pc) (by rw [hresponse, hstep])
            (by rw [hresponse, hstep]) (by rw [handledObjects, hstep]; rfl)
      | error message =>
        exact h.read hreads hstate.pc (by rw [hstep]; exact hstate.jobId)
          (by rw [hstep]; exact hstate.sigint) (by rw [handledObjects, hstep]; rfl)
      | object pull =>
        simp only at hstep
        split at hstep
        · exact ⟨s, h.stop (by rw [hstep]) (by rw [handledObjects, hstep]; rfl)⟩
        · next hjob =>
          split at hstep
          · exact ⟨s, h.stop (by rw [hstep]) (by rw [handledObjects, hstep]; rfl)⟩
          · next hrelative =>
            split at hstep
            · exact ⟨s, h.stop (by rw [hstep]) (by rw [handledObjects, hstep]; rfl)⟩
            · next call hcall => exact h.object hreads hjob hrelative hcall hstep

end CallingClient

/-! ## Confinement -/

open CallingClient in
/-- Whatever happens while it reads these messages, the client only makes calls on paths that stay
inside its destination. -/
def StaysInDest (cfg : ClientConfig) (accounts : Accounts) (messages : List PullResponse) : Prop :=
  ∀ events s, script (callStep cfg accounts) (.start cfg) events = some s →
    s.run.client.received <+: messages → ∀ call ∈ s.calls, StaysInside call.path

/-- The path of a handled object is relative, so that only its `..` can lead outside. -/
theorem staysInside_of_handled {cfg : ClientConfig} {messages : List PullResponse}
    {pull : PullObject} (h : pull ∈ handledObjects cfg messages) :
    StaysInside (cstr pull.path) ↔ NeverAbove (cstr pull.path) := by
  rw [StaysInside, isAbsolute_cstr, ← stays_lexicalSteps]
  exact and_iff_right (relative_of_handled pull h)

open CallingClient in
/-- **The client stays inside its destination** if and only if, in the path of each object that
passes its checks before an assertion ends the process, cut at the first NUL, the `..` outnumber the
other components in no prefix. -/
theorem destination_confined_iff (cfg : ClientConfig) (accounts : Accounts)
    (messages : List PullResponse) :
    StaysInDest cfg accounts messages ↔
      ∀ pull ∈ handledObjects cfg messages, NeverAbove (cstr pull.path) := by
  constructor
  · intro h pull hpull
    obtain ⟨s, hrun⟩ := exists_runsThrough cfg accounts messages
    obtain ⟨events, hscript⟩ := hrun.leads
    obtain ⟨call, hcall, hpath⟩ := hrun.calls pull hpull
    have hinside := h events s hscript hrun.received call hcall
    rw [hpath] at hinside
    exact (staysInside_of_handled hpull).1 hinside
  · intro h events s hscript hreceived call hcall
    have hinit : CallInv cfg (.start cfg) :=
      ⟨⟨⟨rfl, rfl, rfl⟩, by rintro pull ⟨⟩⟩, by rintro call ⟨⟩⟩
    have hinv : CallInv cfg s :=
      script_invariant (fun _ _ _ hs hstep => CallInv.step hs hstep) hinit hscript
    obtain ⟨pull, hpull, hpath⟩ := hinv.calls call hcall
    have hhandled := (handledObjects_mono hreceived).subset hpull
    rw [hpath]
    exact (staysInside_of_handled hhandled).2 (h pull hhandled)

/-! ## A path that leads outside -/

/-- A system without users and groups. -/
def noAccounts : Accounts := ⟨fun _ => none, fun _ => none⟩

/-- A job, and a file next to the destination. -/
def parentMessages : List PullResponse :=
  [.started (text "1"), .object ⟨1, text "../x", .kTypeFile, ⟨0, 0, [], []⟩, ⟨⟨0, 0⟩, ⟨0, 0⟩⟩,
    some ⟨[], 0, []⟩, .nonlink ⟨0⟩⟩]

/-- The events up to the call that creates the file. -/
def parentSchedule : List ReportEvent :=
  parentMessages.map (fun resp => .client (.receive (some resp))) ++ [.client .main, .client .main]

open CallingClient in
/-- The path `../x` passes the checks of the client, which creates it next to its destination. -/
theorem parent_path_escapes :
    (script (callStep oneFailure noAccounts) (.start oneFailure) parentSchedule).map (·.calls) =
      some [.create (.openat (text "../x"))] ∧
    ¬ StaysInside (text "../x") ∧ ¬ StaysInDest oneFailure noAccounts parentMessages := by
  have hrun : (script (callStep oneFailure noAccounts) (.start oneFailure) parentSchedule).map
      (fun s => (s.calls, s.run.client.received)) =
        some ([.create (.openat (text "../x"))], parentMessages) := rfl
  have houtside : ¬ StaysInside (text "../x") := by
    rintro ⟨-, hstays⟩
    have hups := hstays [.up] ⟨[.down (text "x")], rfl⟩
    cases hups
  obtain ⟨s, hs, hends⟩ := Option.map_eq_some_iff.1 hrun
  obtain ⟨hcalls, hreceived⟩ := Prod.mk.inj hends
  refine ⟨?_, houtside, fun hconfined => houtside ?_⟩
  · rw [hs, Option.map_some, hcalls]
  · exact hconfined parentSchedule s hs (by rw [hreceived]) _ (by rw [hcalls]; exact .head _)

end Netpull
