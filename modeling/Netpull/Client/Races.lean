import Netpull.Client.Success

/-!
# Erasures that overlap

`Erase` takes no lock, so it can run while another thread inserts or erases a path. Here a thread
begins an operation on the set and ends it later. An operation that another one overlaps leaves
anything in the set; what the code does is undefined.

`client_bookkeeping` says that the books of the client are exact in the runs in which no operations
overlap, and `overlapped_erase_keeps_path` that they are not in others.
-/

namespace Netpull

open PullObject Transition ReportingClient

/-- The main thread, or the worker at some place. -/
inductive ClientThread
  | main
  | worker (j : Nat)
deriving DecidableEq

/-- The next step of the thread is an operation on the set. -/
def ClientState.standsAtSet (s : ClientState) : ClientThread → Bool
  | .main =>
    match s.pc with
    | .inserting _ | .erasing _ => true
    | _ => false
  | .worker j =>
    match s.pool.running[j]? with
    | some (.erasing _) => true
    | _ => false

/-- A client with what its threads are inside of: `none` if it is no operation on the set, and else
whether another one has overlapped it. There is one entry for each busy worker. -/
structure RacingClient where
  run : ReportingClient
  main : Option Bool
  workers : List (Option Bool)

/-- A thread begins an operation on the set, or an event of the client, which may be its end. `left`
is what an overlapped operation leaves in the set. -/
inductive RaceEvent
  | enter (thread : ClientThread)
  | client (event : ReportEvent) (left : GuardedSet Bytes)

/-- The thread whose operation an event ends. -/
def ReportEvent.ends (s : ClientState) (event : ReportEvent) : Option ClientThread :=
  match event with
  | .client .main => if s.standsAtSet .main then some .main else none
  | .client (.run j) => if s.standsAtSet (.worker j) then some (.worker j) else none
  | _ => none

namespace RacingClient

def start (cfg : ClientConfig) : RacingClient where
  run := .start cfg
  main := none
  workers := []

/-- What the thread is inside of, if it is busy at all. -/
def at? (t : RacingClient) : ClientThread → Option (Option Bool)
  | .main => some t.main
  | .worker j => t.workers[j]?

def put (t : RacingClient) (inside : Option Bool) : ClientThread → RacingClient
  | .main => { t with main := inside }
  | .worker j => { t with workers := t.workers.set j inside }

/-- A thread is inside an operation. -/
def busy (t : RacingClient) : Bool := t.main.isSome || t.workers.any Option.isSome

/-- The thread begins an operation, which overlaps those that others are inside of. -/
def enter (t : RacingClient) (thread : ClientThread) : RacingClient :=
  if t.busy then
    put { t with
      main := t.main.map fun _ => true
      workers := t.workers.map fun inside => inside.map fun _ => true } (some true) thread
  else put t (some false) thread

/-- The entries after an event that ends no operation: a worker takes a task, or is free again. -/
def follow (t : RacingClient) : ReportEvent → List (Option Bool)
  | .client (.pop _) => t.workers ++ [none]
  | .client (.run j) =>
    match t.run.client.pool.running[j]? with
    | some .returned => t.workers.eraseIdx j
    | _ => t.workers
  | _ => t.workers

end RacingClient

/-- The set is left with some contents. -/
def ReportingClient.leave (s : ReportingClient) (left : GuardedSet Bytes) : ReportingClient :=
  { s with client := { s.client with toComplete := left } }

/-- An event. A thread ends an operation that it has begun. -/
def raceStep (cfg : ClientConfig) (t : RacingClient) : RaceEvent → Option RacingClient
  | .enter thread =>
    if t.run.client.pc.isOver = false ∧ t.run.client.standsAtSet thread ∧
        t.at? thread = some none then
      some (t.enter thread)
    else none
  | .client event left =>
    match event.ends t.run.client with
    | none => (reportStep cfg t.run event).map fun run => { t with run, workers := t.follow event }
    | some thread =>
      match t.at? thread with
      | some (some overlapped) => (reportStep cfg t.run event).map fun run =>
          RacingClient.put { t with run := if overlapped then run.leave left else run } none thread
      | _ => none

/-- No operation on the set is begun while a thread is inside another. -/
def NoOverlap (t : RacingClient) : RaceEvent → Prop
  | .enter _ => t.busy = false
  | .client _ _ => True

instance (t : RacingClient) : DecidablePred (NoOverlap t)
  | .enter _ => inferInstanceAs (Decidable (_ = _))
  | .client _ _ => isTrue trivial

/-! ## Runs without overlaps -/

/-- No operation that a thread is inside of was overlapped. -/
structure Calm (t : RacingClient) : Prop where
  main : t.main ≠ some true
  workers : some true ∉ t.workers

namespace Calm

variable {cfg : ClientConfig} {t t' : RacingClient}

theorem start (cfg : ClientConfig) : Calm (.start cfg) := ⟨nofun, List.not_mem_nil⟩

theorem put (h : Calm t) {inside : Option Bool} (hinside : inside ≠ some true)
    (thread : ClientThread) : Calm (t.put inside thread) := by
  cases thread with
  | main => exact ⟨hinside, h.workers⟩
  | worker j =>
    refine ⟨h.main, fun hmem => ?_⟩
    rcases List.mem_or_eq_of_mem_set hmem with hold | hnew
    · exact h.workers hold
    · exact hinside hnew.symm

theorem at? (h : Calm t) {thread : ClientThread} : t.at? thread ≠ some (some true) := by
  cases thread with
  | main => exact fun hat => h.main (Option.some.inj hat)
  | worker j => exact fun hat => h.workers (List.mem_of_getElem? hat)

theorem follow (h : Calm t) (event : ReportEvent) : some true ∉ t.follow event := by
  unfold RacingClient.follow
  split
  · rw [List.mem_append, not_or]
    exact ⟨h.workers, by simp⟩
  · split
    · exact fun hmem => h.workers (List.mem_of_mem_eraseIdx hmem)
    · exact h.workers
  · exact h.workers

/-- **Without overlaps the client is the one with atomic steps.** -/
theorem step (h : Calm t) {event : RaceEvent} (hgood : NoOverlap t event)
    (hs : raceStep cfg t event = some t') :
    Calm t' ∧ (t'.run = t.run ∨ ∃ e, reportStep cfg t.run e = some t'.run) := by
  cases event with
  | enter thread =>
    simp only [raceStep] at hs
    split at hs
    · obtain rfl := Option.some.inj hs
      have hbusy : t.busy = false := hgood
      rw [RacingClient.enter, hbusy, if_neg Bool.false_ne_true]
      refine ⟨h.put (by simp) thread, .inl ?_⟩
      cases thread <;> rfl
    · cases hs
  | client event left =>
    simp only [raceStep] at hs
    split at hs
    · obtain ⟨run, hrun, rfl⟩ := Option.map_eq_some_iff.1 hs
      exact ⟨⟨h.main, h.follow event⟩, .inr ⟨event, hrun⟩⟩
    · next thread _ =>
      split at hs
      · next overlapped hat =>
        obtain ⟨run, hrun, rfl⟩ := Option.map_eq_some_iff.1 hs
        -- The operation was not overlapped, so it leaves what it does by itself.
        obtain rfl : overlapped = false := by
          cases overlapped with
          | false => rfl
          | true => exact absurd hat h.at?
        have hrest : Calm { t with run := if false = true then run.leave left else run } :=
          ⟨h.main, h.workers⟩
        refine ⟨hrest.put (by simp) thread, .inr ⟨event, ?_⟩⟩
        cases thread <;> exact hrun
      · cases hs

end Calm

/-- The books of a client whose operations were not overlapped. -/
structure CalmBooks (cfg : ClientConfig) (t : RacingClient) : Prop extends Calm t where
  books : ((objectsOf t.run.client.received).map (·.path)).Nodup → ReportInv cfg t.run

theorem CalmBooks.step {cfg : ClientConfig} {t t' : RacingClient} (h : CalmBooks cfg t)
    (hfinish : ∀ path, (cfg.calls path).integrity.finish.isSome) {event : RaceEvent}
    (hgood : NoOverlap t event) (hs : raceStep cfg t event = some t') : CalmBooks cfg t' := by
  obtain ⟨hcalm, hrun⟩ := h.toCalm.step hgood hs
  refine ⟨hcalm, fun hdistinct => ?_⟩
  rcases hrun with hsame | ⟨e, he⟩
  · rw [hsame] at hdistinct ⊢
    exact h.books hdistinct
  · refine (h.books ?_).step hfinish he hdistinct
    exact hdistinct.sublist (((reportStep_received he).filterMap _).sublist.map _)

/-- **The books of the client** are exact, whatever its calls come to, in every run of the main
thread and any number of workers in which no `Erase` overlaps another operation on the set. -/
theorem client_bookkeeping (cfg : ClientConfig)
    (hhashes : ∀ path, (cfg.calls path).integrity.hashes = true) (events : List RaceEvent)
    (hcalm : EachStep (raceStep cfg) NoOverlap (.start cfg) events) :
    EachState (raceStep cfg)
      (fun t => ((objectsOf t.run.client.received).map (·.path)).Nodup → Booked cfg t.run)
      (.start cfg) events := by
  have hfinish : ∀ path, (cfg.calls path).integrity.finish.isSome := by
    intro path
    rw [IntegrityCalls.finish_isSome]
    exact hhashes path
  have hinit : CalmBooks cfg (.start cfg) := ⟨Calm.start cfg, fun _ => .start cfg⟩
  have hall : EachState (raceStep cfg) (CalmBooks cfg) (.start cfg) events := by
    apply eachState_of_steps hinit
    intro before event after t t' hevents ht hbooks hs
    exact hbooks.step hfinish (hcalm before event after t hevents ht) hs
  intro before after t hevents ht hdistinct
  exact ((hall before after t hevents ht).books hdistinct).booked hfinish hdistinct

/-- The object of an empty file, or of a directory. -/
def emptyObject (path : Bytes) (type : PullObject.Type) : RaceEvent :=
  let transfer := if type = .kTypeFile then some ⟨hexlify emptyDigest, 0, []⟩ else none
  .client (.client (.receive (some (.object
    ⟨1, path, type, ⟨0, 0, [], []⟩, ⟨⟨0, 0⟩, ⟨0, 0⟩⟩, transfer, .nonlink ⟨0⟩⟩)))) .empty

/-- Events that end no operation that another one overlaps. -/
def undisturbed (events : List ReportEvent) : List RaceEvent := events.map (.client · .empty)

/-- The file `f` is received and streamed. -/
def fileStreamed : List RaceEvent :=
  undisturbed [.client (.receive (some (.started (text "1"))))] ++
  [emptyObject (text "f") .kTypeFile, .enter .main] ++
  undisturbed ([.main, .main, .main, .main, .pop 0, .run 0, .run 0].map .client)

/-- The directory `d`, whose call fails, while a worker is at the file. -/
def oneFailureSchedule : List RaceEvent :=
  fileStreamed ++ [emptyObject (text "d") .kTypeDirectory] ++
  undisturbed ([.run 0, .run 0].map .client) ++ [.enter .main] ++
  undisturbed ([.main, .pop 0, .run 0, .run 0].map .client) ++ [.enter (.worker 0)] ++
  undisturbed [.client (.run 0), .connect 0 true, .client .main, .send 0,
    .client (.receive (some (.finished 2))), .client (.run 0), .client .main]

theorem client_bookkeeping_oneFailure :
    ∃ t, script (raceStep oneFailure) (.start oneFailure) oneFailureSchedule = some t ∧
      t.run.client.pc = .reported {text "d"} ∧ t.run.sent = [.success (text "1") (text "f")] ∧
      (∃ pull ∈ objectsOf t.run.client.received, pull.path = text "d" ∧ oneFailure.Fails pull) ∧
      ∃ pull, Earned oneFailure t.run.client pull ∧ pull.path = text "f" := by
  have hends : (script (raceStep oneFailure) (.start oneFailure) oneFailureSchedule).map (fun t =>
      (t.run.client.pc, t.run.sent, (objectsOf t.run.client.received).map (·.path))) =
      some (.reported {text "d"}, [.success (text "1") (text "f")], [text "f", text "d"]) := rfl
  obtain ⟨t, hrun, ht⟩ := Option.map_eq_some_iff.1 hends
  obtain ⟨hreported, hrest⟩ := Prod.mk.inj ht
  obtain ⟨hsent, hpaths⟩ := Prod.mk.inj hrest
  have hcalm : EachStep (raceStep oneFailure) NoOverlap (.start oneFailure) oneFailureSchedule :=
    eachStep_of_along (by decide +kernel)
  have hbooked := client_bookkeeping oneFailure (fun _ => rfl) oneFailureSchedule hcalm
    oneFailureSchedule [] t (List.append_nil _).symm hrun (by rw [hpaths]; decide)
  refine ⟨t, hrun, hreported, hsent, (hbooked.incomplete _ hreported _).1 ?_, ?_⟩
  · exact Finset.mem_singleton_self _
  · have hmem : PullRequest.success (text "1") (text "f") ∈ t.run.sent := by
      rw [hsent]
      exact .head _
    obtain ⟨pull, -, hearned, hpath, -⟩ := hbooked.earned (text "1") (text "f") hmem
    exact ⟨pull, hearned, hpath⟩

/-- The directory `e` is inserted while a worker erases the path of the file. The set grows, and the
erased slot has already been moved. -/
def overlappedErase : List RaceEvent :=
  fileStreamed ++ [emptyObject (text "e") .kTypeDirectory] ++
  undisturbed ([.run 0, .run 0, .pop 0, .run 0, .run 0].map .client) ++
  [.enter .main, .enter (.worker 0),
    .client (.client (.run 0)) ⟨{text "f"}⟩, .client (.client .main) ⟨{text "f", text "e"}⟩] ++
  undisturbed [.connect 0 true, .send 0, .client .main, .client .main] ++ [.enter .main] ++
  undisturbed [.client .main, .client (.receive (some (.finished 2))), .client (.run 0),
    .client .main]

/-- No step of an object fails and the success of the file is reported, which is listed as not
complete nevertheless. -/
theorem overlapped_erase_keeps_path :
    ∃ t, script (raceStep oneFailure) (.start oneFailure) overlappedErase = some t ∧
      t.run.client.pc = .reported {text "f"} ∧ t.run.sent = [.success (text "1") (text "f")] ∧
      (∀ pull ∈ objectsOf t.run.client.received, ¬ oneFailure.Fails pull) ∧
      ¬ Booked oneFailure t.run := by
  have hends : (script (raceStep oneFailure) (.start oneFailure) overlappedErase).map (fun t =>
      (t.run.client.pc, t.run.sent, objectsOf t.run.client.received)) =
      some (.reported {text "f"}, [.success (text "1") (text "f")],
        [⟨1, text "f", .kTypeFile, ⟨0, 0, [], []⟩, ⟨⟨0, 0⟩, ⟨0, 0⟩⟩,
            some ⟨hexlify emptyDigest, 0, []⟩, .nonlink ⟨0⟩⟩,
          ⟨1, text "e", .kTypeDirectory, ⟨0, 0, [], []⟩, ⟨⟨0, 0⟩, ⟨0, 0⟩⟩, none,
            .nonlink ⟨0⟩⟩]) := rfl
  obtain ⟨t, hrun, ht⟩ := Option.map_eq_some_iff.1 hends
  obtain ⟨hreported, hrest⟩ := Prod.mk.inj ht
  obtain ⟨hsent, hobjects⟩ := Prod.mk.inj hrest
  have hsucceed : ∀ pull ∈ objectsOf t.run.client.received, ¬ oneFailure.Fails pull := by
    rw [hobjects, List.forall_mem_cons, List.forall_mem_singleton]
    unfold ClientConfig.Fails
    decide +kernel
  refine ⟨t, hrun, hreported, hsent, hsucceed, fun hbooked => ?_⟩
  obtain ⟨pull, hpull, -, hfails⟩ :=
    (hbooked.incomplete _ hreported (text "f")).1 (Finset.mem_singleton_self _)
  exact hsucceed pull hpull hfails

end Netpull
