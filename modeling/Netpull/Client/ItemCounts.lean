import Mathlib.Data.Int.Interval
import Netpull.Client.Stages

/-!
# The item counts

`total_items_transferred` is raised by the main thread for an entry and by a worker for a file;
`total_items` is the greatest number received so far. The console thread loads one after the other.

An object is received once and counted at most once (`CountBooks.held`), and as the numbers of the
objects are different and positive, there are no more objects than the greatest of their numbers.
-/

namespace Netpull

open Transition
open scoped List

/-! ## The program -/

/-- The object for which an event raises `total_items_transferred`. The main thread does so in
`HandleTransfer` before it sets the metadata, a worker in `FileStreamTask::Run` after its loop. -/
def ClientState.counts (cfg : ClientConfig) (s : ClientState) : ClientEvent → Option PullObject
  | .main =>
    match s.pc with
    | .creating pull =>
      match createCall cfg.dest pull with
      | .error _ => none
      | .ok _ =>
        if (cfg.calls pull.path).creates ∧ pull.transfer.isNone then some pull else none
    | _ => none
  | .run j =>
    match s.pool.running[j]? with
    | some (.streaming pull) =>
      if (cfg.calls pull.path).stream.completes (pull.transfer.getD ⟨[], 0, []⟩).bytes then
        some pull
      else none
    | _ => none
  | .receive _ | .pop _ | .overrun _ _ => none

/-- A step of the client. After a read that fails, the main thread waits for the workers, which go
on with their tasks. -/
def clientStepOn (cfg : ClientConfig) (s : ClientState) : ClientEvent → Option ClientState
  | .run j =>
    if s.pc = .failed then s.pool.running[j]?.map (clientRunStep cfg s j)
    else clientStep cfg s (.run j)
  | event => clientStep cfg s event

/-- The client with its console thread. `counted` are the objects that raised `transferred`,
`loaded` is what the console thread has loaded of it, and `shown` are the pairs it printed. -/
structure CountState where
  client : ClientState
  transferred : Int64
  counted : List PullObject
  loaded : Option Int64
  shown : List (Int64 × Int64)

def CountState.start (cfg : ClientConfig) : CountState where
  client := .start cfg
  transferred := 0
  counted := []
  loaded := none
  shown := []

inductive CountEvent
  | client (event : ClientEvent)
  | loadTransferred
  | loadTotal
deriving DecidableEq

def CountState.raise (s : CountState) : Option PullObject → CountState
  | some pull => { s with transferred := s.transferred + 1, counted := pull :: s.counted }
  | none => s

def countStep (cfg : ClientConfig) (s : CountState) : CountEvent → Option CountState
  | .client event =>
    (clientStepOn cfg s.client event).map fun client =>
      { s.raise (s.client.counts cfg event) with client }
  | .loadTransferred =>
    if s.client.pc ≠ .dead ∧ s.loaded = none then some { s with loaded := some s.transferred }
    else none
  | .loadTotal =>
    if s.client.pc = .dead then none
    else
      s.loaded.map fun transferred =>
        { s with loaded := none, shown := s.shown ++ [(transferred, s.client.totalItems)] }

/-- The objects have different positive numbers. -/
structure Numbered (objects : List PullObject) : Prop where
  distinct : (objects.map (·.number)).Nodup
  positive : ∀ pull ∈ objects, 0 < pull.number

/-! ## What an event counts -/

namespace ClientState

variable {cfg : ClientConfig} {s s' : ClientState}

/-- A worker lets go of the file that it streamed, and takes no other one up. -/
theorem early_run_perm {j : Nat} {r : ClientRun} (hj : s.pool.running[j]? = some r) :
    r.early.toList ++ (clientRunStep cfg s j r).early ~ s.early := by
  have hpc : (clientRunStep cfg s j r).early = s.pc.early.toList ++
      (clientRunStep cfg s j r).pool.work ClientTask.early ClientRun.early := by
    rw [early, clientRunStep_pc]
  suffices hwork : r.early.toList ++
      (clientRunStep cfg s j r).pool.work ClientTask.early ClientRun.early ~
        s.pool.work ClientTask.early ClientRun.early by
    rw [hpc, early]
    calc r.early.toList ++ (s.pc.early.toList ++ _)
      _ ~ s.pc.early.toList ++ (r.early.toList ++ _) := by
        rw [← List.append_assoc, ← List.append_assoc]
        exact List.perm_append_comm.append_right _
      _ ~ s.pc.early.toList ++ s.pool.work ClientTask.early ClientRun.early := hwork.append_left _
  have hgoOn : ∀ r', ClientRun.early r' = none → r.early.toList ++
      (s.pool.goOn j r').work ClientTask.early ClientRun.early ~
        s.pool.work ClientTask.early ClientRun.early := by
    intro r' hr'
    have hwork := WorkerPool.work_goOn (f := ClientTask.early) (g := ClientRun.early) hj r'
    rwa [hr'] at hwork
  cases r with
  | streaming q | settling q | checking q =>
    simp only [clientRunStep]
    split <;> exact hgoOn _ rfl
  | preparing q => exact hgoOn (.submitting q) rfl
  | submitting q =>
    have hsubmit := WorkerPool.work_submit (f := ClientTask.early) (g := ClientRun.early)
      (s.pool.goOn j .returned) (.fileIntegrity q)
    exact hsubmit.trans (hgoOn .returned rfl)
  | erasing q => exact hgoOn .returned rfl
  | returned => exact WorkerPool.work_removePending hj rfl

theorem counts_run {j : Nat} {r : ClientRun} (hj : s.pool.running[j]? = some r) :
    (s.counts cfg (.run j)).toList <+ r.early.toList := by
  simp only [counts, hj]
  cases r with
  | streaming q =>
    simp only
    split
    · exact .refl _
    · exact List.nil_sublist _
  | preparing q | submitting q | checking q | settling q | erasing q => exact .refl _
  | returned => exact .refl _

/-- The main thread has let go of its object. -/
theorem early_subperm_of_idle (hpc : s'.pc.early = none) (hpool : s'.pool = s.pool) :
    s'.early <+~ s.early := by
  rw [early, early, hpc, hpool]
  exact (List.sublist_append_right _ _).subperm

/-- An entry is counted when it is created, and the main thread lets go of it. -/
theorem counts_main (hs : clientMainStep cfg s = some s') :
    (s.counts cfg .main).toList ++ s'.early <+~ s.early := by
  cases clientMainStep_cases hs with
  | inserts pull hpc | prepares pull hpc =>
    rw [counts, hpc, early, early, hpc]
    exact .refl _
  | asserts pull fault hpc hcall =>
    simp only [counts, hpc, hcall]
    exact early_subperm_of_idle rfl rfl
  | createsFile pull call hpc hcall hcreates htransfer =>
    have hsome : pull.transfer.isNone = false := Option.isNone_eq_false_iff.2 htransfer
    simp only [counts, hpc, hcall, hsome, Bool.false_eq_true, and_false, if_false]
    rw [early, early, hpc]
    exact .refl _
  | createsEntry pull call hpc hcall hcreates htransfer =>
    simp only [counts, hpc, hcall, hcreates, htransfer, Option.isNone_none, and_self, if_true]
    rw [early, early, hpc]
    exact .refl _
  | notCreated pull call hpc hcall hcreates =>
    simp only [counts, hpc, hcall, hcreates, Bool.false_eq_true, false_and, if_false]
    exact early_subperm_of_idle rfl rfl
  | submits pull hpc =>
    have hsubmit := WorkerPool.work_submit (f := ClientTask.early) (g := ClientRun.early) s.pool
      (.fileStream pull)
    rw [counts, hpc, early, early, hpc]
    exact hsubmit.subperm
  | settles pull hpc | notSettled pull hpc | erases pull hpc | reports hpc =>
    rw [counts, hpc]
    exact early_subperm_of_idle rfl rfl

theorem totalItems_main (hs : clientMainStep cfg s = some s') : s'.totalItems = s.totalItems := by
  cases clientMainStep_cases hs <;> rfl

theorem totalItems_run (cfg : ClientConfig) (s : ClientState) (j : Nat) (r : ClientRun) :
    (clientRunStep cfg s j r).totalItems = s.totalItems := by
  cases r <;> simp only [clientRunStep] <;> split <;> rfl

/-- A step of the client, or of a worker after a read that failed. -/
theorem clientStepOn_cases {event : ClientEvent} (hs : clientStepOn cfg s event = some s') :
    clientStep cfg s event = some s' ∨ ∃ (j : Nat) (r : ClientRun),
      event = .run j ∧ s.pool.running[j]? = some r ∧ s' = clientRunStep cfg s j r := by
  unfold clientStepOn at hs
  split at hs
  · next j =>
    split at hs
    · obtain ⟨r, hj, hr⟩ := Option.map_eq_some_iff.1 hs
      exact .inr ⟨j, r, rfl, hj, hr.symm⟩
    · exact .inl hs
  · exact .inl hs

end ClientState

/-- What was counted and what is yet to be counted are different received objects, and the total is
no less than the number of any. -/
structure CountBooks (s : ClientState) (counted : List PullObject) : Prop where
  held : counted ++ s.early <+~ objectsOf s.received
  total : ∀ pull ∈ objectsOf s.received, pull.number ≤ s.totalItems
  nonneg : 0 ≤ s.totalItems

theorem le_max_int64 (a b : Int64) : a ≤ max a b ∧ b ≤ max a b := by
  change a ≤ (if a ≤ b then b else a) ∧ b ≤ (if a ≤ b then b else a)
  split
  · next h => exact ⟨h, Int64.le_refl b⟩
  · next h => exact ⟨Int64.le_refl a, Int64.le_of_lt (Int64.not_le.1 h)⟩

namespace CountBooks

open ClientState

variable {cfg : ClientConfig} {s s' : ClientState} {counted : List PullObject}

theorem start (cfg : ClientConfig) : CountBooks (.start cfg) [] :=
  ⟨.refl _, by rintro pull ⟨⟩, Int64.le_refl 0⟩

/-- An event that brings no object. -/
theorem moves (h : CountBooks s counted) {new : Option PullObject}
    (hreceived : objectsOf s'.received = objectsOf s.received)
    (htotal : s'.totalItems = s.totalItems) (hearly : new.toList ++ s'.early <+~ s.early) :
    CountBooks s' (new.toList ++ counted) := by
  refine ⟨?_, ?_, ?_⟩
  · rw [hreceived]
    have hperm : new.toList ++ counted ++ s'.early ~ counted ++ (new.toList ++ s'.early) := by
      rw [← List.append_assoc]
      exact List.perm_append_comm.append_right _
    exact hperm.subperm.trans (((List.subperm_append_left counted).2 hearly).trans h.held)
  · rw [hreceived, htotal]
    exact h.total
  · rw [htotal]
    exact h.nonneg

/-- An object is received. -/
theorem object (h : CountBooks s counted) {pull : PullObject}
    (hreceived : objectsOf s'.received = objectsOf s.received ++ [pull])
    (htotal : s'.totalItems = max s.totalItems pull.number)
    (hearly : s'.early <+~ pull :: s.early) : CountBooks s' counted := by
  obtain ⟨hold, hnew⟩ := le_max_int64 s.totalItems pull.number
  refine ⟨?_, ?_, ?_⟩
  · rw [hreceived]
    have hperm : counted ++ pull :: s.early ~ pull :: (counted ++ s.early) := List.perm_middle
    have hlast := (List.perm_append_singleton pull (objectsOf s.received)).symm
    have hcounted : counted ++ s'.early <+~ pull :: (counted ++ s.early) :=
      ((List.subperm_append_left counted).2 hearly).trans hperm.subperm
    exact (hcounted.trans ((List.subperm_cons pull).2 h.held)).trans hlast.subperm
  · intro q hq
    rw [hreceived, List.mem_append, List.mem_singleton] at hq
    rw [htotal]
    rcases hq with hq | rfl
    · exact Int64.le_trans (h.total q hq) hold
    · exact hnew
  · rw [htotal]
    exact Int64.le_trans h.nonneg hold

theorem receive (h : CountBooks s counted) (hpc : s.pc = .reading) (resp : PullResponse) :
    CountBooks { handleResponse s resp with received := s.received ++ [resp] } counted ∧
      s.totalItems ≤ (handleResponse s resp).totalItems := by
  have hsame : ∀ {c : ClientState}, c.early = s.early →
      objectsOf c.received = objectsOf s.received → c.totalItems = s.totalItems →
      CountBooks c counted := by
    intro c hearly hreceived htotal
    have hnone : (none : Option PullObject).toList ++ c.early <+~ s.early := hearly ▸ .refl _
    exact h.moves hreceived htotal hnone
  have hnone : s.early = s.pool.work ClientTask.early ClientRun.early := by
    rw [early, hpc]
    rfl
  have hbrings := objectsOf_append s.received [resp]
  cases resp with
  | object pull =>
    have hold := (le_max_int64 s.totalItems pull.number).1
    rw [handleResponse_object]
    refine ⟨h.object hbrings rfl ?_, hold⟩
    rw [hnone, early]
    simp only
    split
    · exact (List.sublist_cons_self _ _).subperm
    · exact .refl _
  | started job =>
    rw [handleResponse_started, hpc]
    refine ⟨hsame ?_ (hbrings.trans (List.append_nil _)) rfl, Int64.le_refl _⟩
    rw [hnone, early]
    simp only
    split <;> rfl
  | error message =>
    refine ⟨hsame ?_ (hbrings.trans (List.append_nil _)) rfl, Int64.le_refl _⟩
    rfl
  | unset | finished total =>
    refine ⟨hsame ?_ (hbrings.trans (List.append_nil _)) rfl, Int64.le_refl _⟩
    rw [hnone]
    rfl

theorem run (h : CountBooks s counted) {j : Nat} {r : ClientRun}
    (hj : s.pool.running[j]? = some r) :
    CountBooks (clientRunStep cfg s j r) ((s.counts cfg (.run j)).toList ++ counted) := by
  refine h.moves (by rw [clientRunStep_received]) (totalItems_run cfg s j r) ?_
  have hcounts : (s.counts cfg (.run j)).toList <+ r.early.toList := counts_run hj
  exact (hcounts.append_right _).subperm.trans (early_run_perm hj).subperm

theorem step (h : CountBooks s counted) {event : ClientEvent}
    (hs : clientStep cfg s event = some s') :
    CountBooks s' ((s.counts cfg event).toList ++ counted) ∧ s.totalItems ≤ s'.totalItems := by
  cases clientStep_cases hs with
  | receives resp hpc => exact h.receive hpc resp
  | loses | overruns =>
    refine ⟨h.moves rfl rfl ?_, Int64.le_refl _⟩
    exact (List.sublist_append_right _ _).subperm
  | main hmain =>
    have htotal := totalItems_main hmain
    refine ⟨h.moves (by rw [clientMainStep_received hmain]) htotal (counts_main hmain), ?_⟩
    rw [htotal]
    exact Int64.le_refl _
  | pops i pool hpop =>
    have hwork := WorkerPool.work_waitForTaskAndPop (f := ClientTask.early)
      (g := ClientRun.early) (by rintro (_ | _) <;> rfl) hpop
    refine ⟨h.moves rfl rfl ?_, Int64.le_refl _⟩
    exact (hwork.append_left _).subperm
  | runs j r hj =>
    refine ⟨h.run hj, ?_⟩
    rw [totalItems_run]
    exact Int64.le_refl _

theorem stepOn (h : CountBooks s counted) {event : ClientEvent}
    (hs : clientStepOn cfg s event = some s') :
    CountBooks s' ((s.counts cfg event).toList ++ counted) ∧ s.totalItems ≤ s'.totalItems := by
  rcases clientStepOn_cases hs with hstep | ⟨j, r, rfl, hj, rfl⟩
  · exact h.step hstep
  · refine ⟨h.run hj, ?_⟩
    rw [totalItems_run]
    exact Int64.le_refl _

/-- There are no more objects than the greatest of their numbers. -/
theorem length_le (h : CountBooks s counted) (hnumbered : Numbered (objectsOf s.received)) :
    (counted.length : Int) ≤ s.totalItems.toInt := by
  have hcounted : counted <+~ objectsOf s.received :=
    (List.sublist_append_left counted s.early).subperm.trans h.held
  let numbers := counted.map fun pull => pull.number.toInt
  have hnodup : numbers.Nodup := by
    have hdistinct := ReportingClient.nodup_of_subperm
      (ReportingClient.map_subperm (·.number) hcounted) hnumbered.distinct
    have hmap := hdistinct.map fun _ _ => Int64.toInt_inj.1
    rwa [List.map_map] at hmap
  have hrange : numbers.toFinset ⊆ Finset.Icc 1 s.totalItems.toInt := by
    intro number hnumber
    obtain ⟨pull, hpull, rfl⟩ := List.mem_map.1 (List.mem_toFinset.1 hnumber)
    have hpositive := Int64.lt_iff_toInt_lt.1 (hnumbered.positive pull (hcounted.subset hpull))
    have htotal := Int64.le_iff_toInt_le.1 (h.total pull (hcounted.subset hpull))
    exact Finset.mem_Icc.2 ⟨hpositive, htotal⟩
  have hnonneg : 0 ≤ s.totalItems.toInt := Int64.le_iff_toInt_le.1 h.nonneg
  have hcard := Finset.card_le_card hrange
  rw [List.toFinset_card_of_nodup hnodup, List.length_map, Int.card_Icc] at hcard
  omega

end CountBooks

/-! ## The console thread -/

/-- What the console thread has loaded, and what it printed. -/
structure Shown (s : CountState) : Prop where
  loaded : ∀ transferred ∈ s.loaded, transferred ≤ s.client.totalItems
  shown : ∀ pair ∈ s.shown, pair.1 ≤ pair.2

theorem Numbered.of_prefix {objects objects' : List PullObject} (h : Numbered objects')
    (hfirst : objects <+: objects') : Numbered objects where
  distinct := h.distinct.sublist (hfirst.sublist.map _)
  positive pull hpull := h.positive pull (hfirst.subset hpull)

namespace CountState

@[simp] theorem raise_counted (s : CountState) (new : Option PullObject) :
    (s.raise new).counted = new.toList ++ s.counted := by
  cases new <;> rfl

@[simp] theorem raise_loaded (s : CountState) (new : Option PullObject) :
    (s.raise new).loaded = s.loaded := by
  cases new <;> rfl

@[simp] theorem raise_shown (s : CountState) (new : Option PullObject) :
    (s.raise new).shown = s.shown := by
  cases new <;> rfl

theorem raise_transferred {s : CountState} (h : s.transferred = Int64.ofNat s.counted.length)
    (new : Option PullObject) :
    (s.raise new).transferred = Int64.ofNat (s.raise new).counted.length := by
  cases new with
  | none => exact h
  | some pull =>
    change s.transferred + 1 = Int64.ofNat (s.counted.length + 1)
    rw [h, Int64.ofNat_add]
    rfl

end CountState

theorem objectsOf_stepOn {cfg : ClientConfig} {s s' : ClientState} {event : ClientEvent}
    (hs : clientStepOn cfg s event = some s') : objectsOf s.received <+: objectsOf s'.received := by
  rcases ClientState.clientStepOn_cases hs with hstep | ⟨j, r, -, -, rfl⟩
  · rcases clientStep_received hstep with hsame | ⟨resp, -, happend⟩
    · rw [hsame]
    · rw [happend, objectsOf_append]
      exact List.prefix_append _ _
  · rw [ClientState.clientRunStep_received]

structure CountInv (s : CountState) : Prop where
  books : CountBooks s.client s.counted
  transferred : s.transferred = Int64.ofNat s.counted.length
  shown : Numbered (objectsOf s.client.received) → Shown s

namespace CountInv

variable {cfg : ClientConfig} {s s' : CountState}

theorem start (cfg : ClientConfig) : CountInv (.start cfg) :=
  ⟨.start cfg, rfl, fun _ => ⟨by rintro t ⟨⟩, by rintro pair ⟨⟩⟩⟩

/-- The count does not overflow, as the total does not. -/
theorem toInt_transferred (h : CountInv s) (hnumbered : Numbered (objectsOf s.client.received)) :
    s.transferred.toInt = s.counted.length := by
  have hlength := h.books.length_le hnumbered
  have hlt := Int64.toInt_lt s.client.totalItems
  rw [h.transferred, Int64.toInt_ofNat_of_lt (by omega)]

theorem step (h : CountInv s) {event : CountEvent} (hs : countStep cfg s event = some s') :
    CountInv s' := by
  cases event with
  | client event =>
    obtain ⟨client, hclient, rfl⟩ := Option.map_eq_some_iff.1 hs
    obtain ⟨hbooks, htotal⟩ := h.books.stepOn hclient
    refine ⟨?_, s.raise_transferred h.transferred _, fun hnumbered => ?_⟩
    · simpa using hbooks
    · have hold := h.shown (hnumbered.of_prefix (objectsOf_stepOn hclient))
      constructor
      · intro transferred hloaded
        rw [CountState.raise_loaded] at hloaded
        exact Int64.le_trans (hold.loaded transferred hloaded) htotal
      · simpa using hold.shown
  | loadTransferred =>
    simp only [countStep] at hs
    split at hs
    · obtain rfl := Option.some.inj hs
      refine ⟨h.books, h.transferred, fun hnumbered => ⟨?_, (h.shown hnumbered).shown⟩⟩
      intro transferred hloaded
      obtain rfl := Option.some.inj hloaded
      rw [Int64.le_iff_toInt_le, h.toInt_transferred hnumbered]
      exact h.books.length_le hnumbered
    · cases hs
  | loadTotal =>
    simp only [countStep] at hs
    split at hs
    · cases hs
    · obtain ⟨transferred, hloaded, rfl⟩ := Option.map_eq_some_iff.1 hs
      refine ⟨h.books, h.transferred, fun hnumbered => ⟨by rintro t ⟨⟩, ?_⟩⟩
      intro pair hpair
      rcases List.mem_append.1 hpair with hpair | hpair
      · exact (h.shown hnumbered).shown pair hpair
      · obtain rfl := List.mem_singleton.1 hpair
        exact (h.shown hnumbered).loaded transferred hloaded

end CountInv

/-- **The count of items never exceeds its total.** However the threads are interleaved, an object
is counted at most once, and whatever the console thread prints is in order. -/
theorem itemCounts_le_total (cfg : ClientConfig) (events : List CountEvent) (s : CountState)
    (hrun : script (countStep cfg) (.start cfg) events = some s)
    (hnumbered : Numbered (objectsOf s.client.received)) :
    s.counted.Nodup ∧ s.counted ⊆ objectsOf s.client.received ∧
      s.transferred.toInt = s.counted.length ∧ ∀ pair ∈ s.shown, pair.1 ≤ pair.2 := by
  have hinv : CountInv s :=
    script_invariant (fun _ _ _ h hs => h.step hs) (CountInv.start cfg) hrun
  have hcounted : s.counted <+~ objectsOf s.client.received :=
    (List.sublist_append_left s.counted s.client.early).subperm.trans hinv.books.held
  refine ⟨?_, hcounted.subset, hinv.toInt_transferred hnumbered, (hinv.shown hnumbered).shown⟩
  exact ReportingClient.nodup_of_subperm hcounted hnumbered.distinct.of_map

/-- An empty file with the number 2, then a directory with the number 1, which is not created. The
console thread loads the count before the worker raises it, and the total after it. -/
def countedSchedule : List CountEvent :=
  let object := fun number path type transfer =>
    PullResponse.object
      ⟨number, path, type, ⟨0, 0, [], []⟩, ⟨⟨0, 0⟩, ⟨0, 0⟩⟩, transfer, .nonlink ⟨0⟩⟩
  [.client (.receive (some (.started (text "1")))),
    .client (.receive (some (object 2 (text "f") .kTypeFile (some ⟨[], 0, []⟩)))),
    .client .main, .client .main, .client .main, .client .main, .client (.pop 0),
    .loadTransferred, .client (.run 0), .loadTotal,
    .client (.receive (some (object 1 (text "d") .kTypeDirectory none))), .client .main,
    .client .main, .loadTransferred, .loadTotal]

theorem itemCounts_le_total_two :
    ∃ s, script (countStep oneFailure) (.start oneFailure) countedSchedule = some s ∧
      s.transferred = 1 ∧ s.shown = [(0, 2), (1, 2)] ∧ s.counted.Nodup ∧
      ∀ pair ∈ s.shown, pair.1 ≤ pair.2 := by
  have hends : (script (countStep oneFailure) (.start oneFailure) countedSchedule).map
      (fun s => (s.transferred, s.shown, (objectsOf s.client.received).map (·.number))) =
      some (1, [(0, 2), (1, 2)], [2, 1]) := rfl
  obtain ⟨s, hrun, hs⟩ := Option.map_eq_some_iff.1 hends
  obtain ⟨htransferred, hs⟩ := Prod.mk.inj hs
  obtain ⟨hshown, hnumbers⟩ := Prod.mk.inj hs
  have hpositive : ∀ number ∈ ([2, 1] : List Int64), 0 < number := by
    rw [List.forall_mem_cons, List.forall_mem_singleton]
    decide
  have hnumbered : Numbered (objectsOf s.client.received) := by
    refine ⟨by rw [hnumbers]; decide, fun pull hpull => hpositive _ ?_⟩
    exact hnumbers ▸ List.mem_map_of_mem hpull
  obtain ⟨hnodup, -, -, hle⟩ := itemCounts_le_total oneFailure countedSchedule s hrun hnumbered
  exact ⟨s, hrun, htransferred, hshown, hnodup, hle⟩

end Netpull
