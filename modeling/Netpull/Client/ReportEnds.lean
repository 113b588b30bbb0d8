import Netpull.Client.Ends
import Netpull.Client.Success

/-!
# Reports come to an end

A worker that reports does nothing else, and takes two more steps for it. So a client that reports
goes on wherever it would go on without reports (`reportStep_goes`), and not much longer
(`reportStep_left`).
-/

namespace Netpull

namespace ReportingClient

variable {cfg : ClientConfig} {s s' : ReportingClient} {event : ReportEvent}

/-! ## One entry for each worker -/

/-- Every busy worker has an entry among the reports. -/
def Abreast (s : ReportingClient) : Prop := s.reports.length = s.client.pool.running.length

theorem clientMainStep_running {c c' : ClientState} (hs : clientMainStep cfg c = some c') :
    c'.pool.running = c.pool.running := by
  cases clientMainStep_cases hs <;> rfl

theorem length_running {c : ClientState} {j : Nat} {r : ClientRun} (hr : r ≠ .returned) :
    (clientRunStep cfg c j r).pool.running.length = c.pool.running.length := by
  cases r with
  | returned => exact absurd rfl hr
  | streaming | checking | settling =>
    rw [clientRunStep]
    split <;> exact List.length_set
  | preparing | submitting | erasing => exact List.length_set

/-- An event of a worker. -/
theorem Abreast.run (h : s.Abreast) {j : Nat} {c : ClientState}
    (hs : clientStep cfg s.client (.run j) = some c) :
    Abreast { s with client := c, reports := s.goOn j s.client.pool.running[j]? } := by
  cases clientStep_cases hs with
  | runs _ r hj =>
    unfold Abreast at h ⊢
    rw [hj]
    by_cases hr : r = .returned
    · subst hr
      have hreports := List.length_eraseIdx_add_one
        (show j < s.reports.length from h ▸ (List.getElem?_eq_some_iff.1 hj).1)
      have hrunning := List.length_eraseIdx_add_one (List.getElem?_eq_some_iff.1 hj).1
      simp only [goOn, clientRunStep, WorkerPool.removePending]
      omega
    · rw [length_running hr, ← h]
      cases r with
      | returned => exact absurd rfl hr
      | erasing => exact List.length_set
      | _ => rfl

theorem Abreast.step (h : s.Abreast) (hs : reportStep cfg s event = some s') : s'.Abreast := by
  cases reportStep_cases hs with
  | loses => exact h
  | client e client hlost hpop hrun hclient =>
    cases clientStep_cases hclient with
    | receives resp =>
      cases resp with
      | object pull =>
        rw [handleResponse_object]
        exact h
      | started job =>
        rw [handleResponse_started]
        exact h
      | _ => exact h
    | loses => exact absurd rfl hlost
    | main hmain =>
      unfold Abreast
      rw [clientMainStep_running hmain]
      exact h
    | pops i => exact absurd rfl (hpop i)
    | runs j => exact absurd rfl (hrun j)
    | overruns => exact h
  | pops i client hclient =>
    cases clientStep_cases hclient with
    | pops i pool hpop =>
      obtain ⟨task, -, rfl⟩ := WorkerPool.waitForTaskAndPop_some hpop
      unfold Abreast at h ⊢
      simp only [List.length_append, List.length_singleton]
      rw [h]
  | runs j client _ hclient => exact h.run hclient
  | connects | sends => exact List.length_set.trans h

/-! ## Progress -/

/-- The main thread calls `Done` only when it has lost its connection. -/
theorem reportStep_done (hs : reportStep cfg s event = some s')
    (hevent : event ≠ .client (.receive none)) : s'.done = s.done := by
  cases reportStep_cases hs with
  | loses => exact absurd rfl hevent
  | client | pops | runs | connects | sends => rfl

/-- Where the client can go on, it does, or one of its workers reports. -/
theorem reportStep_goes (h : s.Abreast) (hdone : s.done = false) {e : ClientEvent}
    {c : ClientState} (hs : clientStep cfg s.client e = some c) (he : e ≠ .receive none)
    (hoverrun : ∀ j wsCol, e ≠ .overrun j wsCol) :
    ∃ event s', event ≠ .client (.receive none) ∧ (∀ e', event = .client e' → e' = e) ∧
      reportStep cfg s event = some s' := by
  have hlive := clientStep_live hs
  have hself : ∀ e', ReportEvent.client e = .client e' → e' = e :=
    fun _ he' => (ReportEvent.client.inj he').symm
  have hnot : ReportEvent.client e ≠ .client (.receive none) := fun he' =>
    he (ReportEvent.client.inj he')
  cases e with
  | receive resp =>
    cases resp with
    | none => exact absurd rfl he
    | some resp =>
      refine ⟨_, { s with client := c }, hnot, hself, ?_⟩
      simp only [reportStep, hlive, hdone, hs, Bool.false_eq_true, if_false, Option.map_some]
  | main =>
    refine ⟨_, { s with client := c }, hnot, hself, ?_⟩
    simp only [reportStep, hlive, hdone, hs, Bool.false_eq_true, if_false, Option.map_some]
  | pop i =>
    refine ⟨_, { s with client := c, reports := s.reports ++ [none] }, hnot, hself, ?_⟩
    simp only [reportStep, hlive, hdone, hs, Bool.false_eq_true, if_false, Option.map_some]
  | overrun j wsCol => exact absurd rfl (hoverrun j wsCol)
  | run j =>
    have hj : j < s.reports.length := by
      cases clientStep_cases hs with
      | runs _ r hj => exact h ▸ (List.getElem?_eq_some_iff.1 hj).1
    have hentry := List.getElem?_eq_getElem hj
    cases hreport : s.reports[j] with
    | none =>
      rw [hreport] at hentry
      refine ⟨_, { s with client := c, reports := s.goOn j s.client.pool.running[j]? }, hnot,
        hself, ?_⟩
      simp only [reportStep, hlive, hentry, hs, Bool.false_eq_true, if_false, if_true,
        Option.map_some]
    | some report =>
      rw [hreport] at hentry
      cases report with
      | connecting pull =>
        refine ⟨.connect j true, { s with reports := s.reports.set j (some (.sending pull)) },
          ReportEvent.noConfusion, fun _ => ReportEvent.noConfusion, ?_⟩
        simp only [reportStep, hlive, hentry, Bool.false_eq_true, if_false, if_true]
      | sending pull =>
        refine ⟨.send j, { s with
            reports := s.reports.set j none
            sent := s.sent ++ [.success (cstr s.client.jobId) pull.path] },
          ReportEvent.noConfusion, fun _ => ReportEvent.noConfusion, ?_⟩
        simp only [reportStep, hlive, hentry, Bool.false_eq_true, if_false]

/-! ## The steps that are left -/

def stepsLeft : Report → Nat
  | .connecting _ => 2
  | .sending _ => 1

/-- The steps that the workers have left to report. -/
def left (reports : List (Option Report)) : Nat := ((reports.filterMap id).map stepsLeft).sum

open scoped List in
theorem left_set {reports : List (Option Report)} {j : Nat} {old : Option Report}
    (h : reports[j]? = some old) (new : Option Report) :
    left (reports.set j new) + (old.toList.map stepsLeft).sum =
      left reports + (new.toList.map stepsLeft).sum := by
  have hperm : old.toList ++ (reports.set j new).filterMap id ~
      new.toList ++ reports.filterMap id :=
    WorkerPool.filterMap_perm_set (f := id) h new
  have hsum := (hperm.map stepsLeft).sum_eq
  rw [List.map_append, List.map_append, List.sum_append, List.sum_append] at hsum
  unfold left
  omega

theorem left_eraseIdx {reports : List (Option Report)} {j : Nat} :
    left (reports.eraseIdx j) ≤ left reports := by
  have hsub := ((List.eraseIdx_sublist reports j).filterMap id).map stepsLeft
  exact hsub.sum_le_sum fun _ _ => Nat.zero_le _

theorem left_goOn (s : ReportingClient) (j : Nat) (hj : s.reports[j]? = some none)
    (r : Option ClientRun) : left (s.goOn j r) ≤ left s.reports + 2 := by
  unfold goOn
  split
  · next pull =>
    have hset := left_set hj (some (.connecting pull))
    simp [stepsLeft] at hset
    omega
  · exact Nat.le_trans left_eraseIdx (Nat.le_add_right _ _)
  · exact Nat.le_add_right _ _

/-- An event of the client brings two more steps at most; any other is one of those that are left,
unless the connection is lost. -/
theorem reportStep_left (hs : reportStep cfg s event = some s')
    (hevent : event ≠ .client (.receive none)) :
    (∃ e, event = .client e ∧ clientStep cfg s.client e = some s'.client ∧
      left s'.reports ≤ left s.reports + 2) ∨
    s'.client = s.client ∧ left s'.reports < left s.reports := by
  cases reportStep_cases hs with
  | loses => exact absurd rfl hevent
  | client e client _ _ _ hclient => exact .inl ⟨e, rfl, hclient, Nat.le_add_right _ _⟩
  | pops i client hclient =>
    refine .inl ⟨_, rfl, hclient, ?_⟩
    show left (s.reports ++ [none]) ≤ left s.reports + 2
    simp [left]
  | runs j client hfree hclient => exact .inl ⟨_, rfl, hclient, left_goOn s j hfree _⟩
  | connects j pull connects hj =>
    refine .inr ⟨rfl, ?_⟩
    have hset := left_set hj (if connects then some (.sending pull) else none)
    cases connects <;> simp [stepsLeft] at hset ⊢ <;> omega
  | sends j pull hj =>
    refine .inr ⟨rfl, ?_⟩
    have hset := left_set hj none
    simp [stepsLeft] at hset ⊢
    omega

end ReportingClient

end Netpull
