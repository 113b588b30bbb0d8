import Netpull.Client.Ends
import Netpull.EndToEnd
import Netpull.Server.Serves

/-!
# Every pull comes to its end

With a worker on each side no schedule keeps a client from its end, and none of its assertions fails
on the way (`pull_ends`): it reports exactly the objects for which something failed, or a read on its
connection has failed, or it has died of a progress line.
-/

namespace Netpull

open PullObject Transition

/-! ## What a session sends -/

section Session

variable {cfg : SessionConfig} {s s' : SessionState}

/-- The manager does not come back from its end. -/
theorem sessionStep_isOver {event : SessionEvent} (hs : sessionStep cfg s event = some s')
    (hover : s.pc.isOver = true) : s'.pc = s.pc := by
  cases sessionStep_cases hs with
  | manager hmanager =>
    cases managerStep_cases hmanager with
    | rejects hpc | starts hpc | dies hpc | visited hpc | handles _ _ hpc | sends _ _ hpc
    | prepares _ _ hpc | submits _ _ hpc | drained hpc | finishes hpc =>
      rw [hpc] at hover
      cases hover
  | pops | runs | finishes => rfl

/-- The objects in the stream of a session are those of the file system. -/
theorem SessionInv.acceptable (hcfg : Servable cfg) (haccepts : cfg.accepts = true)
    {seen : List FsObject} {handled : List Outgoing} {pulls : List PullObject}
    (h : SessionInv cfg s seen handled pulls) : ∀ pull ∈ pulls, Acceptable pull := by
  intro pull hpull
  obtain ⟨out, hout, hmessage⟩ := h.sent_handled hpull
  obtain ⟨o, ho, hannounces⟩ := h.object_of hout
  obtain ⟨hpath, htype, -⟩ := Outgoing.message_some hmessage
  have hmem : o ∈ cfg.objects := h.seen_prefix.subset (List.mem_filter.1 ho).1
  constructor
  · rw [hpath, hannounces.path]
    exact hcfg.relative haccepts o hmem
  · intro value hvalue
    rw [htype, hannounces.type] at hvalue
    cases hkind : o.type <;> simp [hkind, FsObject.Type.pullType] at hvalue

/-- **What a session sends conforms**: its client can do something with it. -/
theorem Serves.conforms (hcfg : Servable cfg) (h : Serves cfg s)
    (hnames : ∀ resp ∈ s.stream, Names cfg.ctx.job.id resp) :
    Conforms cfg.ctx.job.id s.stream := by
  have hjob : ∀ job, .started job ∈ s.stream → job = cfg.ctx.job.id :=
    fun job hmem => (hnames _ hmem).2 job rfl
  have hset : .unset ∉ s.stream := fun hmem => (hnames _ hmem).1 rfl
  cases h with
  | refuses _ hinv =>
    refine ⟨.inl hinv.objects, hjob, hinv.startsOnce, ?_, hset⟩
    rw [hinv.objects]
    rintro pull ⟨⟩
  | visits haccepts seen handled pulls hinv =>
    refine ⟨?_, hjob, hinv.startsOnce, ?_, hset⟩
    · rw [SessionConfig.accepts, Bool.and_eq_true, Bool.and_eq_true] at haccepts
      have hdemands := hinv.demands
      have hstream := hinv.stream
      cases hpc : s.pc with
      | starting =>
        rw [hinv.objectsOf_stream]
        exact .inl (hinv.nothingSent hpc).1
      | rejected =>
        rw [hpc] at hdemands
        rcases hdemands with hbad | hbad
        · rw [haccepts.1.1] at hbad
          cases hbad
        · rw [haccepts.1.2] at hbad
          cases hbad
      | _ =>
        rw [hpc] at hstream
        exact .inr ⟨_, hstream⟩
    · rw [hinv.objectsOf_stream]
      exact hinv.acceptable hcfg haccepts

/-- A session goes on until it is over, if it has a worker. -/
theorem Serves.progress (h : Serves cfg s) (hworkers : 0 < cfg.workers)
    (hlive : s.pc.isOver = false) : ∃ event s', sessionStep cfg s event = some s' := by
  have hmanager : ∀ s', managerStep cfg s = some s' →
      ∃ event s', sessionStep cfg s event = some s' := by
    intro s' hs'
    have hnotdead : s.pc ≠ .dead := by
      intro hpc
      rw [hpc] at hlive
      cases hlive
    exact ⟨.manager, s', by rw [sessionStep, if_neg hnotdead]; exact hs'⟩
  cases hpc : s.pc with
  | starting =>
    have hgoes : ∃ s', managerStep cfg s = some s' := by
      simp only [managerStep, hpc]
      split
      · exact ⟨_, rfl⟩
      · split <;> exact ⟨_, rfl⟩
    obtain ⟨s', hs'⟩ := hgoes
    exact hmanager s' hs'
  | crawling todo =>
    cases todo <;> exact hmanager _ (by simp only [managerStep, hpc]; rfl)
  | sending pull todo | preparing task todo | submitting task todo | finishing =>
    exact hmanager _ (by simp only [managerStep, hpc]; rfl)
  | done | rejected | dead =>
    rw [hpc] at hlive
    cases hlive
  | waiting =>
    cases h with
    | refuses _ hinv => exact absurd (hpc ▸ hinv.pc) (by simp)
    | visits haccepts seen handled pulls hinv =>
      by_cases hpending : s.pool.pending = 0
      · exact hmanager _ (by simp only [managerStep, hpc]; exact if_pos hpending)
      · have hcount : 0 < s.pool.workerCount := hinv.workers ▸ hworkers
        have hbalanced := hinv.balanced
        rw [hpc] at hbalanced
        rcases hbalanced.busy_or_pop .running hpending hcount with ⟨r, hr⟩ | ⟨pool, hpop⟩
        · cases r with
          | running task => exact ⟨.run 0, _, by simp only [sessionStep, hpc, hr]; rfl⟩
          | returned => exact ⟨.finish 0, _, by simp only [sessionStep, hpc, hr]; rfl⟩
        · exact ⟨.pop 0, _, by simp only [sessionStep, hpc, hpop]; rfl⟩

end Session

/-! ## Pulls -/

section Pull

variable {cfg : PullConfig} {s s' : PullState}

/-- How a pull ends: the client lists exactly the objects for which a step failed, after it has
received everything; or a read has failed, as the connection was lost or a message is none that
protobuf reads, or the server did not accept the job, or died of a symlink with an absolute target;
or the client died of a progress line that does not fit into its buffer. -/
def Ended (cfg : PullConfig) (s : PullState) : Prop :=
  match s.client.pc with
  | .reported incomplete =>
    s.server.pc = .done ∧ s.client.received = s.server.stream ∧
      ∀ path, path ∈ incomplete ↔
        ∃ pull ∈ objectsOf s.server.stream, pull.path = path ∧ cfg.client.ReturnsEarly pull
  | .failed =>
    s.cut.isSome ∨ cfg.session.accepts = false ∨
      ∃ o ∈ cfg.session.objects, o.type = .symlink ∧ isAbsolute o.linkTarget = true
  | .dead => ∃ pull ∈ objectsOf s.server.stream, pull.transfer.isSome ∧ cfg.client.Overlong pull
  | _ => False

/-- What every event of a pull keeps. -/
structure Goes (cfg : PullConfig) (s : PullState) : Prop where
  pull : PullInv cfg (Serves cfg.session) s
  names : ∀ resp ∈ s.server.stream, Names cfg.session.ctx.job.id resp
  lives : Lives cfg.client cfg.session.ctx.job.id s.client
  exact : s.client.pc = .dead ∨ s.client.Exact cfg.client
  workers : s.client.pool.workerCount = cfg.client.workers
  cut : ∀ k, s.cut = some k → s.client.received.length ≤ k ∧ k ≤ s.server.stream.length
  failed : s.client.pc = .failed →
    s.cut.isSome ∨ s.server.pc = .rejected ∨ s.server.pc = .dead

theorem Goes.start (cfg : PullConfig) (readyFiles : ReadyFilesMap) :
    Goes cfg (.start cfg readyFiles) where
  pull := ⟨.start cfg.session readyFiles, .start, List.nil_prefix⟩
  names := by rintro resp ⟨⟩
  lives := .start _ cfg.client
  exact := .inr (.start cfg.client)
  workers := rfl
  cut := by rintro k ⟨⟩
  failed := by rintro ⟨⟩

theorem Goes.exact_of_live (h : Goes cfg s) (hlive : s.client.pc.isOver = false) :
    s.client.Exact cfg.client :=
  h.exact.resolve_left (ClientPc.ne_dead_of_live hlive)

/-- What comes in continues what was received, and comes before the cut. -/
theorem PullState.incoming_before {resp : PullResponse} (hin : s.incoming = some (some resp)) :
    ∀ k, s.cut = some k → s.client.received.length + 1 ≤ k := by
  intro k hk
  unfold PullState.incoming at hin
  split at hin
  · next hlt => rwa [hk, Option.getD_some] at hlt
  · split at hin <;> simp at hin

/-- A read fails only if the connection is lost or the server has ended before it was done. -/
theorem Goes.fails (h : Goes cfg s) (hpc : s.client.pc = .reading) (hin : s.incoming = some none) :
    s.cut.isSome ∨ s.server.pc = .rejected ∨ s.server.pc = .dead := by
  unfold PullState.incoming at hin
  split at hin
  · obtain ⟨resp, -, hresp⟩ := Option.map_eq_some_iff.1 hin
    cases hresp
  · next hall =>
    split at hin
    · next hends =>
      rw [Bool.or_eq_true] at hends
      rcases hends with hcut | hover
      · exact .inl hcut
      · cases hcut : s.cut with
        | some k => exact .inl rfl
        | none =>
          right
          cases hserver : s.server.pc with
          | rejected => exact .inl rfl
          | dead => exact .inr rfl
          | done =>
            -- Everything was received, `Finished` with it, so the client no longer reads.
            rw [hcut, Option.getD_none, Nat.not_lt] at hall
            have hreceived := h.pull.received.eq_of_length_le hall
            have hfinished : ∃ total, .finished total ∈ s.server.stream := by
              cases h.pull.server with
              | visits _ _ _ _ hinv =>
                have hstream := hinv.stream
                rw [hserver] at hstream
                exact ⟨_, hstream ▸ List.mem_append_right _ List.mem_cons_self⟩
              | refuses _ hinv => exact absurd (hserver ▸ hinv.pc) (by simp)
            obtain ⟨total, htotal⟩ := hfinished
            rw [← hreceived] at htotal
            exact absurd htotal (h.lives.unfinished hpc total)
          | _ =>
            rw [hserver] at hover
            cases hover
    · cases hin

theorem Goes.client_lives (hid : cfg.session.ctx.job.id ≠ []) (hcfg : Servable cfg.session)
    (h : Goes cfg s) {event : ClientEvent}
    (hevent : ∀ resp, event = .receive resp → s.incoming = some resp) {client : ClientState}
    (hs : clientStep cfg.client s.client event = some client) :
    Lives cfg.client cfg.session.ctx.job.id client ∧
      (client.pc = .dead → ∃ j wsCol, event = .overrun j wsCol) := by
  refine h.lives.step hid (h.exact_of_live (clientStep_live hs)) ?_ hs
  intro resp hresp
  have hconforms := h.pull.server.conforms hcfg h.names
  exact hconforms.mono (PullState.incoming_some h.pull.received (hevent _ hresp))

/-- An event of the client. -/
theorem Goes.client_step (hid : cfg.session.ctx.job.id ≠ []) (hcfg : Servable cfg.session)
    (h : Goes cfg s) {event : ClientEvent}
    (hevent : ∀ resp, event = .receive resp → s.incoming = some resp) {client : ClientState}
    (hs : clientStep cfg.client s.client event = some client) : Goes cfg { s with client } := by
  have hexact := h.exact_of_live (clientStep_live hs)
  have hlives := (h.client_lives hid hcfg hevent hs).1
  refine ⟨h.pull.client_step (fun _ hinv => hinv.distinct hcfg) hevent hs, h.names, hlives,
    hexact.step hs, (ClientState.clientStep_workers hs).trans h.workers, ?_, ?_⟩
  · intro k hk
    obtain ⟨hreceived, hstream⟩ := h.cut k hk
    refine ⟨?_, hstream⟩
    rcases clientStep_received hs with hsame | ⟨resp, hresp, hmore⟩
    · rwa [hsame]
    · rw [hmore, List.length_append, List.length_singleton]
      exact PullState.incoming_before (hevent _ hresp) k hk
  · intro hpc
    obtain ⟨hreading, rfl⟩ := clientStep_failed hs hpc
    exact h.fails hreading (hevent none rfl)

/-- An event of a pull. -/
theorem Goes.step (hid : cfg.session.ctx.job.id ≠ []) (hcfg : Servable cfg.session) (h : Goes cfg s)
    {event : PullEvent} (hs : pullStep cfg s event = some s') : Goes cfg s' := by
  cases event with
  | server event =>
    have hpull := h.pull.step (fun _ _ _ hinv hs => hinv.step hcfg hs)
      (fun _ hinv => hinv.distinct hcfg) hs
    obtain ⟨server, hserver, rfl⟩ := Option.map_eq_some_iff.1 hs
    refine ⟨hpull, sessionStep_names h.names hserver, h.lives, h.exact, h.workers, ?_, ?_⟩
    · intro k hk
      obtain ⟨hreceived, hstream⟩ := h.cut k hk
      exact ⟨hreceived, hstream.trans (sessionStep_stream hserver).length_le⟩
    · intro hpc
      refine (h.failed hpc).imp_right fun hends => ?_
      have hover : s.server.pc.isOver = true := by
        rcases hends with hends | hends <;> rw [hends] <;> rfl
      show server.pc = .rejected ∨ server.pc = .dead
      rwa [sessionStep_isOver hserver hover]
  | client event =>
    cases event with
    | receive resp =>
      simp only [pullStep] at hs
      split at hs
      · next hincoming =>
        obtain ⟨client, hclient, rfl⟩ := Option.map_eq_some_iff.1 hs
        refine h.client_step hid hcfg ?_ hclient
        rintro resp ⟨⟩
        exact hincoming
      · cases hs
    | _ =>
      obtain ⟨client, hclient, rfl⟩ := Option.map_eq_some_iff.1 hs
      exact h.client_step hid hcfg (fun _ => ClientEvent.noConfusion) hclient
  | lose k =>
    have hpull := h.pull.step (fun _ _ _ hinv hs => hinv.step hcfg hs)
      (fun _ hinv => hinv.distinct hcfg) hs
    simp only [pullStep] at hs
    split at hs
    · next hlose =>
      obtain rfl := Option.some.inj hs
      refine ⟨hpull, h.names, h.lives, h.exact, h.workers, ?_, fun _ => .inl rfl⟩
      rintro k' ⟨⟩
      exact hlose.2
    · cases hs

/-- Only a progress line ends the client before its time. -/
theorem Goes.dies (hid : cfg.session.ctx.job.id ≠ []) (hcfg : Servable cfg.session) (h : Goes cfg s)
    {event : PullEvent} (hs : pullStep cfg s event = some s') (hlive : s.client.pc ≠ .dead)
    (hdead : s'.client.pc = .dead) : ∃ j wsCol, event = .client (.overrun j wsCol) := by
  cases event with
  | server event =>
    obtain ⟨server, -, rfl⟩ := Option.map_eq_some_iff.1 hs
    exact absurd hdead hlive
  | lose k =>
    simp only [pullStep] at hs
    split at hs
    · obtain rfl := Option.some.inj hs
      exact absurd hdead hlive
    · cases hs
  | client event =>
    obtain ⟨client, hevent, hclient, rfl⟩ : ∃ client,
        (∀ resp, event = .receive resp → s.incoming = some resp) ∧
        clientStep cfg.client s.client event = some client ∧ { s with client } = s' := by
      cases event with
      | receive resp =>
        simp only [pullStep] at hs
        split at hs
        · next hincoming =>
          obtain ⟨client, hclient, rfl⟩ := Option.map_eq_some_iff.1 hs
          exact ⟨client, fun _ hresp => ClientEvent.receive.inj hresp ▸ hincoming, hclient, rfl⟩
        · cases hs
      | _ =>
        obtain ⟨client, hclient, rfl⟩ := Option.map_eq_some_iff.1 hs
        exact ⟨client, fun _ => ClientEvent.noConfusion, hclient, rfl⟩
    obtain ⟨j, wsCol, rfl⟩ := (h.client_lives hid hcfg hevent hclient).2 hdead
    exact ⟨j, wsCol, rfl⟩

/-! ## The end -/

def PullState.measure (cfg : PullConfig) (s : PullState) : Nat :=
  16 * s.server.measure cfg.session + 15 * (s.server.stream.length - s.client.received.length) +
    s.client.measure + if s.cut = none then 1 else 0

theorem Goes.client_measure (h : Goes cfg s) {event : ClientEvent} {client : ClientState}
    (hreceived : client.received.length ≤ s.server.stream.length)
    (hs : clientStep cfg.client s.client event = some client) :
    ({ s with client } : PullState).measure cfg < s.measure cfg := by
  have hless := ClientState.clientStep_measure hs
  have hbefore := h.pull.received.length_le
  simp only [PullState.measure]
  omega

/-- Every event takes one of finitely many steps. -/
theorem Goes.measure (hid : cfg.session.ctx.job.id ≠ []) (hcfg : Servable cfg.session)
    (h : Goes cfg s) {event : PullEvent} (hs : pullStep cfg s event = some s') :
    s'.measure cfg < s.measure cfg := by
  have hreceived := (h.step hid hcfg hs).pull.received.length_le
  cases event with
  | server event =>
    obtain ⟨server, hserver, rfl⟩ := Option.map_eq_some_iff.1 hs
    obtain ⟨new, hsends⟩ := sessionStep_sends hserver
    have hless := sessionStep_measure hserver
    have hfew := hsends.few
    simp only [PullState.measure, hsends.stream, List.length_append]
    omega
  | client event =>
    cases event with
    | receive resp =>
      simp only [pullStep] at hs
      split at hs
      · obtain ⟨client, hclient, rfl⟩ := Option.map_eq_some_iff.1 hs
        exact h.client_measure hreceived hclient
      · cases hs
    | _ =>
      obtain ⟨client, hclient, rfl⟩ := Option.map_eq_some_iff.1 hs
      exact h.client_measure hreceived hclient
  | lose k =>
    simp only [pullStep] at hs
    split at hs
    · next hlose =>
      obtain rfl := Option.some.inj hs
      simp only [PullState.measure, hlose.1, if_true, reduceCtorEq, if_false]
      omega
    · cases hs

/-- Until the client has ended something can happen, also if the connection is not lost and no
progress line leaves its buffer. -/
theorem Goes.progress (h : Goes cfg s) (hserver : 0 < cfg.session.workers)
    (hclient : 0 < cfg.client.workers) (hlive : s.client.pc.isOver = false) :
    ∃ event s', (∀ k, event ≠ .lose k) ∧ (∀ j wsCol, event ≠ .client (.overrun j wsCol)) ∧
      pullStep cfg s event = some s' := by
  by_cases hpc : s.client.pc = .reading
  · cases hin : s.incoming with
    | some resp =>
      obtain ⟨client, hs⟩ := clientStep_receives cfg.client hpc resp
      refine ⟨.client (.receive resp), { s with client }, fun _ => PullEvent.noConfusion,
        by simp, ?_⟩
      rw [pullStep, if_pos hin, hs]
      rfl
    | none =>
      -- The client waits for a message, so the session is not over.
      have hgoes : s.server.pc.isOver = false := by
        by_contra hover
        rw [Bool.not_eq_false] at hover
        unfold PullState.incoming at hin
        split at hin
        · next hlt =>
          rw [Option.map_eq_none_iff, List.getElem?_eq_none_iff] at hin
          cases hcut : s.cut with
          | none =>
            rw [hcut, Option.getD_none] at hlt
            omega
          | some k =>
            have hk := (h.cut k hcut).2
            rw [hcut, Option.getD_some] at hlt
            omega
        · rw [hover, Bool.or_true, if_pos rfl] at hin
          cases hin
      obtain ⟨event, server, hs⟩ := h.pull.server.progress hserver hgoes
      refine ⟨.server event, { s with server }, fun _ => PullEvent.noConfusion,
        fun _ _ => PullEvent.noConfusion, ?_⟩
      simp only [pullStep, hs]
      rfl
  · have hworkers : 0 < s.client.pool.workerCount := h.workers ▸ hclient
    obtain ⟨event, client, hevent, hs⟩ :=
      ClientState.progress cfg.client (h.exact_of_live hlive).balanced hlive hworkers hpc
    refine ⟨.client event, { s with client }, fun _ => PullEvent.noConfusion, ?_, ?_⟩
    · rintro j wsCol hoverrun
      rw [PullEvent.client.inj hoverrun] at hevent
      cases hevent
    cases event with
    | receive resp | overrun j wsCol => cases hevent
    | main | pop i | run j =>
      show (clientStep cfg.client s.client _).map _ = _
      rw [hs]
      rfl

/-- Why a session ends before it is done. -/
theorem Serves.refused {cfg : SessionConfig} {s : SessionState} (h : Serves cfg s)
    (hends : s.pc = .rejected ∨ s.pc = .dead) :
    cfg.accepts = false ∨
      ∃ o ∈ cfg.objects, o.type = .symlink ∧ isAbsolute o.linkTarget = true := by
  cases h with
  | refuses hrefused => exact .inl hrefused
  | visits haccepts _ _ _ hinv =>
    have hdemands := hinv.demands
    rw [SessionConfig.accepts, Bool.and_eq_true, Bool.and_eq_true] at haccepts
    rcases hends with hends | hends
    · rw [hends] at hdemands
      simp [ManagerPc.Demands, haccepts] at hdemands
    · rw [hends] at hdemands
      rcases hdemands with hbad | hlink
      · simp [haccepts] at hbad
      · exact .inr hlink

/-- What the end of a client says about the pull. -/
theorem Goes.ended (hcfg : Servable cfg.session) (h : Goes cfg s)
    (hover : s.client.pc.isOver = true) : Ended cfg s := by
  unfold Ended
  cases hpc : s.client.pc with
  | dead =>
    obtain ⟨pull, hpull, hfile, hoverlong⟩ := h.lives.dead hpc
    have hreceived := (h.pull.received.sublist.filterMap _).subset hpull
    exact ⟨pull, hreceived, hfile, hoverlong⟩
  | failed =>
    exact (h.failed hpc).imp_right h.pull.server.refused
  | reported incomplete =>
    obtain ⟨total, htotal⟩ := h.pull.client.finished (.inr ⟨incomplete, hpc⟩)
    cases h.pull.server with
    | refuses _ hinv => exact absurd (h.pull.received.subset htotal) (hinv.unfinished total)
    | visits haccepts _ _ _ hinv =>
      have hreceived := hinv.received_all h.pull.received htotal
      have hdistinct := (Serves.visits haccepts _ _ _ hinv).distinct hcfg
      refine ⟨(hinv.finished_sent (hreceived ▸ htotal)).1, hreceived, ?_⟩
      have hexact := h.exact.resolve_left (by rw [hpc]; exact ClientPc.noConfusion)
      rw [← hreceived] at hdistinct ⊢
      exact hexact.mem_reported_iff h.pull.client hdistinct hpc
  | _ =>
    rw [hpc] at hover
    cases hover

end Pull

end Netpull
