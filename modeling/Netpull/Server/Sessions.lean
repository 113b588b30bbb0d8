import Netpull.Lib.Oracle
import Netpull.Server.Finished
import Netpull.Server.JobTable
import Netpull.Server.SessionEnds

/-!
# The sessions of a server

Any number of sessions run beside the accept loop, and the files their clients complete are marked
while they crawl. A session asks for each object once whether it is completed, when it comes to it.
So each of them is a session on its own, of a job that had completed already what was skipped, and
what holds of single sessions holds of all. As long as the table of the jobs does not grow under a
session, it is not held up either (`server_sessions`).
-/

namespace Netpull

open Transition

/-! ## A session and its job -/

/-- The session of a job whose completed paths and log are those of `job`. -/
def SessionConfig.resume (cfg : SessionConfig) (job : Job) : SessionConfig :=
  { cfg with
    ctx := { cfg.ctx with
      job := { cfg.ctx.job with log := job.log, completedPaths := job.completedPaths } } }

/-- The object that an event handles. -/
def SessionState.handles (s : SessionState) : SessionEvent → Option FsObject
  | .manager =>
    match s.pc with
    | .crawling (o :: _) => some o
    | _ => none
  | _ => none

/-- The path of an object, if `RelativeTo` returns. -/
def FsObject.asked (o : FsObject) : Option Bytes := (relativeTo o.path o.root).toOption

/-- The path for which an event asks whether it is completed. -/
def SessionState.asks (s : SessionState) (event : SessionEvent) : Option Bytes :=
  (s.handles event).bind FsObject.asked

/-- The ready files belong to all sessions. -/
def SessionState.Alike (s t : SessionState) : Prop := { s with readyFiles := t.readyFiles } = t

section Session

variable {cfg : SessionConfig} {s s' t : SessionState}

theorem outgoing_resume {job job' : Job} {o : FsObject}
    (h : ∀ path ∈ o.asked, job.isCompleted path = job'.isCompleted path) (total : Int32)
    (drawn : Nat) :
    outgoing (cfg.resume job).ctx total drawn o = outgoing (cfg.resume job').ctx total drawn o := by
  unfold FsObject.asked at h
  unfold outgoing
  cases hrel : relativeTo o.path o.root with
  | error e => rfl
  | ok path =>
    have hsame : (cfg.resume job).ctx.job.isCompleted path =
        (cfg.resume job').ctx.job.isCompleted path := h path (by rw [hrel]; rfl)
    rw [ok_bind, ok_bind, hsame]
    rfl

/-- What the manager does depends on the completed paths through the one it asks for, and not on
the ready files. -/
theorem managerStep_resume {job job' : Job}
    (h : ∀ path ∈ s.asks .manager, job.isCompleted path = job'.isCompleted path)
    (readyFiles : ReadyFilesMap) (hs : managerStep (cfg.resume job) s = some s') :
    ∃ t', managerStep (cfg.resume job') { s with readyFiles } = some t' ∧ s'.Alike t' := by
  obtain ⟨pc, total, drawn, readyFiles', pool, stream⟩ := s
  cases pc with
  | crawling objects =>
    cases objects with
    | nil => exact ⟨_, rfl, Option.some.inj hs ▸ rfl⟩
    | cons o todo =>
      have hout : outgoing (cfg.resume job).ctx total drawn o =
          outgoing (cfg.resume job').ctx total drawn o := outgoing_resume h total drawn
      refine ⟨_, rfl, ?_⟩
      obtain rfl := Option.some.inj hs
      unfold handleStep SessionState.Alike
      simp only [hout]
      split <;> rfl
  | starting =>
    simp only [managerStep] at hs
    split at hs
    · next hpath => exact ⟨_, if_pos hpath, Option.some.inj hs ▸ rfl⟩
    · next hpath =>
      split at hs
      · next hvisit => exact ⟨_, (if_neg hpath).trans (if_pos hvisit), Option.some.inj hs ▸ rfl⟩
      · next hvisit => exact ⟨_, (if_neg hpath).trans (if_neg hvisit), Option.some.inj hs ▸ rfl⟩
  | waiting =>
    simp only [managerStep] at hs
    split at hs
    · next hpending => exact ⟨_, if_pos hpending, Option.some.inj hs ▸ rfl⟩
    · cases hs
  | done | rejected | dead => cases hs
  | _ => exact ⟨_, rfl, Option.some.inj hs ▸ rfl⟩

theorem session_asksOnly (cfg : SessionConfig) :
    AsksOnly Job.isCompleted (fun job => sessionStep (cfg.resume job)) SessionState.asks
      SessionState.Alike := by
  intro job job' s t event s' halike h hs
  have hlive := sessionStep_live hs
  unfold SessionState.Alike at halike
  rw [← halike]
  cases sessionStep_cases hs with
  | manager hmanager =>
    obtain ⟨t', ht', hsame⟩ := managerStep_resume h t.readyFiles hmanager
    exact ⟨t', (if_neg hlive).trans ht', hsame⟩
  | pops i pool hpop =>
    refine ⟨{ s with pool, readyFiles := t.readyFiles }, (if_neg hlive).trans ?_, rfl⟩
    simp only [hpop]
    rfl
  | runs j task hj =>
    refine ⟨{ s with
        pool := s.pool.goOn j .returned
        stream := s.stream ++ (task.message cfg.digest).toList.map .object
        readyFiles := t.readyFiles }, (if_neg hlive).trans ?_, rfl⟩
    simp only [hj]
    rfl
  | finishes j hj =>
    refine ⟨{ s with pool := s.pool.removePending j, readyFiles := t.readyFiles },
      (if_neg hlive).trans ?_, rfl⟩
    simp only [hj]

/-- An event takes the object that it handles off those the visit has not come to. -/
theorem sessionStep_todo {event : SessionEvent} (hs : sessionStep cfg s event = some s')
    (hlive : s'.pc ≠ .dead) :
    s.pc.todo cfg = (s.handles event).toList ++ s'.pc.todo cfg := by
  cases sessionStep_cases hs with
  | pops | runs | finishes => rfl
  | manager hmanager =>
    cases managerStep_cases hmanager with
    | handles o todo hpc =>
      have htodo : (handleStep cfg s o todo).pc.todo cfg = todo := by
        unfold handleStep at hlive ⊢
        split
        · next hout => simp [hout] at hlive
        · rfl
        · rfl
        · rfl
      rw [htodo, hpc, SessionState.handles, hpc]
      rfl
    | rejects hpc | starts hpc | visited hpc | sends _ _ hpc | prepares _ _ hpc | submits _ _ hpc
    | drained hpc | finishes hpc =>
      rw [SessionState.handles, hpc]
      rfl
    | dies => exact absurd rfl hlive

/-- A session that does not accept its job handles nothing. -/
theorem Unvisited.handles (h : Unvisited s) (event : SessionEvent) : s.handles event = none := by
  cases event with
  | manager =>
    rcases h.pc with hpc | hpc | hpc <;> rw [SessionState.handles, hpc]
  | pop i | run j | finish j => rfl

theorem SessionState.handles_live {event : SessionEvent} {o : FsObject}
    (h : s.handles event = some o) : ∃ todo, s.pc = .crawling (o :: todo) := by
  cases event with
  | manager =>
    unfold SessionState.handles at h
    simp only at h
    split at h
    · next todo hpc => exact ⟨todo, Option.some.inj h ▸ hpc⟩
    · cases h
  | pop i | run j | finish j => cases h

end Session

/-! ## A job while its session runs -/

/-- What becomes of a job: more paths are completed. -/
structure Job.Continues (job job' : Job) : Prop where
  id : job'.id = job.id
  path : job'.path = job.path
  completed : ∀ path ∈ job.completedPaths, path ∈ job'.completedPaths

theorem Job.Continues.refl (job : Job) : job.Continues job := ⟨rfl, rfl, fun _ h => h⟩

theorem Job.Continues.trans {job₁ job₂ job₃ : Job} (h : job₁.Continues job₂)
    (h' : job₂.Continues job₃) : job₁.Continues job₃ :=
  ⟨h'.id.trans h.id, h'.path.trans h.path, fun path hpath => h'.completed path (h.completed path hpath)⟩

theorem Job.continues_markCompleted (job : Job) (path : Bytes) :
    job.Continues (job.markCompleted path) :=
  ⟨rfl, rfl, fun _ h => GuardedSet.mem_insert.2 (.inr h)⟩

theorem emplace_of_some {jobs : Bytes → Option Job} {id : Bytes} {job : Job}
    (h : jobs id = some job) (id' : Bytes) (job' : Job) : emplace jobs id' job' id = some job := by
  unfold emplace
  cases hjob : jobs id' with
  | none =>
    refine (Function.update_of_ne ?_ ..).trans h
    rintro rfl
    rw [h] at hjob
    cases hjob
  | some _ => exact h

/-- The job that a connection loads from its log. -/
def loadedBy (cfg : ServerConfig) (a : Accepted) : Option Job :=
  match requestRead cfg a.conn with
  | some (some (.continue_ id), _) => Job.load cfg.env a.openLog id
  | _ => none

/-- What a connection does to the jobs and the manager threads. -/
inductive ConnectionStep (cfg : ServerConfig) (s : ServerState) (a : Accepted) (s' : ServerState) :
    Prop
  | keeps (jobs : s'.jobs = s.jobs) (managers : s'.managers = s.managers)
  | starts (conn : SocketConnection) (job : Job)
      (origin : job.completedPaths = .empty ∨ loadedBy cfg a = some job)
      (jobs : s'.jobs = emplace s.jobs job.id job)
      (managers : s'.managers = s.managers ++ [(conn, job.id)])
  | marks (conn : SocketConnection) (id path : Bytes) (job : Job)
      (request : requestRead cfg a.conn = some (some (.success id path), conn))
      (found : s.jobs id = some job)
      (jobs : s'.jobs = Function.update s.jobs id (some (job.markCompleted path)))
      (managers : s'.managers = s.managers)

theorem connection_cases (cfg : ServerConfig) (s : ServerState) (a : Accepted) :
    ConnectionStep cfg s a (handleConnection cfg s a).1 := by
  rw [handleConnection_eq]
  unfold afterRead
  split
  · exact .keeps rfl rfl
  · exact .keeps rfl rfl
  · next req conn hread =>
    cases req with
    | start path =>
      rw [handleRequest]
      split
      · next job hnew =>
        refine .starts conn job (.inl ?_) rfl rfl
        rw [Job.new_eq hnew]
      · exact .keeps rfl rfl
    | continue_ id =>
      rw [handleRequest]
      split
      · next job hload =>
        refine .starts conn job (.inr ?_) rfl rfl
        rw [loadedBy, hread]
        exact hload
      · exact .keeps rfl rfl
    | file id => rw [handleRequest]; split <;> exact .keeps rfl rfl
    | success id path =>
      rw [handleRequest]
      split
      · next job hjob => exact .marks conn id path job hread hjob rfl rfl
      · exact .keeps rfl rfl
    | unset => exact .keeps rfl rfl

/-- A job stays in the table. -/
theorem handleConnection_job (cfg : ServerConfig) {s : ServerState} {id : Bytes} {job : Job}
    (h : s.jobs id = some job) (a : Accepted) :
    ∃ job', (handleConnection cfg s a).1.jobs id = some job' ∧ job.Continues job' := by
  cases connection_cases cfg s a with
  | keeps hjobs => exact ⟨job, by rw [hjobs, h], .refl job⟩
  | starts conn job' _ hjobs => exact ⟨job, by rw [hjobs, emplace_of_some h], .refl job⟩
  | marks conn id' path job' _ hfound hjobs =>
    rw [hjobs]
    by_cases hid : id = id'
    · subst hid
      obtain rfl := Option.some.inj (h.symm.trans hfound)
      exact ⟨_, Function.update_self .., job.continues_markCompleted path⟩
    · exact ⟨job, (Function.update_of_ne hid ..).trans h, .refl job⟩

theorem handleConnection_managers (cfg : ServerConfig) (s : ServerState) (a : Accepted) :
    s.managers <+: (handleConnection cfg s a).1.managers := by
  cases connection_cases cfg s a with
  | keeps _ hmanagers | marks _ _ _ _ _ _ _ hmanagers =>
    rw [hmanagers]
  | starts _ _ _ _ hmanagers =>
    rw [hmanagers]
    exact List.prefix_append _ _

/-! ## The system -/

/-- The session of a manager thread that is started with a connection and a job. -/
def SystemConfig.started (cfg : SystemConfig) (i : Nat) (conn : SocketConnection) (job : Job) :
    SessionConfig :=
  { cfg.session i with ctx := { (cfg.session i).ctx with peer := conn.peer, job } }

section System

variable {cfg : SystemConfig} {sys sys' : ServerSystem} {i : Nat}

theorem managed_eq {manager : SocketConnection × Bytes} {job₁ job : Job}
    (hjob : sys.server.jobs manager.2 = some job) (h : job₁.Continues job) :
    cfg.managed sys i manager = (cfg.started i manager.1 job₁).resume job := by
  have hsame : job = { job₁ with log := job.log, completedPaths := job.completedPaths } := by
    rw [← h.id, ← h.path]
  unfold SystemConfig.managed SystemConfig.started SessionConfig.resume
  rw [hjob, Option.getD_some]
  conv_lhs => rw [hsame]

/-- Where the `i`th session stands: which of its objects it has `seen`, and whether they were
completed when it came to them. -/
structure Resuming (cfg : SystemConfig) (i : Nat) (manager : SocketConnection × Bytes) (job₁ : Job)
    (sys : ServerSystem) (job : Job) (seen : List FsObject) (answers : List (Bytes × Bool)) :
    Prop where
  managed : sys.server.managers[i]? = some manager
  current : sys.server.jobs manager.2 = some job
  continues : job₁.Continues job
  reached : Reached Job.isCompleted
    (fun job => sessionStep ((cfg.started i manager.1 job₁).resume job)) SessionState.Alike
    (.start (cfg.session i) .empty) answers (sys.sessions i)
  seen_prefix : seen <+: (cfg.session i).objects
  todo : (sys.sessions i).pc ≠ .dead →
    (cfg.session i).objects = seen ++ (sys.sessions i).pc.todo (cfg.session i)
  asked : answers.map (·.1) = seen.filterMap FsObject.asked
  refused : (cfg.started i manager.1 job₁).accepts = false → answers = []
  truthful : ∀ qa ∈ answers, (qa.2 = true → job.isCompleted qa.1 = true) ∧
    (qa.2 = false → job₁.isCompleted qa.1 = false)

theorem Job.Continues.isCompleted {job job' : Job} (h : job.Continues job') {path : Bytes}
    (hpath : job.isCompleted path = true) : job'.isCompleted path = true :=
  GuardedSet.contains_iff.2 (h.completed _ (GuardedSet.contains_iff.1 hpath))

section Resuming

variable {manager : SocketConnection × Bytes} {job₁ job : Job} {seen : List FsObject}
  {answers : List (Bytes × Bool)}

/-- What other threads do leaves the session where it stands. -/
theorem Resuming.other (h : Resuming cfg i manager job₁ sys job seen answers) {job' : Job}
    (hmanagers : sys.server.managers <+: sys'.server.managers)
    (hjob : sys'.server.jobs manager.2 = some job') (hcontinues : job.Continues job')
    (hsession : sys'.sessions i = sys.sessions i) :
    Resuming cfg i manager job₁ sys' job' seen answers := by
  have hmanager := getElem?_of_prefix hmanagers h.managed
  refine ⟨hmanager, hjob, h.continues.trans hcontinues, ?_, h.seen_prefix, ?_, h.asked, h.refused,
    ?_⟩
  · rw [hsession]
    exact h.reached
  · rw [hsession]
    exact h.todo
  · intro qa hqa
    obtain ⟨htrue, hfalse⟩ := h.truthful qa hqa
    exact ⟨fun hqa' => hcontinues.isCompleted (htrue hqa'), hfalse⟩

/-- A session that is refused asks nothing. -/
theorem Resuming.asks_none (h : Resuming cfg i manager job₁ sys job seen answers)
    (hrefused : (cfg.started i manager.1 job₁).accepts = false) (event : SessionEvent) :
    (sys.sessions i).handles event = none := by
  obtain ⟨es, t, hrun, halike⟩ := h.reached job (by rw [h.refused hrefused]; rintro qa ⟨⟩)
  have hunvisited : Unvisited t := by
    refine script_invariant (fun _ _ _ h hs => h.step ?_ hs) (.start _) hrun
    exact hrefused
  have hpc : t.pc = (sys.sessions i).pc := by
    unfold SessionState.Alike at halike
    rw [← halike]
  have hnone := hunvisited.handles event
  cases event with
  | manager => rwa [SessionState.handles, hpc, ← SessionState.handles] at hnone
  | pop i | run j | finish j => rfl

/-- An event of the session. -/
theorem Resuming.session (h : Resuming cfg i manager job₁ sys job seen answers)
    {event : SessionEvent} (hs : systemStep cfg sys (.session i event) = some sys') :
    ∃ seen' answers', Resuming cfg i manager job₁ sys' job seen' answers' := by
  unfold systemStep at hs
  split at hs
  · cases hs
  · simp only [h.managed] at hs
    obtain ⟨s, hstep, rfl⟩ := Option.map_eq_some_iff.1 hs
    rw [managed_eq h.current h.continues] at hstep
    -- The ready files that the session finds are those of the server.
    have hfound : Reached Job.isCompleted
        (fun job => sessionStep ((cfg.started i manager.1 job₁).resume job)) SessionState.Alike
        (.start (cfg.session i) .empty) answers
        { sys.sessions i with readyFiles := sys.server.readyFiles } :=
      h.reached.congr fun t ht => ht
    have hreached := hfound.step (session_asksOnly _) hstep
    have hnotdead : (sys.sessions i).pc ≠ .dead := by
      have hlive := sessionStep_live hstep
      exact hlive
    have hasks : SessionState.asks { sys.sessions i with readyFiles := sys.server.readyFiles } event =
        ((sys.sessions i).handles event).bind FsObject.asked := by
      cases event <;> rfl
    rw [hasks] at hreached
    have hself : Function.update sys.sessions i s i = s := Function.update_self ..
    refine ⟨seen ++ ((sys.sessions i).handles event).toList,
      answers ++ ((((sys.sessions i).handles event).bind FsObject.asked).map fun path =>
        (path, job.isCompleted path)).toList,
      h.managed, h.current, h.continues, ?_, ?_, ?_, ?_, ?_, ?_⟩
    · simp only [hself]
      exact hreached
    · cases hhandles : (sys.sessions i).handles event with
      | none => simpa using h.seen_prefix
      | some o =>
        obtain ⟨todo, hpc⟩ := SessionState.handles_live hhandles
        refine ⟨todo, ?_⟩
        rw [h.todo hnotdead, hpc, List.append_assoc]
        rfl
    · intro hlive
      simp only [hself] at hlive ⊢
      have htodo := sessionStep_todo hstep hlive
      rw [List.append_assoc, h.todo hnotdead]
      exact congrArg (seen ++ ·) htodo
    · rw [List.map_append, List.filterMap_append, h.asked]
      cases (sys.sessions i).handles event with
      | none => rfl
      | some o => cases hasked : o.asked <;> simp [hasked]
    · intro hrefused
      rw [h.asks_none hrefused, h.refused hrefused]
      rfl
    · intro qa hqa
      rcases List.mem_append.1 hqa with hold | hnew
      · exact h.truthful qa hold
      · obtain ⟨q, -, rfl⟩ := Option.map_eq_some_iff.1 (Option.mem_toList.1 hnew)
        refine ⟨fun hcompleted => hcompleted, fun hnot => ?_⟩
        by_contra hcompleted
        rw [Bool.not_eq_false] at hcompleted
        exact absurd (h.continues.isCompleted hcompleted) (Bool.eq_false_iff.1 hnot)

theorem Resuming.step (h : Resuming cfg i manager job₁ sys job seen answers) {event : ServerEvent}
    (hs : systemStep cfg sys event = some sys') :
    ∃ job' seen' answers', Resuming cfg i manager job₁ sys' job' seen' answers' := by
  cases event with
  | session j event =>
    by_cases hij : j = i
    · subst hij
      obtain ⟨seen', answers', h'⟩ := h.session hs
      exact ⟨job, seen', answers', h'⟩
    · unfold systemStep at hs
      split at hs
      · cases hs
      · simp only at hs
        split at hs
        · cases hs
        · obtain ⟨s, -, rfl⟩ := Option.map_eq_some_iff.1 hs
          refine ⟨job, seen, answers, h.other List.prefix_rfl h.current (.refl job) ?_⟩
          exact Function.update_of_ne (Ne.symm hij) ..
  | connection a =>
    obtain ⟨-, -, rfl⟩ := systemStep_connection hs
    obtain ⟨job', hjob', hcontinues⟩ := handleConnection_job cfg.server h.current a
    exact ⟨job', seen, answers,
      h.other (handleConnection_managers cfg.server sys.server a) hjob' hcontinues rfl⟩
  | pop j =>
    unfold systemStep at hs
    split at hs
    · cases hs
    · obtain rfl := Option.some.inj hs
      exact ⟨job, seen, answers, h.other List.prefix_rfl h.current (.refl job) rfl⟩

/-- **One session of many**: it is a session on its own, of a job that had completed what the
session skipped. -/
theorem Resuming.alone (h : Resuming cfg i manager job₁ sys job seen answers)
    (horderly : (cfg.started i manager.1 job₁).accepts = true → Orderly (cfg.session i).objects) :
    ∃ completed : GuardedSet Bytes,
      job₁.Continues { job₁ with completedPaths := completed } ∧
      (∀ path ∈ completed, path ∈ job.completedPaths) ∧
      ∃ events t, script (sessionStep (cfg.started i manager.1
        { job₁ with completedPaths := completed })) (.start (cfg.session i) .empty) events = some t ∧
        (sys.sessions i).Alike t := by
  cases haccepts : (cfg.started i manager.1 job₁).accepts with
  | false =>
    refine ⟨job₁.completedPaths, .refl job₁, h.continues.completed, ?_⟩
    exact h.reached job₁ (by rw [h.refused haccepts]; rintro qa ⟨⟩)
  | true =>
    have horderly := horderly haccepts
    have hseen : ∀ o ∈ seen, o.asked = some o.relativePath := by
      intro o ho
      rw [FsObject.asked, horderly.relative o (h.seen_prefix.subset ho)]
      rfl
    have hpaths : answers.map (·.1) = seen.map FsObject.relativePath := by
      rw [h.asked, ← List.filterMap_eq_map]
      exact List.filterMap_congr hseen
    have hnodup : (answers.map (·.1)).Nodup := by
      rw [hpaths]
      exact horderly.distinct.sublist (h.seen_prefix.sublist.map _)
    have hnul : ∀ qa ∈ answers, cstr qa.1 = qa.1 := by
      intro qa hqa
      have hmem : qa.1 ∈ seen.map FsObject.relativePath := hpaths ▸ List.mem_map_of_mem hqa
      obtain ⟨o, ho, hpath⟩ := List.mem_map.1 hmem
      rw [← hpath]
      exact cstr_eq_self (horderly.no_nul o (h.seen_prefix.subset ho))
    let completed : GuardedSet Bytes :=
      ⟨job₁.completedPaths.data ∪ ((answers.filter (·.2)).map (·.1)).toFinset⟩
    have hmem : ∀ path, path ∈ completed ↔
        path ∈ job₁.completedPaths ∨ (path, true) ∈ answers := by
      intro path
      show path ∈ job₁.completedPaths.data ∪ _ ↔ _
      rw [Finset.mem_union, List.mem_toFinset, List.mem_map]
      refine or_congr_right ⟨?_, fun hpath => ⟨(path, true), ?_, rfl⟩⟩
      · rintro ⟨⟨q, b⟩, hqa, rfl⟩
        obtain ⟨hqa, rfl⟩ := List.mem_filter.1 hqa
        exact hqa
      · exact List.mem_filter.2 ⟨hpath, rfl⟩
    refine ⟨completed, ⟨rfl, rfl, fun path hpath => (hmem path).2 (.inl hpath)⟩, ?_, ?_⟩
    · intro path hpath
      rcases (hmem path).1 hpath with hbefore | hanswer
      · exact h.continues.completed path hbefore
      · have hcompleted := (h.truthful _ hanswer).1 rfl
        rw [Job.isCompleted, hnul _ hanswer, GuardedSet.contains_iff] at hcompleted
        exact hcompleted
    · apply h.reached { job₁ with completedPaths := completed }
      rintro ⟨q, b⟩ hqa
      have hq : Job.isCompleted { job₁ with completedPaths := completed } q = true ↔
          q ∈ completed := by
        rw [Job.isCompleted, hnul _ hqa, GuardedSet.contains_iff]
      cases b with
      | true => exact hq.2 ((hmem q).2 (.inr hqa))
      | false =>
        rw [Bool.eq_false_iff, ne_eq, hq, hmem]
        rintro (hbefore | htrue)
        · have hnot := (h.truthful _ hqa).2 rfl
          rw [Job.isCompleted, hnul _ hqa, Bool.eq_false_iff, ne_eq, GuardedSet.contains_iff] at hnot
          exact hnot hbefore
        · cases List.inj_on_of_nodup_map hnodup hqa htrue rfl

/-- On a file system, it is the session of the job there. -/
theorem Resuming.onFileSystem (h : Resuming cfg i manager job₁ sys job seen answers)
    (fs : FileSystem) {ctx : CrawlContext} {root : Bytes} (habs : isAbsolute root = true)
    (hres : isResolved root = true) {fuel : Nat} (hfuel : fs.tree.dirCount ≤ fuel)
    {integrity : Bytes → IntegrityCalls} {workers : Nat}
    (hsession : cfg.session i = .onFileSystem fs fuel ctx root integrity workers)
    (hpath : ctx.job.path = job₁.path) :
    ∃ completed : GuardedSet Bytes,
      (∀ path ∈ job₁.completedPaths, path ∈ completed) ∧
      (∀ path ∈ completed, path ∈ job.completedPaths) ∧
      let alone : SessionConfig := .onFileSystem fs fuel
        { ctx with peer := manager.1.peer, job := { job₁ with completedPaths := completed } } root
        integrity workers
      ∃ events readyFiles, script (sessionStep alone) (.start alone .empty) events =
        some { sys.sessions i with readyFiles } := by
  have halone : ∀ completed : GuardedSet Bytes,
      cfg.started i manager.1 { job₁ with completedPaths := completed } = .onFileSystem fs fuel
        { ctx with peer := manager.1.peer, job := { job₁ with completedPaths := completed } } root
        integrity workers := by
    intro completed
    rw [SystemConfig.started, hsession, SessionConfig.onFileSystem, SessionConfig.onFileSystem,
      hpath]
  have horderly : (cfg.started i manager.1 job₁).accepts = true →
      Orderly (cfg.session i).objects := by
    intro haccepts
    have hsame := halone job₁.completedPaths
    have hobjects : (cfg.session i).objects = (cfg.started i manager.1 job₁).objects := rfl
    rw [hobjects, hsame]
    rw [hsame] at haccepts
    exact orderly_of_accepts fs habs hres hfuel haccepts
  obtain ⟨completed, hmore, hnow, events, t, hrun, halike⟩ := h.alone horderly
  refine ⟨completed, hmore.completed, hnow, events, t.readyFiles, ?_⟩
  rw [halone completed, hsession] at hrun
  rw [show { sys.sessions i with readyFiles := t.readyFiles } = t from halike]
  exact hrun

end Resuming

/-- A session whose manager was not started stands at its start. -/
def Unstarted (cfg : SystemConfig) (sys : ServerSystem) : Prop :=
  ∀ j, sys.server.managers.length ≤ j → sys.sessions j = .start (cfg.session j) .empty

theorem Unstarted.step (h : Unstarted cfg sys) {event : ServerEvent}
    (hs : systemStep cfg sys event = some sys') : Unstarted cfg sys' := by
  cases event with
  | connection a =>
    obtain ⟨-, -, rfl⟩ := systemStep_connection hs
    have hmore := (handleConnection_managers cfg.server sys.server a).length_le
    exact fun j hj => h j (hmore.trans hj)
  | session i event =>
    unfold systemStep at hs
    split at hs
    · cases hs
    · simp only at hs
      split at hs
      · cases hs
      · next manager hmanager =>
        obtain ⟨s, -, rfl⟩ := Option.map_eq_some_iff.1 hs
        obtain ⟨hlt, -⟩ := List.getElem?_eq_some_iff.1 hmanager
        intro j hj
        have hne : j ≠ i := by
          rintro rfl
          exact absurd hj (Nat.not_le.2 hlt)
        exact (Function.update_of_ne hne ..).trans (h j hj)
  | pop j =>
    unfold systemStep at hs
    split at hs
    · cases hs
    · obtain rfl := Option.some.inj hs
      exact h

/-- A manager thread is started. -/
theorem Unstarted.begins (h : Unstarted cfg sys) {conn : SocketConnection} {id : Bytes} {job : Job}
    (hsessions : sys'.sessions = sys.sessions)
    (hmanagers : sys'.server.managers = sys.server.managers ++ [(conn, id)])
    (hjob : sys'.server.jobs id = some job) :
    Resuming cfg sys.server.managers.length (conn, id) job sys' job [] [] := by
  have hstart := h _ (Nat.le_refl sys.server.managers.length)
  refine ⟨?_, hjob, .refl job, ?_, List.nil_prefix, ?_, rfl, fun _ => rfl, by rintro qa ⟨⟩⟩
  · rw [hmanagers, List.getElem?_append_right (Nat.le_refl _), Nat.sub_self]
    rfl
  · rw [hsessions, hstart]
    exact .start rfl
  · intro _
    rw [hsessions, hstart]
    rfl

end System

/-! ## A session goes on -/

/-- Whether a session has a step depends on where it stands. -/
theorem sessionStep_isSome {cfg cfg' : SessionConfig} {s s' : SessionState} (h : s.Alike s')
    (event : SessionEvent) :
    (sessionStep cfg s event).isSome = (sessionStep cfg' s' event).isSome := by
  obtain ⟨pc, total, drawn, readyFiles, pool, stream⟩ := s
  obtain ⟨pc', total', drawn', readyFiles', pool', stream'⟩ := s'
  obtain ⟨rfl, rfl, rfl, rfl, rfl⟩ : pc = pc' ∧ total = total' ∧ drawn = drawn' ∧ pool = pool' ∧
      stream = stream' := by simpa [SessionState.Alike] using h
  unfold sessionStep
  by_cases hdead : pc = .dead
  · rw [if_pos hdead, if_pos hdead]
  · rw [if_neg hdead, if_neg hdead]
    cases event with
    | manager =>
      cases pc with
      | crawling todo => cases todo <;> rfl
      | starting =>
        simp only [managerStep]
        split <;> split <;> first | rfl | (split <;> first | rfl | (split <;> rfl))
      | waiting =>
        simp only [managerStep]
        split <;> rfl
      | _ => rfl
    | pop i => simp
    | run j =>
      simp only
      split <;> rfl
    | finish j =>
      simp only
      split <;> rfl

/-- A thread that keeps its job has every step in the server that it has by itself. -/
theorem TableSystem.JobsLive.goesOn {cfg : SystemConfig} {g : Growth} {t : TableSystem}
    (h : t.JobsLive) (hended : t.sys.ended = false) {i : Nat}
    {manager : SocketConnection × Bytes} (hmanager : t.sys.server.managers[i]? = some manager)
    {alone : SessionConfig} {s : SessionState} (hs : (t.sys.sessions i).Alike s)
    {event : SessionEvent} (hgoes : (sessionStep alone s event).isSome = true) :
    (tableStep cfg g t (.session i event)).isSome = true := by
  have hfound : SessionState.Alike s
      { t.sys.sessions i with readyFiles := t.sys.server.readyFiles } := by
    unfold SessionState.Alike at hs ⊢
    rw [← hs]
  rw [tableStep_session_isSome cfg g hended hmanager]
  · exact (sessionStep_isSome hfound event).symm.trans hgoes
  · intro _ huses
    obtain ⟨ref, job, href, -, hread, -⟩ :=
      h i manager hmanager (ManagerPc.willUseJob_of_usesJob huses)
    rw [JobTable.readJob, href, Option.bind_some, hread]
    rfl

end Netpull
