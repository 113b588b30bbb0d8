import Netpull.Server.Serves
import Netpull.Server.Tickets

/-!
# Where messages come from

Every object message of a session is what `HandleObject` and the integrity task make of one object of
the visit (`sessionStep_origins`). Its path is that of a node of the tree, and what lies above it is a
directory (`onFileSystem_treeNamed`).
-/

namespace Netpull

open PullObject Separated

/-! ## What a message says -/

/-- A message that the server makes of an object. -/
def MadeOf (cfg : SessionConfig) (o : FsObject) (pull : PullObject) : Prop :=
  ∃ total drawn out, outgoing cfg.ctx total drawn o = .ok (some out) ∧
    out.message cfg.digest = some pull

/-- A task that completes such a message. -/
def TaskOf (cfg : SessionConfig) (o : FsObject) (task : IntegrityTask) : Prop :=
  ∃ total drawn id ready,
    outgoing cfg.ctx total drawn o = .ok (some (.submit id ready task.pull)) ∧ task.path = o.path

section Messages

variable {cfg : SessionConfig} {o : FsObject} {pull : PullObject}

theorem TaskOf.message {task : IntegrityTask} (h : TaskOf cfg o task)
    (hmessage : task.message cfg.digest = some pull) : MadeOf cfg o pull := by
  obtain ⟨total, drawn, id, ready, hout, hpath⟩ := h
  refine ⟨total, drawn, _, hout, ?_⟩
  rw [Outgoing.message, (outgoing_submit hout).2, ← hpath]
  exact hmessage

/-- What the message of an object is made of. -/
structure Portrays (cfg : SessionConfig) (o : FsObject) (pull : PullObject) : Prop where
  path : ∃ relativePath, relativeTo o.path o.root = .ok relativePath ∧ pull.path = cstr relativePath
  type : pull.type = o.type.pullType
  data : objectData o = .ok pull.data
  /-- A file has its digest and its size, and anything else no transfer. -/
  file : o.type = .file → ∃ sha256 id, cfg.digest o.path = some sha256 ∧
    pull.transfer = some ⟨sha256, transferBytes o.stat.stSize, id⟩
  other : o.type ≠ .file → pull.transfer = none

theorem pullObject_ok {users : Users} {number : Int32} {relativePath : Bytes}
    (h : pullObject users number relativePath o = .ok pull) :
    pull.path = cstr relativePath ∧ pull.type = o.type.pullType ∧ objectData o = .ok pull.data ∧
      pull.transfer = none := by
  unfold pullObject at h
  cases hdata : objectData o with
  | error e =>
    rw [hdata] at h
    cases h
  | ok data =>
    rw [hdata] at h
    obtain rfl := Except.ok.inj h
    exact ⟨rfl, rfl, rfl, rfl⟩

/-- What is made of an object: a file is put under the next id, and all else is sent. -/
theorem outgoing_some {ctx : CrawlContext} {total : Int32} {drawn : Nat} {out : Outgoing}
    (h : outgoing ctx total drawn o = .ok (some out)) :
    ∃ relativePath pull, relativeTo o.path o.root = .ok relativePath ∧
      pullObject ctx.users (total + 1) relativePath o = .ok pull ∧
      (o.type = .file ∧ out = .submit (ctx.secureRandomId drawn)
          ⟨ctx.peer, o.path, readyBytes o.stat.stSize⟩
          { pull with
            transfer := some ⟨[], transferBytes o.stat.stSize, ctx.secureRandomId drawn⟩ } ∨
        o.type ≠ .file ∧ out = .send pull) := by
  unfold outgoing at h
  cases hrel : relativeTo o.path o.root with
  | error e =>
    rw [hrel] at h
    cases h
  | ok relativePath =>
    rw [hrel, ok_bind] at h
    split at h
    · cases h
    · cases hpull : pullObject ctx.users (total + 1) relativePath o with
      | error e =>
        rw [hpull] at h
        cases h
      | ok pull =>
        rw [hpull] at h
        simp only [pure, Except.pure, ok_bind] at h
        refine ⟨relativePath, pull, rfl, hpull, ?_⟩
        split at h
        · next hfile => exact .inl ⟨hfile, (Option.some.inj (Except.ok.inj h)).symm⟩
        · next hother => exact .inr ⟨hother, (Option.some.inj (Except.ok.inj h)).symm⟩

theorem MadeOf.portrays (h : MadeOf cfg o pull) : Portrays cfg o pull := by
  obtain ⟨total, drawn, out, hout, hmessage⟩ := h
  obtain ⟨relativePath, q, hrel, hpull, hkind⟩ := outgoing_some hout
  obtain ⟨hpath, htype, hdata, htransfer⟩ := pullObject_ok hpull
  rcases hkind with ⟨hfile, rfl⟩ | ⟨hother, rfl⟩
  · obtain ⟨sha256, hdigest, rfl⟩ := Option.map_eq_some_iff.1 hmessage
    exact ⟨⟨relativePath, hrel, hpath⟩, htype, hdata, fun _ => ⟨sha256, _, hdigest, rfl⟩,
      fun hother => absurd hfile hother⟩
  · obtain rfl := Option.some.inj hmessage
    exact ⟨⟨relativePath, hrel, hpath⟩, htype, hdata, fun hfile => absurd hfile hother,
      fun _ => htransfer⟩

/-- The type of the message is that of the object. -/
theorem Portrays.of_type (h : Portrays cfg o pull) {type : FsObject.Type}
    (htype : pull.type = type.pullType) : o.type = type := by
  rw [h.type] at htype
  cases hobject : o.type <;> cases type <;> first | rfl | (rw [hobject] at htype; cases htype)

end Messages

/-! ## The messages of a session -/

/-- Everything that was sent, or is about to be, satisfies `Q`, and every task that completes a
message satisfies `T`. -/
structure Traced (cfg : SessionConfig) (Q : PullObject → Prop) (T : IntegrityTask → Prop)
    (s : SessionState) : Prop where
  todo : ∀ o ∈ s.pc.todo cfg, o ∈ cfg.objects
  stream : ∀ pull ∈ objectsOf s.stream, Q pull
  sending : ∀ pull ∈ s.pc.pull, Q pull
  tasks : ∀ task ∈ s.tasks, T task

/-- What is made of an object satisfies them. -/
def OutTraced (cfg : SessionConfig) (Q : PullObject → Prop) (T : IntegrityTask → Prop)
    (s : SessionState) (o : FsObject) : Prop :=
  ∀ out, outgoing cfg.ctx s.total s.drawn o = .ok (some out) →
    match out with
    | .send pull => Q pull
    | .submit _ _ pull => T ⟨pull, o.path⟩

section Sessions

variable {cfg : SessionConfig} {Q : PullObject → Prop} {T : IntegrityTask → Prop}
  {s s' : SessionState}

theorem Traced.start (cfg : SessionConfig) (Q : PullObject → Prop) (T : IntegrityTask → Prop)
    (readyFiles : ReadyFilesMap) : Traced cfg Q T (.start cfg readyFiles) where
  todo _ ho := ho
  stream := by rintro pull ⟨⟩
  sending := by rintro pull ⟨⟩
  tasks := by rintro task ⟨⟩

/-- The manager comes to another point with the same tasks, and sends no object. -/
theorem Traced.goesOn (h : Traced cfg Q T s) {pc : ManagerPc} {stream : List PullResponse}
    (htodo : ∀ o ∈ pc.todo cfg, o ∈ cfg.objects) (hpull : pc.pull = none)
    (htask : pc.task = s.pc.task) (hstream : objectsOf stream = objectsOf s.stream) :
    Traced cfg Q T { s with pc, stream } := by
  refine ⟨htodo, ?_, ?_, ?_⟩
  · intro pull hmem
    exact h.stream pull (hstream ▸ hmem)
  · intro pull hmem
    rw [hpull] at hmem
    cases hmem
  · intro task hmem
    rw [SessionState.tasks, htask] at hmem
    exact h.tasks task hmem

theorem objectsOf_concat {stream : List PullResponse} {resp : PullResponse}
    (h : ∀ pull, resp ≠ .object pull) : objectsOf (stream ++ [resp]) = objectsOf stream := by
  rw [objectsOf_append]
  cases resp with
  | object pull => exact absurd rfl (h pull)
  | unset | started job | finished total | error message => exact List.append_nil _

/-- The manager handles an object. -/
theorem Traced.handle (h : Traced cfg Q T s) {o : FsObject} {todo : List FsObject}
    (hpc : s.pc = .crawling (o :: todo)) (hhandled : OutTraced cfg Q T s o) :
    Traced cfg Q T (handleStep cfg s o todo) := by
  have hobjects := h.todo
  rw [hpc] at hobjects
  have htodo : ∀ o' ∈ todo, o' ∈ cfg.objects := fun o' ho' => hobjects o' (.tail _ ho')
  have hpool : ∀ task ∈ s.pool.work some IntegrityRun.task, T task :=
    fun task htask => h.tasks task (List.mem_append_right _ htask)
  unfold handleStep
  split
  · refine ⟨fun _ ho => ho, h.stream, ?_, hpool⟩
    rintro pull ⟨⟩
  · refine ⟨htodo, h.stream, ?_, hpool⟩
    rintro pull ⟨⟩
  · next pull hout =>
    refine ⟨htodo, h.stream, ?_, hpool⟩
    rintro pull ⟨⟩
    exact hhandled _ hout
  · next id ready pull hout =>
    refine ⟨htodo, h.stream, ?_, ?_⟩
    · rintro pull ⟨⟩
    · intro task htask
      rcases List.mem_append.1 htask with htask | htask
      · obtain rfl := List.mem_singleton.1 htask
        exact hhandled _ hout
      · exact hpool task htask

theorem Traced.manager (h : Traced cfg Q T s)
    (hhandled : ∀ o todo, s.pc = .crawling (o :: todo) → OutTraced cfg Q T s o)
    (hs : managerStep cfg s = some s') : Traced cfg Q T s' := by
  cases managerStep_cases hs with
  | handles o todo hpc => exact h.handle hpc (hhandled o todo hpc)
  | rejects hpc | dies hpc =>
    refine h.goesOn (fun _ ho => ho) rfl (by rw [hpc]; rfl) (objectsOf_concat fun _ => ?_)
    exact PullResponse.noConfusion
  | starts hpc =>
    refine h.goesOn (fun _ ho => ho) rfl (by rw [hpc]; rfl) (objectsOf_concat fun _ => ?_)
    exact PullResponse.noConfusion
  | visited hpc =>
    exact h.goesOn (by rintro o ⟨⟩) rfl (by rw [hpc]; rfl) rfl
  | drained hpc =>
    exact h.goesOn (by rintro o ⟨⟩) rfl (by rw [hpc]; rfl) rfl
  | finishes hpc =>
    refine h.goesOn (by rintro o ⟨⟩) rfl (by rw [hpc]; rfl) (objectsOf_concat fun _ => ?_)
    exact PullResponse.noConfusion
  | sends pull todo hpc =>
    have htodo := h.todo
    have hsending := h.sending pull (by rw [hpc]; rfl)
    have htasks := h.tasks
    rw [SessionState.tasks, hpc] at htasks
    rw [hpc] at htodo
    refine ⟨htodo, ?_, by rintro q ⟨⟩, htasks⟩
    intro q hq
    rw [objectsOf_append] at hq
    rcases List.mem_append.1 hq with hold | hnew
    · exact h.stream q hold
    · exact List.mem_singleton.1 hnew ▸ hsending
  | prepares task todo hpc =>
    have htodo := h.todo
    have htasks := h.tasks
    rw [SessionState.tasks, hpc] at htasks
    rw [hpc] at htodo
    exact ⟨htodo, h.stream, by rintro q ⟨⟩, htasks⟩
  | submits task todo hpc =>
    have htodo := h.todo
    have htasks := h.tasks
    rw [SessionState.tasks, hpc] at htasks
    rw [hpc] at htodo
    refine ⟨htodo, h.stream, by rintro q ⟨⟩, ?_⟩
    intro t ht
    exact htasks t ((WorkerPool.work_submit s.pool task).mem_iff.1 ht)

/-- **Every event keeps it**, if what the manager makes of an object satisfies it and a task that
satisfies `T` sends what satisfies `Q`. -/
theorem sessionStep_traced (h : Traced cfg Q T s) {event : SessionEvent}
    (hhandled : ∀ o todo, event = .manager → s.pc = .crawling (o :: todo) → OutTraced cfg Q T s o)
    (hcompletes : ∀ task pull, T task → task.message cfg.digest = some pull → Q pull)
    (hs : sessionStep cfg s event = some s') : Traced cfg Q T s' := by
  cases sessionStep_cases hs with
  | manager hmanager => exact h.manager (fun o todo hpc => hhandled o todo rfl hpc) hmanager
  | pops i pool hpop =>
    have hwork := WorkerPool.work_waitForTaskAndPop (f := some) (g := IntegrityRun.task)
      (fun _ => rfl) hpop
    refine ⟨h.todo, h.stream, h.sending, fun task htask => h.tasks task ?_⟩
    exact ((hwork.append_left _).mem_iff).1 htask
  | finishes j hj =>
    have hwork := WorkerPool.work_removePending (f := some) (g := IntegrityRun.task) hj rfl
    refine ⟨h.todo, h.stream, h.sending, fun task htask => h.tasks task ?_⟩
    exact ((hwork.append_left _).mem_iff).1 htask
  | runs j task hj =>
    have hwork := WorkerPool.work_goOn (f := some) (g := IntegrityRun.task) hj .returned
    have hrunning : task ∈ s.tasks := by
      refine List.mem_append_right _ (List.mem_append_right _ ?_)
      exact List.mem_filterMap.2 ⟨_, List.mem_of_getElem? hj, rfl⟩
    refine ⟨h.todo, ?_, h.sending, fun t ht => h.tasks t ?_⟩
    · intro pull hpull
      rw [objectsOf_append] at hpull
      rcases List.mem_append.1 hpull with hold | hnew
      · exact h.stream pull hold
      · cases hmessage : task.message cfg.digest with
        | none =>
          rw [hmessage] at hnew
          cases hnew
        | some q =>
          rw [hmessage] at hnew
          obtain rfl := List.mem_singleton.1 hnew
          exact hcompletes task pull (h.tasks task hrunning) hmessage
    · rcases List.mem_append.1 ht with ht | ht
      · exact List.mem_append_left _ ht
      · exact List.mem_append_right _ (hwork.mem_iff.1 (List.mem_cons_of_mem _ ht))

/-- Everything that was sent, or is about to be, was made of objects of the visit. -/
def Made (cfg : SessionConfig) (s : SessionState) : Prop :=
  Traced cfg (fun pull => ∃ o ∈ cfg.objects, MadeOf cfg o pull)
    (fun task => ∃ o ∈ cfg.objects, TaskOf cfg o task) s

theorem Made.start (cfg : SessionConfig) (readyFiles : ReadyFilesMap) :
    Made cfg (.start cfg readyFiles) :=
  Traced.start cfg _ _ readyFiles

/-- **What a session sends** was made of objects of its visit. -/
theorem sessionStep_origins (h : Made cfg s) {event : SessionEvent}
    (hs : sessionStep cfg s event = some s') : Made cfg s' := by
  refine sessionStep_traced h ?_ ?_ hs
  · intro o todo _ hpc out hout
    have hobjects := h.todo
    rw [hpc] at hobjects
    have ho : o ∈ cfg.objects := hobjects o List.mem_cons_self
    cases out with
    | send pull => exact ⟨o, ho, _, _, _, hout, rfl⟩
    | submit id ready pull => exact ⟨o, ho, _, _, _, _, hout, rfl⟩
  · rintro task pull ⟨o, ho, htask⟩ hmessage
    exact ⟨o, ho, htask.message hmessage⟩

end Sessions

/-! ## The names of a tree -/

namespace Contents

/-- A node lies below one entry only. -/
theorem eq_of_heads {p ns : List Bytes} {n m : Bytes} (hn : p ++ [n] <+: ns) (hm : p ++ [m] <+: ns) :
    n = m :=
  Classical.byContradiction fun hne => names_ne_of_head hn hm hne rfl

/-- What lies above a node is a directory. -/
theorem WF.dir_of_above {c : Contents} (h : c.WF) {p : List Bytes} {node node' : Node}
    (hnode : node ∈ c.nodes p) (hnode' : node' ∈ c.nodes p) (hpre : node.names <+: node'.names)
    (hne : node.names ≠ node'.names) : modeType node.entry.stat.stMode = .dir := by
  induction c generalizing p with
  | nil => cases hnode
  | leaf name ino stat target rest ih =>
    obtain ⟨-, -, hfresh, hrest⟩ := h
    rcases List.mem_cons.1 hnode with rfl | hnode <;> rcases List.mem_cons.1 hnode' with rfl | hnode'
    · exact absurd rfl hne
    · obtain ⟨n, hn, hhead⟩ := node_head hnode'
      exact absurd (eq_of_heads hhead hpre ▸ hn) hfresh
    · obtain ⟨n, hn, hhead⟩ := node_head hnode
      exact absurd (eq_of_heads (hhead.trans hpre) (List.prefix_refl _) ▸ hn) hfresh
    · exact ih hrest hnode hnode'
  | dir name ino stat sub rest ihsub ih =>
    obtain ⟨-, hmode, hfresh, hsub, hrest⟩ := h
    have hbelow : ∀ node ∈ sub.nodes (p ++ [name]), p ++ [name] <+: node.names := by
      intro node hnode
      obtain ⟨ns, -, hns, -⟩ := hsub.node_names hnode
      exact hns ▸ List.prefix_append _ _
    rcases List.mem_cons.1 hnode with rfl | hnode
    · exact hmode
    rcases List.mem_append.1 hnode with hnode | hnode <;>
      rcases List.mem_cons.1 hnode' with rfl | hnode'
    · obtain ⟨ns, hns, hnames, -⟩ := hsub.node_names hnode
      have hlength : node.names.length ≤ (p ++ [name]).length := hpre.length_le
      rw [hnames, List.length_append] at hlength
      exact absurd (List.length_eq_zero_iff.1 (by omega)) hns
    · rcases List.mem_append.1 hnode' with hnode' | hnode'
      · exact ihsub hsub hnode hnode'
      · obtain ⟨n, hn, hhead⟩ := node_head hnode'
        exact absurd (eq_of_heads hhead ((hbelow node hnode).trans hpre) ▸ hn) hfresh
    · obtain ⟨n, hn, hhead⟩ := node_head hnode
      exact absurd (eq_of_heads (hhead.trans hpre) (List.prefix_refl _) ▸ hn) hfresh
    · rcases List.mem_append.1 hnode' with hnode' | hnode'
      · obtain ⟨n, hn, hhead⟩ := node_head hnode
        exact absurd (eq_of_heads (hhead.trans hpre) (hbelow node' hnode') ▸ hn) hfresh
      · exact ih hrest hnode hnode'

end Contents

/-- The names in the relative path of an object. -/
def FsObject.names (o : FsObject) : List Bytes := o.relativePath.splitOn slash

/-- Objects with the paths of nodes in a tree. -/
structure TreeNamed (objects : List FsObject) : Prop where
  names : ∀ o ∈ objects, ∀ n ∈ o.names, Contents.EntryName n
  directories : ∀ o ∈ objects, ∀ o' ∈ objects, o.names ≠ o'.names → o.names <+: o'.names →
    o.type = .directory

section Found

variable {fs : FileSystem} {l : Location} {fuel : Nat}

theorem objectOf_names {node : Node} (hnode : node ∈ fs.tree.nodes []) {o : FsObject}
    (h : fs.objectOf l.path node = some o) : o.names = node.names := by
  obtain ⟨ns, hne, hns, hnames⟩ := fs.wf.node_names hnode
  rw [List.nil_append] at hns
  subst hns
  rw [FsObject.names, objectOf_relativePath h, ← tail_spell]
  exact splitOn_tail_spell hne fun n hn => (hnames n hn).no_slash

theorem found_treeNamed (hfuel : fs.tree.dirCount ≤ fuel) :
    TreeNamed (found fs.kernel fuel l.path).1 where
  names o ho := by
    obtain ⟨node, hnode, -, hobj⟩ := (FileSystem.mem_found_iff hfuel).1 ho
    obtain ⟨ns, -, hns, hnames⟩ := fs.wf.node_names hnode
    rw [List.nil_append] at hns
    rw [objectOf_names hnode hobj, hns]
    exact hnames
  directories o ho o' ho' hne hpre := by
    obtain ⟨node, hnode, -, hobj⟩ := (FileSystem.mem_found_iff hfuel).1 ho
    obtain ⟨node', hnode', -, hobj'⟩ := (FileSystem.mem_found_iff hfuel).1 ho'
    rw [objectOf_names hnode hobj, objectOf_names hnode' hobj'] at hne hpre
    have hmode := fs.wf.dir_of_above hnode hnode' hpre hne
    obtain ⟨type, htype, rfl⟩ := Option.map_eq_some_iff.1 hobj
    exact (objectType_directory htype).1 hmode

/-- A session that is accepted visits a directory below the served root. -/
theorem location_of_accepts (fs : FileSystem) (ctx : CrawlContext) {root : Bytes}
    (habs : isAbsolute root = true) (hres : isResolved root = true)
    (integrity : Bytes → IntegrityCalls) (workers : Nat)
    (haccepts : (SessionConfig.onFileSystem fs fuel ctx root integrity workers).accepts = true) :
    ∃ l : Location, l.path = join root ctx.job.path := by
  rw [SessionConfig.accepts, Bool.and_eq_true, Bool.and_eq_true] at haccepts
  obtain ⟨⟨hjobabs, hjobres⟩, hvisit⟩ := haccepts
  have hvisit : isResolved (join root ctx.job.path) = true := hvisit
  rcases join_cases habs hres hjobabs hjobres with hnil | ⟨l, hl⟩
  · have hnil : join root ctx.job.path = [] := hnil
    rw [hnil] at hvisit
    cases hvisit
  · exact ⟨l, hl⟩

theorem onFileSystem_objects (fs : FileSystem) (ctx : CrawlContext) {root : Bytes}
    (habs : isAbsolute root = true) (hres : isResolved root = true)
    (integrity : Bytes → IntegrityCalls) (workers : Nat)
    (haccepts : (SessionConfig.onFileSystem fs fuel ctx root integrity workers).accepts = true) :
    ∃ l : Location, (SessionConfig.onFileSystem fs fuel ctx root integrity workers).objects =
      (found fs.kernel fuel l.path).1 := by
  obtain ⟨l, hl⟩ := location_of_accepts fs ctx habs hres integrity workers haccepts
  refine ⟨l, ?_⟩
  rw [hl]
  rfl

/-- The objects of a session that is accepted have the paths of nodes in a tree. -/
theorem onFileSystem_treeNamed (fs : FileSystem) (ctx : CrawlContext) {root : Bytes}
    (habs : isAbsolute root = true) (hres : isResolved root = true)
    (hfuel : fs.tree.dirCount ≤ fuel) (integrity : Bytes → IntegrityCalls) (workers : Nat)
    (haccepts : (SessionConfig.onFileSystem fs fuel ctx root integrity workers).accepts = true) :
    TreeNamed (SessionConfig.onFileSystem fs fuel ctx root integrity workers).objects := by
  obtain ⟨l, hobjects⟩ := onFileSystem_objects fs ctx habs hres integrity workers haccepts
  rw [hobjects]
  exact found_treeNamed hfuel

end Found

end Netpull
