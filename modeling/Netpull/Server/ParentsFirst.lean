import Netpull.Client.Layout
import Netpull.Server.Origins

/-!
# Directories come first

Between the message of an object and the visit lie a queue and the workers, which announce files in
any order. Still, no object is announced before the directory it lies in (`sessionStep_parents`), if
no directory is skipped.
-/

namespace Netpull

open PullObject Separated

/-! ## Names in order -/

/-- Where there is a last name to drop, dropping it changes the names. -/
theorem dropLast_ne {ns : List Bytes} (htop : ns.dropLast ≠ []) : ns.dropLast ≠ ns := by
  intro heq
  have hlength := congrArg List.length heq
  have hpos := List.length_pos_iff.2 htop
  rw [List.length_dropLast] at hlength hpos
  omega

/-- The names of a directory come before what lies in it, but for the top directory, which has none. -/
def ParentsFirst (l : List (List Bytes)) : Prop :=
  ∀ before ns, before ++ [ns] <+: l → ns.dropLast = [] ∨ ns.dropLast ∈ before

namespace ParentsFirst

variable {l l' : List (List Bytes)} {ns : List Bytes}

theorem nil : ParentsFirst [] := by
  intro before ns hbefore
  exact absurd (List.prefix_nil.1 hbefore) (by simp)

theorem of_prefix (h : ParentsFirst l') (hpre : l <+: l') : ParentsFirst l :=
  fun before ns hbefore => h before ns (hbefore.trans hpre)

theorem snoc (h : ParentsFirst l) (hns : ns.dropLast = [] ∨ ns.dropLast ∈ l) :
    ParentsFirst (l ++ [ns]) := by
  intro before ms hbefore
  rcases List.prefix_concat_iff.1 hbefore with hall | hbefore
  · obtain ⟨rfl, hms⟩ := List.append_inj' hall rfl
    obtain rfl := List.singleton_inj.1 hms
    exact hns
  · exact h before ms hbefore

/-- Where names are in the order of their length, it is enough that nothing is missing. -/
theorem of_sorted (hsorted : l.Pairwise fun ms ns => ms.length ≤ ns.length)
    (hclosed : ∀ ns ∈ l, ns.dropLast = [] ∨ ns.dropLast ∈ l) : ParentsFirst l := by
  rintro before ns ⟨rest, rfl⟩
  by_cases htop : ns.dropLast = []
  · exact .inl htop
  right
  have hshorter : ns.dropLast.length < ns.length := by
    rw [List.length_dropLast]
    have hpos := List.length_pos_iff.2 htop
    rw [List.length_dropLast] at hpos
    omega
  have hmem := (hclosed ns (by simp)).resolve_left htop
  rw [List.append_assoc, List.singleton_append] at hmem hsorted
  rcases List.mem_append.1 hmem with hbefore | hafter
  · exact hbefore
  · rcases List.mem_cons.1 hafter with hself | hrest
    · rw [hself] at hshorter
      exact absurd hshorter (Nat.lt_irrefl _)
    · have hlater := (List.pairwise_cons.1 (List.pairwise_append.1 hsorted).2.1).1 _ hrest
      exact absurd hshorter (Nat.not_lt.2 hlater)

end ParentsFirst

/-! ## The tree -/

namespace Contents

/-- A node lies at the top or in another node. -/
theorem parent_node {c : Contents} {p : List Bytes} {node : Node} (hnode : node ∈ c.nodes p) :
    node.names.dropLast = p ∨ ∃ node' ∈ c.nodes p, node'.names = node.names.dropLast := by
  induction c generalizing p with
  | nil => cases hnode
  | leaf name ino stat target rest ih =>
    rcases List.mem_cons.1 hnode with rfl | hnode
    · exact .inl List.dropLast_concat
    · exact (ih hnode).imp_right fun ⟨node', hmem, hnames⟩ => ⟨node', .tail _ hmem, hnames⟩
  | dir name ino stat sub rest ihsub ih =>
    rcases List.mem_cons.1 hnode with rfl | hnode
    · exact .inl List.dropLast_concat
    · rcases List.mem_append.1 hnode with hnode | hnode
      · right
        rcases ihsub hnode with htop | ⟨node', hmem, hnames⟩
        · exact ⟨_, .head _, htop.symm⟩
        · exact ⟨node', .tail _ (List.mem_append_left _ hmem), hnames⟩
      · refine (ih hnode).imp_right fun ⟨node', hmem, hnames⟩ => ⟨node', ?_, hnames⟩
        exact .tail _ (List.mem_append_right _ hmem)

end Contents

section Found

variable {fs : FileSystem} {l : Location} {fuel : Nat}

/-- What the crawler comes to, it has come to through its directory. -/
theorem FileSystem.unhindered_dropLast {ns : List Bytes} (h : fs.unhindered ns = true)
    (htop : ns.dropLast ≠ []) : fs.unhindered ns.dropLast = true := by
  have hless : ns.dropLast ≠ ns := dropLast_ne htop
  rw [unhindered, Bool.and_eq_true, visible_iff] at h ⊢
  obtain ⟨hopen, -, hcrawled⟩ := h
  have hparent := hcrawled ns.dropLast List.nil_prefix htop (List.dropLast_prefix ns) hless
  rw [crawled, Bool.and_eq_true, Bool.and_eq_true, Bool.not_eq_true'] at hparent
  refine ⟨hopen, hparent.1.1, fun q hp hne' hq hq' => ?_⟩
  refine hcrawled q hp hne' (hq.trans (List.dropLast_prefix ns)) ?_
  rintro rfl
  have hle := hq.length_le
  exact hless ((List.dropLast_prefix q).eq_of_length_le hle)

theorem found_parentsFirst (hfuel : fs.tree.dirCount ≤ fuel) :
    ParentsFirst ((found fs.kernel fuel l.path).1.map FsObject.names) := by
  apply ParentsFirst.of_sorted
  · have horderly : Orderly (found fs.kernel fuel l.path).1 := found_orderly hfuel
    have hsorted := horderly.sorted
    refine List.pairwise_map.2 (hsorted.imp fun hle => ?_)
    rw [FsObject.names, FsObject.names, length_splitOn, length_splitOn]
    exact Nat.succ_le_succ hle
  · intro ns hns
    obtain ⟨o, ho, rfl⟩ := List.mem_map.1 hns
    obtain ⟨node, hnode, hvisible, hobj⟩ := (FileSystem.mem_found_iff hfuel).1 ho
    rw [objectOf_names hnode hobj]
    by_cases htop : node.names.dropLast = []
    · exact .inl htop
    right
    obtain ⟨node', hnode', hnames⟩ := (Contents.parent_node hnode).resolve_left htop
    have hless : node'.names ≠ node.names := hnames ▸ dropLast_ne htop
    have hmode := fs.wf.dir_of_above hnode' hnode (hnames ▸ List.dropLast_prefix _) hless
    obtain ⟨o', hobj'⟩ : ∃ o', fs.objectOf l.path node' = some o' := by
      rw [FileSystem.objectOf, hmode]
      exact ⟨_, rfl⟩
    refine List.mem_map.2 ⟨o', (FileSystem.mem_found_iff hfuel).2 ⟨node', hnode', ?_, hobj'⟩, ?_⟩
    · rw [hnames]
      exact FileSystem.unhindered_dropLast hvisible htop
    · rw [objectOf_names hnode' hobj', hnames]

theorem onFileSystem_parentsFirst (fs : FileSystem) (ctx : CrawlContext) {root : Bytes}
    (habs : isAbsolute root = true) (hres : isResolved root = true)
    (hfuel : fs.tree.dirCount ≤ fuel) (integrity : Bytes → IntegrityCalls) (workers : Nat)
    (haccepts : (SessionConfig.onFileSystem fs fuel ctx root integrity workers).accepts = true) :
    ParentsFirst ((SessionConfig.onFileSystem fs fuel ctx root integrity workers).objects.map
      FsObject.names) := by
  obtain ⟨l, hobjects⟩ := onFileSystem_objects fs ctx habs hres integrity workers haccepts
  rw [hobjects]
  exact found_parentsFirst hfuel

end Found

/-! ## The stream -/

/-- The names of the objects that were announced. -/
def SessionState.announcedNames (s : SessionState) : List (List Bytes) :=
  (objectsOf s.stream).map PullObject.names

/-- The directory that something lies in was announced. -/
def SessionState.HasParent (s : SessionState) (ns : List Bytes) : Prop :=
  ns.dropLast = [] ∨ ns.dropLast ∈ s.announcedNames

/-- What every event keeps. -/
structure ParentsSent (cfg : SessionConfig) (s : SessionState) : Prop where
  stream : ParentsFirst s.announcedNames
  /-- The directories that the visit has come to were announced, but for one. -/
  visited : ∃ before, cfg.objects = before ++ s.pc.todo cfg ∧
    ∀ o ∈ before, o.type = .directory →
      o.names ∈ s.announcedNames ∨ ∃ pull ∈ s.pc.pull, pull.names = o.names
  sending : ∀ pull ∈ s.pc.pull, s.HasParent pull.names
  tasks : ∀ task ∈ s.tasks, s.HasParent task.pull.names

section Sessions

variable {cfg : SessionConfig} {s s' : SessionState}

theorem ParentsSent.start (cfg : SessionConfig) (readyFiles : ReadyFilesMap) :
    ParentsSent cfg (.start cfg readyFiles) where
  stream := .nil
  visited := ⟨[], rfl, by rintro o ⟨⟩⟩
  sending := by rintro pull ⟨⟩
  tasks := by rintro task ⟨⟩

/-- The manager comes to another point with the same tasks, and sends no object. -/
theorem ParentsSent.goesOn (h : ParentsSent cfg s) {pc : ManagerPc} {stream : List PullResponse}
    (htodo : pc.todo cfg = cfg.objects ∨ pc.todo cfg = s.pc.todo cfg ∧ s.pc.pull = none)
    (hpull : pc.pull = none) (htask : pc.task = s.pc.task)
    (hstream : objectsOf stream = objectsOf s.stream) :
    ParentsSent cfg { s with pc, stream } := by
  have hnames : SessionState.announcedNames { s with pc, stream } = s.announcedNames :=
    congrArg (List.map PullObject.names) hstream
  refine ⟨hnames ▸ h.stream, ?_, ?_, ?_⟩
  · rcases htodo with hall | ⟨hsame, hnone⟩
    · exact ⟨[], hall.symm, by rintro o ⟨⟩⟩
    · obtain ⟨before, hobjects, hvisited⟩ := h.visited
      refine ⟨before, by rw [hsame]; exact hobjects, fun o ho hdirectory => .inl ?_⟩
      rw [hnames]
      refine (hvisited o ho hdirectory).resolve_right ?_
      rintro ⟨pull, hmem, -⟩
      rw [hnone] at hmem
      cases hmem
  · intro pull hmem
    rw [hpull] at hmem
    cases hmem
  · intro task hmem
    rw [SessionState.HasParent, hnames]
    rw [SessionState.tasks, htask] at hmem
    exact h.tasks task hmem

/-- When the visit comes to an object, the directory it lies in was announced. -/
theorem ParentsSent.hasParent (h : ParentsSent cfg s) (hnamed : TreeNamed cfg.objects)
    (hfirst : ParentsFirst (cfg.objects.map FsObject.names)) {o : FsObject} {todo : List FsObject}
    (hpc : s.pc = .crawling (o :: todo)) : s.HasParent o.names := by
  obtain ⟨before, hobjects, hvisited⟩ := h.visited
  rw [hpc] at hobjects hvisited
  have hobjects : cfg.objects = before ++ o :: todo := hobjects
  have hpre : before.map FsObject.names ++ [o.names] <+: cfg.objects.map FsObject.names := by
    rw [hobjects, List.map_append, List.map_cons]
    exact ⟨todo.map FsObject.names, by rw [List.append_assoc]; rfl⟩
  by_cases htop : o.names.dropLast = []
  · exact .inl htop
  right
  obtain ⟨p, hp, hnames⟩ := List.mem_map.1 ((hfirst _ _ hpre).resolve_left htop)
  have hdirectory : p.type = .directory := by
    refine hnamed.directories p ?_ o ?_ ?_ (hnames ▸ List.dropLast_prefix _)
    · rw [hobjects]
      exact List.mem_append_left _ hp
    · rw [hobjects]
      exact List.mem_append_right _ (.head _)
    · rw [hnames]
      exact dropLast_ne htop
  rw [← hnames]
  refine (hvisited p hp hdirectory).resolve_right ?_
  rintro ⟨pull, ⟨⟩, -⟩

theorem Announces.names {o : FsObject} {out : Outgoing} (h : Announces o out) :
    out.pull.names = o.names := congrArg (·.splitOn slash) h.path

/-- The manager handles an object. -/
theorem ParentsSent.handle (h : ParentsSent cfg s) (horderly : Orderly cfg.objects)
    (hnamed : TreeNamed cfg.objects) (hfirst : ParentsFirst (cfg.objects.map FsObject.names))
    (hnew : ∀ o ∈ cfg.objects, o.type = .directory →
      cfg.ctx.job.isCompleted o.relativePath = false) {o : FsObject} {todo : List FsObject}
    (hpc : s.pc = .crawling (o :: todo)) : ParentsSent cfg (handleStep cfg s o todo) := by
  have hparent := h.hasParent hnamed hfirst hpc
  obtain ⟨before, hobjects, hvisited⟩ := h.visited
  rw [hpc] at hobjects hvisited
  have hobjects : cfg.objects = before ++ o :: todo := hobjects
  have ho : o ∈ cfg.objects := hobjects ▸ List.mem_append_right _ (.head _)
  have hmore : cfg.objects = (before ++ [o]) ++ todo := by
    rw [hobjects, List.append_assoc]
    rfl
  have hbefore : ∀ p ∈ before, p.type = .directory → p.names ∈ s.announcedNames := by
    intro p hp hdirectory
    refine (hvisited p hp hdirectory).resolve_right ?_
    rintro ⟨pull, ⟨⟩, -⟩
  have hpool : ∀ task ∈ s.pool.work some IntegrityRun.task, s.HasParent task.pull.names :=
    fun task htask => h.tasks task (List.mem_append_right _ htask)
  -- No directory but `o` itself is new, and only if it is about to be sent.
  have hafter : ∀ {pc : ManagerPc}, (o.type = .directory → ∃ pull ∈ pc.pull, pull.names = o.names) →
      ∀ p ∈ before ++ [o], p.type = .directory →
        p.names ∈ s.announcedNames ∨ ∃ pull ∈ pc.pull, pull.names = p.names := by
    intro pc hself p hp hdirectory
    rcases List.mem_append.1 hp with hp | hp
    · exact .inl (hbefore p hp hdirectory)
    · obtain rfl := List.mem_singleton.1 hp
      exact .inr (hself hdirectory)
  unfold handleStep
  rcases outgoing_cases cfg.ctx (horderly.relative o ho) (horderly.no_nul o ho) s.total s.drawn with
    ⟨hout, hcompleted⟩ | ⟨e, hout, -⟩ | ⟨out, hout, -, hannounces, -⟩
  · rw [hout]
    refine ⟨h.stream, ⟨before ++ [o], hmore, hafter fun hdirectory => ?_⟩, ?_, hpool⟩
    · rw [hnew o ho hdirectory] at hcompleted
      cases hcompleted
    · rintro pull ⟨⟩
  · rw [hout]
    refine ⟨h.stream, ⟨[], rfl, by rintro p ⟨⟩⟩, ?_, hpool⟩
    rintro pull ⟨⟩
  · rw [hout]
    cases out with
    | send pull =>
      refine ⟨h.stream, ⟨before ++ [o], hmore, hafter fun _ => ⟨pull, rfl, hannounces.names⟩⟩, ?_,
        hpool⟩
      rintro pull ⟨⟩
      rw [← hannounces.names] at hparent
      exact hparent
    | submit id ready pull =>
      obtain ⟨hfile, -, -⟩ := hannounces.submits id ready pull rfl
      refine ⟨h.stream, ⟨before ++ [o], hmore, hafter fun hdirectory => ?_⟩, ?_, ?_⟩
      · rw [hfile] at hdirectory
        cases hdirectory
      · rintro pull ⟨⟩
      · intro task htask
        rcases List.mem_append.1 htask with htask | htask
        · obtain rfl := List.mem_singleton.1 htask
          rw [← hannounces.names] at hparent
          exact hparent
        · exact hpool task htask

/-- An announcement of something whose directory was announced. -/
theorem ParentsSent.announce (h : ParentsSent cfg s) {pull : PullObject}
    (hpull : s.HasParent pull.names) {stream : List PullResponse}
    (hstream : stream = s.stream ++ [.object pull]) {pc : ManagerPc}
    {pool : WorkerPool IntegrityTask IntegrityRun} (htodo : pc.todo cfg = s.pc.todo cfg)
    (hsent : ∀ q ∈ s.pc.pull, q = pull ∨ q ∈ pc.pull) (hpc : ∀ q ∈ pc.pull, q ∈ s.pc.pull)
    (htasks : ∀ task ∈ ({ s with pc, pool } : SessionState).tasks, task ∈ s.tasks) :
    ParentsSent cfg { s with pc, pool, stream } := by
  have hnames : SessionState.announcedNames { s with pc, pool, stream } =
      s.announcedNames ++ [pull.names] := by
    rw [SessionState.announcedNames, hstream, objectsOf_append, List.map_append]
    rfl
  have hmono : ∀ {ns}, s.HasParent ns → SessionState.HasParent { s with pc, pool, stream } ns := by
    intro ns hns
    refine hns.imp_right fun hmem => ?_
    rw [hnames]
    exact List.mem_append_left _ hmem
  refine ⟨?_, ?_, fun q hq => hmono (h.sending q (hpc q hq)),
    fun task htask => hmono (h.tasks task (htasks task htask))⟩
  · rw [hnames]
    exact h.stream.snoc hpull
  · obtain ⟨before, hobjects, hvisited⟩ := h.visited
    refine ⟨before, by rw [htodo]; exact hobjects, fun o ho hdirectory => ?_⟩
    rw [hnames]
    rcases hvisited o ho hdirectory with hmem | ⟨q, hq, hsame⟩
    · exact .inl (List.mem_append_left _ hmem)
    · rcases hsent q hq with rfl | hstill
      · exact .inl (List.mem_append_right _ (List.mem_singleton.2 hsame.symm))
      · exact .inr ⟨q, hstill, hsame⟩

theorem ParentsSent.manager (h : ParentsSent cfg s) (horderly : Orderly cfg.objects)
    (hnamed : TreeNamed cfg.objects) (hfirst : ParentsFirst (cfg.objects.map FsObject.names))
    (hnew : ∀ o ∈ cfg.objects, o.type = .directory →
      cfg.ctx.job.isCompleted o.relativePath = false) (hs : managerStep cfg s = some s') :
    ParentsSent cfg s' := by
  cases managerStep_cases hs with
  | handles o todo hpc => exact h.handle horderly hnamed hfirst hnew hpc
  | rejects hpc | starts hpc _ _ _ | dies hpc _ =>
    refine h.goesOn (.inl rfl) rfl (by rw [hpc]; rfl) (objectsOf_concat fun _ => ?_)
    exact PullResponse.noConfusion
  | visited hpc | drained hpc _ =>
    exact h.goesOn (.inr ⟨by rw [hpc]; rfl, by rw [hpc]; rfl⟩) rfl (by rw [hpc]; rfl) rfl
  | finishes hpc =>
    refine h.goesOn (.inr ⟨by rw [hpc]; rfl, by rw [hpc]; rfl⟩) rfl (by rw [hpc]; rfl)
      (objectsOf_concat fun _ => PullResponse.noConfusion)
  | sends pull todo hpc =>
    refine h.announce (h.sending pull (by rw [hpc]; rfl)) rfl (by rw [hpc]; rfl) ?_ ?_ ?_
    · intro q hq
      rw [hpc] at hq
      exact .inl (Option.some.inj hq).symm
    · rintro q ⟨⟩
    · intro task htask
      rw [SessionState.tasks, hpc]
      exact htask
  | prepares task todo hpc =>
    have hkept : ParentsSent cfg { s with pc := .submitting task todo, stream := s.stream } :=
      h.goesOn (.inr ⟨by rw [hpc]; rfl, by rw [hpc]; rfl⟩) rfl (by rw [hpc]; rfl) rfl
    exact ⟨hkept.stream, hkept.visited, hkept.sending, hkept.tasks⟩
  | submits task todo hpc =>
    have hvisited := h.visited
    have htasks := h.tasks
    rw [SessionState.tasks, hpc] at htasks
    rw [hpc] at hvisited
    refine ⟨h.stream, hvisited, by rintro q ⟨⟩, fun t ht => ?_⟩
    exact htasks t ((WorkerPool.work_submit s.pool task).mem_iff.1 ht)

/-- **No object is announced before the directory it lies in**, if no directory is skipped. -/
theorem sessionStep_parents (h : ParentsSent cfg s) (horderly : Orderly cfg.objects)
    (hnamed : TreeNamed cfg.objects) (hfirst : ParentsFirst (cfg.objects.map FsObject.names))
    (hnew : ∀ o ∈ cfg.objects, o.type = .directory →
      cfg.ctx.job.isCompleted o.relativePath = false) {event : SessionEvent}
    (hs : sessionStep cfg s event = some s') : ParentsSent cfg s' := by
  cases sessionStep_cases hs with
  | manager hmanager => exact h.manager horderly hnamed hfirst hnew hmanager
  | pops i pool hpop =>
    have hwork := WorkerPool.work_waitForTaskAndPop (f := some) (g := IntegrityRun.task)
      (fun _ => rfl) hpop
    refine ⟨h.stream, h.visited, h.sending, fun task htask => h.tasks task ?_⟩
    exact ((hwork.append_left _).mem_iff).1 htask
  | finishes j hj =>
    have hwork := WorkerPool.work_removePending (f := some) (g := IntegrityRun.task) hj rfl
    refine ⟨h.stream, h.visited, h.sending, fun task htask => h.tasks task ?_⟩
    exact ((hwork.append_left _).mem_iff).1 htask
  | runs j task hj =>
    have hwork := WorkerPool.work_goOn (f := some) (g := IntegrityRun.task) hj .returned
    have hrunning : task ∈ s.tasks := by
      refine List.mem_append_right _ (List.mem_append_right _ ?_)
      exact List.mem_filterMap.2 ⟨_, List.mem_of_getElem? hj, rfl⟩
    have hfewer : ∀ t ∈ ({ s with pool := s.pool.goOn j .returned } : SessionState).tasks,
        t ∈ s.tasks := by
      intro t ht
      rcases List.mem_append.1 ht with ht | ht
      · exact List.mem_append_left _ ht
      · exact List.mem_append_right _ (hwork.mem_iff.1 (List.mem_cons_of_mem _ ht))
    cases hmessage : task.message cfg.digest with
    | none =>
      have hsame : s.stream ++ (none : Option PullObject).toList.map .object = s.stream :=
        List.append_nil _
      rw [hsame]
      exact ⟨h.stream, h.visited, h.sending, fun t ht => h.tasks t (hfewer t ht)⟩
    | some pull =>
      obtain ⟨digest, -, hpull⟩ := Option.map_eq_some_iff.1 hmessage
      have hparent : s.HasParent pull.names := by
        rw [← hpull]
        exact h.tasks task hrunning
      exact h.announce hparent rfl rfl (fun q hq => .inr hq) (fun q hq => hq) hfewer

end Sessions

end Netpull
