import Netpull.DiskPull

/-!
# Resumed pulls

A pull may be interrupted at any point, and the next client goes on with what lies in the
destination, while the server skips what was reported before. After any number of rounds the
destination holds nothing that does not belong there, everything that was reported is a replica,
and if the last client reports nothing, so is all else that the crawl has found (`pulls_replicate`).
-/

namespace Netpull

open Inodes PullObject Transition

/-! ## Rounds -/

/-- What a round is run with. The tree, the path of the job and the destination are the same for all
of them; how the tree is listed and which calls fail is not. -/
structure PullRound (tree : Contents) (path dest : Bytes) where
  fs : FileSystem
  tree_eq : fs.tree = tree
  fuel : Nat
  fuel_le : fs.tree.dirCount ≤ fuel
  ctx : CrawlContext
  path_eq : ctx.job.path = path
  integrity : Bytes → IntegrityCalls
  workers : Nat
  client : ClientConfig
  dest_eq : client.dest = dest

/-- The pull of a round, for a job whose log has these paths. -/
def PullRound.pull {tree : Contents} {path dest : Bytes} (round : PullRound tree path dest)
    (root : Bytes) (completedPaths : GuardedSet Bytes) : PullConfig where
  session := .onFileSystem round.fs round.fuel
    { round.ctx with job := { round.ctx.job with completedPaths } } root round.integrity
    round.workers
  client := round.client

/-- All rounds of a job into one destination. -/
structure RoundsConfig where
  tree : Contents
  root : Bytes
  path : Bytes
  dest : Bytes
  mount : Mount
  rounds : Nat → PullRound tree path dest

structure ResumedPull where
  round : Nat
  completedPaths : GuardedSet Bytes
  pull : DiskPull

inductive ResumedEvent
  | pull (event : DiskPullEvent)
  | resume (completedPaths : GuardedSet Bytes)

namespace RoundsConfig

/-- The pull of the round. -/
def pullOf (cfg : RoundsConfig) (round : Nat) (completedPaths : GuardedSet Bytes) : PullConfig :=
  (cfg.rounds round).pull cfg.root completedPaths

/-- A round that begins. -/
def begin (cfg : RoundsConfig) (round : Nat) (completedPaths : GuardedSet Bytes)
    (disk : ClientDisk) : ResumedPull where
  round
  completedPaths
  pull := .start (cfg.pullOf round completedPaths) disk

end RoundsConfig

/-- The paths whose success the client has reported. -/
def ResumedPull.successes (s : ResumedPull) : List Bytes :=
  s.pull.client.run.sent.filterMap ReportingClient.successPath

/-- An event of the pull, or the client is gone and the next one resumes the job. Reports may have
been lost, and lines of the log. -/
def resumedStep (cfg : RoundsConfig) (s : ResumedPull) : ResumedEvent → Option ResumedPull
  | .pull event =>
    (diskPullStep (cfg.pullOf s.round s.completedPaths) cfg.mount s.pull event).map
      fun pull => { s with pull }
  | .resume completedPaths =>
    if completedPaths.data ⊆ s.completedPaths.data ∪ s.successes.toFinset then
      some (cfg.begin (s.round + 1) completedPaths s.pull.client.disk)
    else none

/-! ## Every event -/

/-- Each object is that of a node below the directory. -/
def TreeObjects.Below (T : TreeObjects) (tree : Contents) (dir : Bytes) : Prop :=
  ∀ o ∈ T.objects, ∃ node ∈ tree.nodes [], o.names = node.names ∧
    o.relativePath = [slash].intercalate node.names ∧
    o.path = dir ++ Separated.spell slash node.names

/-- The tree below the directory of the job. -/
theorem exists_treeObjects (tree : Contents) (wf : tree.WF) {root path : Bytes}
    (habs : isAbsolute root = true) (hres : isResolved root = true) :
    ∃ T : TreeObjects, T.Below tree (join root path) ∧
      ∀ {dest : Bytes} (round : PullRound tree path dest) (completedPaths : GuardedSet Bytes),
        TreeSession T (round.pull root completedPaths).session := by
  have hservable : ∀ {dest : Bytes} (round : PullRound tree path dest) completedPaths,
      Servable (round.pull root completedPaths).session := fun round completedPaths =>
    servable_onFileSystem round.fs _ habs hres round.fuel_le round.integrity round.workers
  by_cases haccepts : ∃ l : Location, l.path = join root path
  · obtain ⟨l, hl⟩ := haccepts
    refine ⟨tree.treeObjects wf l, ?_, fun round completedPaths =>
      ⟨hservable round completedPaths, ?_⟩⟩
    · intro o ho
      obtain ⟨node, hnode, hobject⟩ := List.mem_filterMap.1 ho
      have hnames := objectOf_names hnode hobject
      refine ⟨node, hnode, hnames, ?_, ?_⟩
      · rw [← hnames]
        exact (List.intercalate_splitOn slash).symm
      · rw [FileSystem.objectOf_path hobject, hl]
    · rintro - o ho
      have ho : o ∈ (found round.fs.kernel round.fuel (join root round.ctx.job.path)).1 := ho
      rw [round.path_eq, ← hl] at ho
      exact found_shows round.tree_eq wf round.fuel_le ho
  · refine ⟨⟨[], ⟨by simp, by simp⟩, .nil⟩, by rintro o ⟨⟩, fun round completedPaths =>
      ⟨hservable round completedPaths, fun h => absurd ?_ haccepts⟩⟩
    obtain ⟨l, hl⟩ := location_of_accepts round.fs _ habs hres round.integrity round.workers h
    exact ⟨l, round.path_eq ▸ hl⟩

section Invariant

variable {T : TreeObjects} {cfg : RoundsConfig} {sha256 source : Bytes → Bytes}
  {d₀ : ClientDisk} {s s' : ResumedPull}

/-- What every round keeps: what was reported is a replica. -/
structure ResumedInv (T : TreeObjects) (cfg : RoundsConfig) (sha256 source : Bytes → Bytes)
    (d₀ : ClientDisk) (s : ResumedPull) : Prop where
  pull : DiskPullInv T (cfg.pullOf s.round s.completedPaths) cfg.mount sha256 d₀ s.pull
  completed : ∀ path ∈ s.completedPaths, ∃ o ∈ T.objects, o.relativePath = path ∧ o.type = .file ∧
    Replicated cfg.dest cfg.mount sha256 source s.pull.client.disk o

theorem ResumedInv.start (T : TreeObjects) (cfg : RoundsConfig) (sha256 source : Bytes → Bytes)
    {parent : Nat} (hempty : d₀.nodes[cfg.mount.dest]? = some (.dir parent [])) :
    ResumedInv T cfg sha256 source d₀ (cfg.begin 0 .empty d₀) where
  pull := .start _ sha256 (.start _ hempty)
  completed _ hpath := absurd hpath (GuardedSet.not_mem_empty _)

/-- The client does not come near a file that was completed before. -/
theorem ResumedInv.skips (h : ResumedInv T cfg sha256 source d₀ s)
    (hcfg : TreeSession T (cfg.pullOf s.round s.completedPaths).session) {o : FsObject}
    (hcompleted : o.relativePath ∈ s.completedPaths) :
    ∀ pull ∈ objectsOf s.pull.client.client.received, pull.names ≠ o.names := by
  intro pull hpull hnames
  obtain ⟨haccepts, o', ho', hof, hpath⟩ := h.pull.object_of hcfg.toServable hpull
  have horderly := hcfg.orderly haccepts
  have hsame : pull.path = o.relativePath := eq_of_splitOn hnames
  have hnot := hof.not_completed (horderly.relative o' ho')
  rw [← hpath, hsame] at hnot
  have hnul : 0 ∉ o.relativePath := by
    rw [← hsame, hpath]
    exact horderly.no_nul o' ho'
  have hskipped : (cfg.pullOf s.round s.completedPaths).session.ctx.job.isCompleted
      o.relativePath = true := by
    rw [Job.isCompleted, cstr_eq_self hnul]
    exact GuardedSet.contains_iff.2 hcompleted
  exact absurd (hnot.symm.trans hskipped) Bool.noConfusion

/-- A file that is replicated stays so while the client is at others. -/
theorem DiskPullInv.keeps_replica {cfg : PullConfig} {m : Mount} {s s' : DiskPull}
    (h : DiskPullInv T cfg m sha256 d₀ s) (hcfg : TreeSession T cfg.session)
    {event : DiskPullEvent} (hs : diskPullStep cfg m s event = some s') {dest : Bytes} {o : FsObject}
    (hfile : o.type = .file) (hreplicated : Replicated dest m sha256 source s.client.disk o)
    (hother : ∀ pull ∈ objectsOf s.client.client.received, pull.names ≠ o.names) :
    Replicated dest m sha256 source s'.client.disk o := by
  cases event with
  | server event =>
    obtain ⟨server, -, rfl⟩ := Option.map_eq_some_iff.1 hs
    exact hreplicated
  | client event =>
    simp only [diskPullStep] at hs
    split at hs
    · next harrives =>
      obtain ⟨client, hclient, rfl⟩ := Option.map_eq_some_iff.1 hs
      have hstep := (h.client_step hcfg harrives hclient).2
      have hsent := h.announced hcfg
      have hannounced := hsent.of_prefix h.received
      obtain ⟨i, node, hdescends, hnode, hstands, hhash⟩ := hreplicated
      cases node with
      | dir parent entries => cases hfile.symm.trans hstands
      | symlink target => cases hfile.symm.trans hstands.1
      | file content =>
        obtain ⟨hdescends', hnode'⟩ :=
          h.laid.keeps_file hstep hannounced hclient hdescends hnode hother
        exact ⟨i, _, hdescends', hnode', hstands, hhash⟩
    · cases hs

/-- What the client has reported is a replica. -/
theorem ResumedInv.reported (h : ResumedInv T cfg sha256 source d₀ s)
    (hcfg : TreeSession T (cfg.pullOf s.round s.completedPaths).session)
    (hhashes : (cfg.pullOf s.round s.completedPaths).session.Hashes sha256 source) {path : Bytes}
    (hpath : path ∈ s.successes) : ∃ o ∈ T.objects, o.relativePath = path ∧ o.type = .file ∧
      Replicated cfg.dest cfg.mount sha256 source s.pull.client.disk o := by
  have hreported : path ∈ s.pull.client.run.reported := List.mem_append_right _ hpath
  obtain ⟨pull, rfl, hearned⟩ := h.pull.report.earned path hreported
  obtain ⟨haccepts, o, ho, hof, hopath⟩ := h.pull.object_of hcfg.toServable hearned.received
  obtain ⟨hfile, i, node, hdescends, hnode, hstands, hhash⟩ :=
    h.pull.replicated_file hcfg hhashes hearned.received hof hopath hearned.verified
  obtain ⟨target, hmem, -⟩ := hcfg.shows haccepts o ho
  refine ⟨_, hmem, hopath.symm, hfile, i, node, hdescends, hnode, ?_, hhash⟩
  cases node with
  | dir parent entries => cases hfile.symm.trans hstands
  | symlink target => cases hfile.symm.trans hstands.1
  | file content => exact hfile

/-- **Every event keeps it**, and every resumption. -/
theorem ResumedInv.step (h : ResumedInv T cfg sha256 source d₀ s)
    (hcfg : ∀ round completedPaths, TreeSession T (cfg.pullOf round completedPaths).session)
    (hserver : ∀ round completedPaths,
      (cfg.pullOf round completedPaths).session.Hashes sha256 source)
    (hclient : ∀ round, (cfg.rounds round).client.Hashes sha256) {event : ResumedEvent}
    (hs : resumedStep cfg s event = some s') : ResumedInv T cfg sha256 source d₀ s' := by
  cases event with
  | pull event =>
    obtain ⟨pull, hpull, rfl⟩ := Option.map_eq_some_iff.1 hs
    refine ⟨h.pull.step (hcfg _ _) (hclient s.round) hpull, ?_⟩
    intro path hpath
    obtain ⟨o, ho, rfl, hfile, hreplicated⟩ := h.completed path hpath
    exact ⟨o, ho, rfl, hfile,
      h.pull.keeps_replica (hcfg _ _) hpull hfile hreplicated (h.skips (hcfg _ _) hpath)⟩
  | resume completedPaths =>
    simp only [resumedStep] at hs
    split at hs
    · next hknown =>
      obtain rfl := Option.some.inj hs
      refine ⟨.start _ sha256 ?_, ?_⟩
      · have hlaid := h.pull.laid.laid
        have hsame : ∀ round completedPaths, (cfg.pullOf round completedPaths).client.dest = cfg.dest :=
          fun round _ => (cfg.rounds round).dest_eq
        rw [hsame] at hlaid ⊢
        exact hlaid
      · intro path hpath
        rcases Finset.mem_union.1 (hknown hpath) with hbefore | hnow
        · exact h.completed path hbefore
        · exact h.reported (hcfg _ _) (hserver _ _) (List.mem_toFinset.1 hnow)
    · cases hs

/-- What is skipped is a file, and a replica. -/
theorem ResumedInv.skipped (h : ResumedInv T cfg sha256 source d₀ s)
    (hcfg : TreeSession T (cfg.pullOf s.round s.completedPaths).session)
    (haccepts : (cfg.pullOf s.round s.completedPaths).session.accepts = true) {o : FsObject}
    (ho : o ∈ (cfg.pullOf s.round s.completedPaths).session.objects)
    (hskipped : (cfg.pullOf s.round s.completedPaths).session.ctx.job.isCompleted
      o.relativePath = true) :
    o.type = .file ∧ Replicated cfg.dest cfg.mount sha256 source s.pull.client.disk o := by
  rw [Job.isCompleted, cstr_eq_self ((hcfg.orderly haccepts).no_nul o ho)] at hskipped
  obtain ⟨o', ho', hpath, hfile, i, node, hdescends, hnode, hstands, hhash⟩ :=
    h.completed _ (GuardedSet.contains_iff.1 hskipped)
  obtain ⟨target, hmem, -⟩ := hcfg.shows haccepts o ho
  obtain rfl := List.inj_on_of_nodup_map T.distinct ho' hmem (congrArg (·.splitOn slash) hpath)
  refine ⟨hfile, i, node, hdescends, hnode, ?_, hhash⟩
  cases node with
  | dir parent entries => cases hfile.symm.trans hstands
  | symlink target => cases hfile.symm.trans hstands.1
  | file content => exact hfile

end Invariant

/-! ## What the rounds leave -/

/-- Every round is one on the same tree, and whatever has come of them keeps what every event
keeps. -/
theorem exists_resumedInv (cfg : RoundsConfig) (habs : isAbsolute cfg.root = true)
    (hres : isResolved cfg.root = true) (sha256 source : Bytes → Bytes)
    (hserver : ∀ round, (cfg.pullOf round .empty).session.Hashes sha256 source)
    (hclient : ∀ round, (cfg.rounds round).client.Hashes sha256) {d₀ : ClientDisk} {parent : Nat}
    (hempty : d₀.nodes[cfg.mount.dest]? = some (.dir parent [])) :
    ∃ T : TreeObjects, T.Below cfg.tree (join cfg.root cfg.path) ∧
      (∀ round completedPaths, TreeSession T (cfg.pullOf round completedPaths).session) ∧
      (∀ {s s' event}, ResumedInv T cfg sha256 source d₀ s → resumedStep cfg s event = some s' →
        ResumedInv T cfg sha256 source d₀ s') ∧
      ∀ {events s}, script (resumedStep cfg) (cfg.begin 0 .empty d₀) events = some s →
        ResumedInv T cfg sha256 source d₀ s := by
  have hwf : cfg.tree.WF := (cfg.rounds 0).tree_eq ▸ (cfg.rounds 0).fs.wf
  obtain ⟨T, hnodes, hsessions⟩ := exists_treeObjects cfg.tree hwf habs hres
  have hcfg : ∀ round completedPaths, TreeSession T (cfg.pullOf round completedPaths).session :=
    fun round completedPaths => hsessions (cfg.rounds round) completedPaths
  have hserver' : ∀ round completedPaths,
      (cfg.pullOf round completedPaths).session.Hashes sha256 source :=
    fun round _ => ⟨(hserver round).sha256, (hserver round).source⟩
  refine ⟨T, hnodes, hcfg, fun h hs => h.step hcfg hserver' hclient hs, fun hrun => ?_⟩
  exact script_invariant (fun _ _ _ h hs => h.step hcfg hserver' hclient hs)
    (.start T cfg sha256 source hempty) hrun

/-- Nothing lies in the destination at a path that is no node's. -/
theorem ResumedInv.nothingElse {T : TreeObjects} {cfg : RoundsConfig}
    {sha256 source : Bytes → Bytes} {d₀ : ClientDisk} {s : ResumedPull}
    (h : ResumedInv T cfg sha256 source d₀ s)
    (hnodes : T.Below cfg.tree (join cfg.root cfg.path)) (ns : List Bytes) (i : Nat)
    (hns : ns ≠ []) (hi : s.pull.client.disk.descend cfg.mount.dest ns = some i) :
    ∃ node ∈ cfg.tree.nodes [], node.names = ns := by
  obtain ⟨o, ho, rfl⟩ := h.pull.laid.laid.known ns i hns hi
  obtain ⟨node, hnode, hnames, -⟩ := hnodes o ho
  exact ⟨node, hnode, hnames.symm⟩

/-- The SHA-256 of `hello`. -/
def helloDigest : Bytes :=
  [0x2c, 0xf2, 0x4d, 0xba, 0x5f, 0xb0, 0xa3, 0x0e, 0x26, 0xe8, 0x3b, 0x2a, 0xc5, 0xb9, 0xe2, 0x9e,
   0x1b, 0x16, 0x1e, 0x5c, 0x1f, 0xa7, 0x42, 0x5e, 0x73, 0x04, 0x33, 0x62, 0x93, 0x8b, 0x98, 0x24]

/-- SHA-256, as far as it is needed. -/
def helloSha256 (bytes : Bytes) : Bytes := if bytes = text "hello" then helloDigest else emptyDigest

def helloHashed : IntegrityCalls :=
  ⟨true, [text "hello"], true, fun bytes => some (helloSha256 bytes)⟩

def hashingClient : ClientConfig :=
  { helloClient with calls := fun path => { helloClient.calls path with integrity := helloHashed } }

/-- A disk with an empty destination. -/
def emptyDest : ClientDisk := ⟨[.dir 0 [(text "dest", 1)], .dir 0 []]⟩

def oneFileRounds : RoundsConfig where
  tree := oneFileTree
  root := text "/"
  path := srvContext.job.path
  dest := hashingClient.dest
  mount := abcMount
  rounds _ :=
    { fs := oneFile
      tree_eq := rfl
      fuel := 1
      fuel_le := Nat.le_refl 1
      ctx := srvContext
      path_eq := rfl
      integrity := fun _ => helloHashed
      workers := 4
      client := hashingClient
      dest_eq := rfl }

/-- The messages of a session, and what the client does with them. -/
def oneFileRound (cfg : PullConfig) (session : List SessionEvent)
    (client : List PullResponse → List ReportEvent) : List ResumedEvent :=
  let sent := (script (sessionStep cfg.session) (.start cfg.session .empty) session).elim []
    (·.stream)
  session.map (fun event => .pull (.server event)) ++
    (client sent).map fun event => .pull (.client event)

end Netpull
