import Netpull.Client.Ends
import Netpull.Client.Layout
import Netpull.Server.ParentsFirst

/-!
# A client whose calls succeed

Where no call fails for the objects of a tree, every object is created as soon as it is received
(`Prompt`), and its file holds first what an earlier client has left there and then what was streamed
(`Filled`). So the disk never stands in the way of the client (`diskAfter_isSome`).
-/

namespace Netpull

open Inodes PullObject

/-- No call that the client makes for an object fails, and its integrity task reads what its stream
leaves in the file. -/
structure ClientConfig.Works (cfg : ClientConfig) (pull : PullObject) : Prop where
  transfers : pull.type = .kTypeFile ↔ pull.transfer.isSome
  creates : (cfg.calls pull.path).creates = true
  settles : setMetadata (cfg.calls pull.path).metadata pull = true
  link : pull.type = .kTypeSymlink → cstr (linkTarget cfg.dest pull.symlink) ≠ []
  completes : pull.transfer.isSome →
    (cfg.calls pull.path).stream.completes (pull.transfer.getD ⟨[], 0, []⟩).bytes = true
  fills : pull.transfer.isSome →
    (receive (pull.transfer.getD ⟨[], 0, []⟩).bytes (cfg.calls pull.path).stream.ins
      (cfg.calls pull.path).stream.outs (cfg.calls pull.path).stream.stream
      (cfg.calls pull.path).stream.file).2.file =
      (cfg.calls pull.path).integrity.reads.flatten
  verifies : pull.transfer.isSome →
    (cfg.calls pull.path).integrity.verdict (pull.transfer.getD ⟨[], 0, []⟩).sha256 = .verified

theorem ClientConfig.Works.not_fails {cfg : ClientConfig} {pull : PullObject} (h : cfg.Works pull) :
    ¬ cfg.Fails pull := by
  rintro ⟨deed, hdeed, hfails⟩
  unfold goalsFor at hdeed
  split at hdeed
  · next htransfer =>
    cases deed with
    | created => exact absurd (h.creates.symm.trans hfails) Bool.noConfusion
    | streamed => exact absurd ((h.completes htransfer).symm.trans hfails) Bool.noConfusion
    | settled => exact absurd (h.settles.symm.trans hfails) Bool.noConfusion
    | verified =>
      rw [ClientConfig.succeeds, h.verifies htransfer] at hfails
      exact absurd hfails Bool.noConfusion
    | checked => simp at hdeed
  · cases deed with
    | created => exact absurd (h.creates.symm.trans hfails) Bool.noConfusion
    | settled => exact absurd (h.settles.symm.trans hfails) Bool.noConfusion
    | streamed | checked | verified => simp at hdeed

/-! ## What is created and streamed -/

section Prompt

variable {cfg : ClientConfig} {s s' : ClientState}

/-- Everything was created but the object that was received last, and what is early was not
streamed. -/
structure Prompt (s : ClientState) : Prop where
  created : ∀ pull ∈ objectsOf s.received,
    (.created, pull.path) ∈ s.deeds ∨ s.pc.uncreated = some pull
  last : ∀ pull ∈ s.pc.uncreated, ∃ before, objectsOf s.received = before ++ [pull]
  unstreamed : ∀ pull ∈ s.early, (.streamed, pull.path) ∉ s.deeds

theorem Prompt.start (cfg : ClientConfig) : Prompt (.start cfg) where
  created := by rintro pull ⟨⟩
  last := by rintro pull ⟨⟩
  unstreamed := by rintro pull ⟨⟩

theorem deeds_clientRunStep (cfg : ClientConfig) (s : ClientState) (j : Nat) (r : ClientRun) :
    s.deeds ⊆ (clientRunStep cfg s j r).deeds := by
  cases r with
  | streaming | settling =>
    rw [clientRunStep]
    split
    · exact List.subset_cons_self _ _
    · exact List.Subset.refl _
  | checking =>
    rw [clientRunStep]
    split
    · exact List.Subset.refl _
    · exact List.subset_cons_self _ _
    · exact fun x hx => .tail _ (.tail _ hx)
  | preparing | submitting | erasing | returned => exact List.Subset.refl _

/-- An object is received, the object received last is created, or neither. -/
inductive Comes (s s' : ClientState) : Prop
  | receives (pull : PullObject) (before : s.pc.uncreated = none)
      (after : s'.pc.uncreated = some pull)
      (objects : objectsOf s'.received = objectsOf s.received ++ [pull])
      (deeds : s'.deeds = s.deeds) : Comes s s'
  | creates (pull : PullObject) (before : s.pc.uncreated = some pull)
      (after : s'.pc.uncreated = none) (objects : objectsOf s'.received = objectsOf s.received)
      (deeds : s'.deeds = (.created, pull.path) :: s.deeds) : Comes s s'
  | stays (pc : s'.pc.uncreated = s.pc.uncreated)
      (objects : objectsOf s'.received = objectsOf s.received) (deeds : s.deeds ⊆ s'.deeds) :
      Comes s s'

theorem clientMainStep_comes (hs : clientMainStep cfg s = some s') (hlive : s'.pc ≠ .dead)
    (hcreates : ∀ pull, s.pc = .creating pull → (cfg.calls pull.path).creates = true) :
    Comes s s' := by
  have hsame := List.Subset.refl s.deeds
  cases clientMainStep_cases hs with
  | asserts => exact absurd rfl hlive
  | notCreated pull call hpc _ hfails =>
    rw [hcreates pull hpc] at hfails
    cases hfails
  | createsFile pull call hpc | createsEntry pull call hpc =>
    exact .creates pull (by rw [hpc]; rfl) rfl rfl rfl
  | settles pull hpc => exact .stays (by rw [hpc]; rfl) rfl (List.subset_cons_self _ _)
  | inserts pull hpc | prepares pull hpc | submits pull hpc | notSettled pull hpc
  | erases pull hpc | reports hpc => exact .stays (by rw [hpc]; rfl) rfl hsame

theorem clientStep_comes {event : ClientEvent} (hs : clientStep cfg s event = some s')
    (hlive : s'.pc ≠ .dead)
    (hcreates : ∀ pull, s.pc = .creating pull → (cfg.calls pull.path).creates = true) :
    Comes s s' := by
  have hsame := List.Subset.refl s.deeds
  cases clientStep_cases hs with
  | receives resp hpc =>
    have hnone : s.pc.uncreated = none := by
      rw [hpc]
      rfl
    have hdeeds := (ClientState.handleResponse_keeps s resp).2
    cases resp with
    | unset => exact absurd rfl hlive
    | finished total =>
      exact .stays hnone.symm (objectsOf_concat fun _ => PullResponse.noConfusion) hsame
    | started job =>
      rw [handleResponse_started] at hlive ⊢
      simp only at hlive ⊢
      split at hlive
      · next hprevious =>
        refine .stays ?_ (objectsOf_concat fun _ => PullResponse.noConfusion) hsame
        simp only [if_pos hprevious]
      · exact absurd rfl hlive
    | error message =>
      exact .stays rfl (objectsOf_concat fun _ => PullResponse.noConfusion) hsame
    | object pull =>
      refine .receives pull hnone ?_ (objectsOf_append _ _) hdeeds
      rw [handleResponse_object] at hlive ⊢
      simp only at hlive ⊢
      split at hlive
      · exact absurd rfl hlive
      · next hnot => rw [if_neg hnot]; rfl
  | loses hpc => exact .stays (by rw [hpc]; rfl) rfl hsame
  | pops => exact .stays rfl rfl hsame
  | overruns => exact absurd rfl hlive
  | main hmain => exact clientMainStep_comes hmain hlive hcreates
  | runs j r =>
    refine .stays ?_ ?_ (deeds_clientRunStep cfg s j r)
    · rw [ClientState.clientRunStep_pc]
    · rw [ClientState.clientRunStep_received]

/-- A file is streamed by a worker. -/
theorem streamed_step {event : ClientEvent} (hs : clientStep cfg s event = some s') {path : Bytes}
    (hdeed : (.streamed, path) ∈ s'.deeds) :
    (.streamed, path) ∈ s.deeds ∨ ∃ (j : Nat) (pull : PullObject),
      event = .run j ∧ s.pool.running[j]? = some (.streaming pull) ∧ pull.path = path ∧
        s'.pool.running[j]? = some (.preparing pull) := by
  cases clientStep_cases hs with
  | receives resp => exact .inl ((ClientState.handleResponse_keeps s resp).2 ▸ hdeed)
  | loses | pops | overruns => exact .inl hdeed
  | main hmain =>
    cases clientMainStep_cases hmain with
    | createsFile | createsEntry | settles => exact .inl (mem_of_ne_deed hdeed Deed.noConfusion)
    | inserts | asserts | notCreated | prepares | submits | notSettled | erases | reports =>
      exact .inl hdeed
  | runs j r hj =>
    cases r with
    | streaming pull =>
      rw [clientRunStep] at hdeed ⊢
      split at hdeed
      · next hcompletes =>
        rcases List.mem_cons.1 hdeed with hnew | hold
        · refine .inr ⟨j, pull, rfl, hj, (Prod.mk.inj hnew).2.symm, ?_⟩
          rw [if_pos hcompletes]
          exact List.getElem?_set_self (List.getElem?_eq_some_iff.1 hj).1
        · exact .inl hold
      · exact .inl hdeed
    | checking pull =>
      rw [clientRunStep] at hdeed
      split at hdeed
      · exact .inl hdeed
      · exact .inl (mem_of_ne_deed hdeed Deed.noConfusion)
      · exact .inl (mem_of_ne_deed (mem_of_ne_deed hdeed Deed.noConfusion) Deed.noConfusion)
    | settling pull =>
      rw [clientRunStep] at hdeed
      split at hdeed
      · exact .inl (mem_of_ne_deed hdeed Deed.noConfusion)
      · exact .inl hdeed
    | preparing | submitting | erasing | returned => exact .inl hdeed

/-- **Every event keeps it**, if the calls succeed. -/
theorem Prompt.step (h : Prompt s) (hexact : s.Exact cfg) {event : ClientEvent}
    (hs : clientStep cfg s event = some s') (hlive : s'.pc ≠ .dead)
    (hdistinct : ((objectsOf s'.received).map (·.path)).Nodup)
    (hcreates : ∀ pull, s.pc = .creating pull → (cfg.calls pull.path).creates = true) :
    Prompt s' := by
  have hcomes := clientStep_comes hs hlive hcreates
  refine ⟨?_, ?_, ?_⟩
  · cases hcomes with
    | receives pull hbefore hafter hobjects hdeeds =>
      intro q hq
      rw [hobjects] at hq
      rw [hafter, hdeeds]
      rcases List.mem_append.1 hq with hq | hq
      · refine .inl ((h.created q hq).resolve_right ?_)
        rw [hbefore]
        exact (Option.some_ne_none q).symm
      · exact .inr (congrArg some (List.mem_singleton.1 hq).symm)
    | creates pull hbefore hafter hobjects hdeeds =>
      intro q hq
      rw [hobjects] at hq
      rw [hdeeds]
      rcases h.created q hq with hdeed | hself
      · exact .inl (.tail _ hdeed)
      · obtain rfl := Option.some.inj (hbefore.symm.trans hself)
        exact .inl (.head _)
    | stays hpc hobjects hdeeds =>
      intro q hq
      rw [hobjects] at hq
      rw [hpc]
      exact (h.created q hq).imp_left fun hdeed => hdeeds hdeed
  · cases hcomes with
    | receives pull hbefore hafter hobjects hdeeds =>
      intro q hq
      obtain rfl := Option.some.inj (hafter.symm.trans hq)
      exact ⟨_, hobjects⟩
    | creates pull hbefore hafter hobjects hdeeds =>
      intro q hq
      rw [hafter] at hq
      cases hq
    | stays hpc hobjects hdeeds =>
      intro q hq
      rw [hpc] at hq
      rw [hobjects]
      exact h.last q hq
  · intro pull hearly hdeed
    have hexact' := (hexact.step hs).resolve_left hlive
    rcases streamed_step hs hdeed with hold | ⟨j, q, -, -, hpath, hj⟩
    · rcases ClientState.early_step hs hearly with hbefore | hnew
      · exact h.unstreamed pull hbefore hold
      · obtain ⟨q, hq, hpath, -⟩ := hexact.done _ _ hold
        rw [hnew, List.map_append] at hdistinct
        exact List.disjoint_of_nodup_append hdistinct (List.mem_map.2 ⟨q, hq, hpath⟩) (.head _)
    · exact ClientState.path_ne_of_early hexact' hdistinct hj rfl rfl hearly hpath.symm

end Prompt

/-! ## What is on the disk -/

namespace Mount

variable {m : Mount} {d : ClientDisk} {dest : Bytes} {pull : PullObject}

/-- What a call creates for an object in the directory `dir`. -/
def newNode (dest : Bytes) (dir : Nat) (pull : PullObject) : Inodes.Node Bytes Bytes Bytes :=
  match pull.type with
  | .kTypeFile => .file []
  | .kTypeDirectory => .dir dir []
  | .kTypeSymlink | .other _ => .symlink (cstr (linkTarget dest pull.symlink))

/-- Where an object is missing, the call creates it. -/
theorem create_missing {call : CreateCall} (hcall : createCall dest pull = .ok call)
    (hlink : pull.type = .kTypeSymlink → cstr (linkTarget dest pull.symlink) ≠ []) {dir : Nat}
    {n : Bytes} (hentry : m.entry d pull = .missing dir n) :
    m.create d call = some (d.create dir n (newNode dest dir pull)) := by
  cases htype : pull.type with
  | kTypeFile =>
    rw [createCall, htype] at hcall
    obtain rfl := Except.ok.inj hcall
    have hlookup : m.lookup d true (cstr pull.path) = .missing dir n := by
      rw [lookup_entry dest htype, hentry]
      intro i hi
      rw [hentry] at hi
      cases hi
    rw [create, hlookup, newNode, htype]
  | kTypeDirectory =>
    rw [createCall, htype] at hcall
    obtain rfl := Except.ok.inj hcall
    rw [entry, entryPath, if_pos htype] at hentry
    rw [create, hentry, newNode, htype]
  | kTypeSymlink =>
    rw [createCall, htype] at hcall
    obtain rfl := Except.ok.inj hcall
    rw [entry, entryPath, if_neg (by rw [htype]; exact PullObject.Type.noConfusion)] at hentry
    rw [create, if_neg (hlink htype), hentry, newNode, htype]
  | other value =>
    rw [createCall, htype] at hcall
    cases hcall

/-- Where an object is already, the call leaves it. -/
theorem create_there {call : CreateCall} (hcall : createCall dest pull = .ok call)
    (hlink : pull.type = .kTypeSymlink → cstr (linkTarget dest pull.symlink) ≠ []) {i : Nat}
    {node : Inodes.Node Bytes Bytes Bytes} (hentry : m.entry d pull = .inode i)
    (hnode : d.nodes[i]? = some node) (hmatches : Matches dest pull node) :
    m.create d call = some d := by
  cases htype : pull.type with
  | kTypeFile =>
    rw [createCall, htype] at hcall
    obtain rfl := Except.ok.inj hcall
    have hlookup : m.lookup d true (cstr pull.path) = .inode i := by
      rw [lookup_entry dest htype, hentry]
      intro j hj
      obtain rfl := Lookup.inode.inj (hentry.symm.trans hj)
      exact ⟨node, hnode, hmatches⟩
    rw [create, hlookup]
    cases node with
    | dir parent entries => cases htype.symm.trans hmatches
    | file content => simp only [hnode]
    | symlink target => cases htype.symm.trans hmatches.1
  | kTypeDirectory =>
    rw [createCall, htype] at hcall
    obtain rfl := Except.ok.inj hcall
    rw [entry, entryPath, if_pos htype] at hentry
    rw [create, hentry]
  | kTypeSymlink =>
    rw [createCall, htype] at hcall
    obtain rfl := Except.ok.inj hcall
    rw [entry, entryPath, if_neg (by rw [htype]; exact PullObject.Type.noConfusion)] at hentry
    rw [create, if_neg (hlink htype), hentry]
  | other value =>
    rw [createCall, htype] at hcall
    cases hcall

/-- The file of an object can be opened. -/
theorem openFile_file (htype : pull.type = .kTypeFile) {i : Nat} {content : Bytes}
    (hentry : m.entry d pull = .inode i) (hfile : d.nodes[i]? = some (.file content)) :
    m.openFile d (cstr pull.path) = some (i, content) := by
  have hlookup : m.lookup d true (cstr pull.path) = .inode i := by
    rw [lookup_entry [] htype, hentry]
    intro j hj
    obtain rfl := Lookup.inode.inj (hentry.symm.trans hj)
    exact ⟨_, hfile, htype⟩
  rw [openFile, hlookup]
  simp only [hfile]

end Mount

namespace DiskClient

variable {L : Layout Bytes Bytes Bytes} {files : Bytes → Prop} {cfg : ClientConfig} {m : Mount}
  {sha256 : Bytes → Bytes} {d₀ : ClientDisk} {s s' : DiskClient} {event : ReportEvent}

/-- What the file of an object holds once it is there. -/
def expected (cfg : ClientConfig) (c : ClientState) (pull : PullObject) : Bytes :=
  if (.streamed, pull.path) ∈ c.deeds then (cfg.calls pull.path).integrity.reads.flatten
  else (cfg.calls pull.path).stream.file

/-- The file at a path holds what the stream is to find there, which is nothing if there is no file. -/
def Awaits (cfg : ClientConfig) (m : Mount) (d : ClientDisk) (path : Bytes) : Prop :=
  match d.descend m.dest (path.splitOn slash) with
  | some i => d.nodes[i]? = some (.file (cfg.calls path).stream.file)
  | none => (cfg.calls path).stream.file = []

/-- What holds of a client whose calls succeed, for the paths of the files that it is to get. -/
structure Filled (files : Bytes → Prop) (cfg : ClientConfig) (m : Mount) (s : DiskClient) :
    Prop where
  prompt : Prompt s.client
  dest : ∃ parent entries, s.disk.nodes[m.dest]? = some (.dir parent entries)
  content : ∀ pull ∈ objectsOf s.client.received, pull.type = .kTypeFile →
    (.created, pull.path) ∈ s.client.deeds →
      ∃ i, m.entry s.disk pull = .inode i ∧
        s.disk.nodes[i]? = some (.file (expected cfg s.client pull))
  awaits : ∀ path, files path → (.created, path) ∉ s.client.deeds → Awaits cfg m s.disk path

theorem Filled.start {cfg : ClientConfig} {disk : ClientDisk}
    (hdest : ∃ parent entries, disk.nodes[m.dest]? = some (.dir parent entries))
    (hawaits : ∀ path, files path → Awaits cfg m disk path) :
    Filled files cfg m ⟨.start cfg, disk⟩ where
  prompt := .start cfg
  dest := hdest
  content := by rintro pull ⟨⟩
  awaits path hpath _ := hawaits path hpath

/-- An object is created, its file streamed, or neither. -/
inductive Changes (cfg : ClientConfig) (m : Mount) (s s' : DiskClient) : Prop
  | creates (pull : PullObject) (call : CreateCall) (pc : s.client.pc = .creating pull)
      (call_eq : createCall cfg.dest pull = .ok call)
      (disk : m.create s.disk call = some s'.disk)
      (deeds : s'.client.deeds = (.created, pull.path) :: s.client.deeds) : Changes cfg m s s'
  | streams (j : Nat) (pull : PullObject)
      (running : s.client.pool.running[j]? = some (.streaming pull))
      (disk : m.stream s.disk (cfg.calls pull.path).stream pull = some s'.disk)
      (deeds : s'.client.deeds = (.streamed, pull.path) :: s.client.deeds) : Changes cfg m s s'
  | keeps (disk : s'.disk = s.disk)
      (deeds : ∀ path, ((.created, path) ∈ s'.client.deeds ↔ (.created, path) ∈ s.client.deeds) ∧
        ((.streamed, path) ∈ s'.client.deeds ↔ (.streamed, path) ∈ s.client.deeds)) :
      Changes cfg m s s'

/-- What an event does, if what it streams is streamed in full. -/
theorem diskStep_changes
    (hcompletes : ∀ (j : Nat) (pull : PullObject),
      s.client.pool.running[j]? = some (.streaming pull) →
      (cfg.calls pull.path).stream.completes (pull.transfer.getD ⟨[], 0, []⟩).bytes = true)
    (hs : diskStep cfg m s event = some s') : Changes cfg m s s' := by
  have hmoves := diskStep_moves hs
  by_cases hstreams : ∃ (j : Nat) (pull : PullObject), event = .client (.run j) ∧
      s.client.pool.running[j]? = some (.streaming pull)
  · obtain ⟨j, pull, rfl, hj⟩ := hstreams
    obtain ⟨hdisk, hrun⟩ := diskStep_parts hs
    refine .streams j pull hj ?_ ?_
    · unfold diskAfter at hdisk
      simp only [hj] at hdisk
      exact hdisk
    · rcases ReportingClient.reportStep_client hrun with ⟨-, hevent⟩ | ⟨e, he, hstep⟩
      · cases hevent _ rfl
      · obtain rfl := ReportEvent.client.inj he
        generalize hc : s'.run.client = c' at hstep
        cases clientStep_cases hstep with
        | runs _ r hr =>
          obtain rfl := Option.some.inj (hj.symm.trans hr)
          rw [client, hc, clientRunStep, if_pos (hcompletes j pull hj)]
  · have hstreamed : ∀ path, (.streamed, path) ∈ s'.client.deeds →
        (.streamed, path) ∈ s.client.deeds := by
      intro path hdeed
      rcases ReportingClient.reportStep_client (diskStep_run hs) with ⟨hsame, -⟩ | ⟨e, rfl, hstep⟩
      · rw [client, hsame] at hdeed
        exact hdeed
      · rcases streamed_step hstep hdeed with hold | ⟨j, pull, rfl, hj, -, -⟩
        · exact hold
        · exact absurd ⟨j, pull, rfl, hj⟩ hstreams
    have hsubset := hmoves.deeds_subset
    cases hmoves with
    | creates pull call pc call_eq succeeds disk deeds =>
      exact .creates pull call pc call_eq disk deeds
    | streams j pull running => exact absurd ⟨j, pull, rfl, running⟩ hstreams
    | verifies j pull running disk reads verdict deeds =>
      refine .keeps disk fun path => ⟨⟨fun hdeed => ?_, fun hdeed => hsubset hdeed⟩,
        ⟨hstreamed path, fun hdeed => hsubset hdeed⟩⟩
      rw [deeds] at hdeed
      exact mem_of_ne_deed (mem_of_ne_deed hdeed Deed.noConfusion) Deed.noConfusion
    | stays disk deeds =>
      exact .keeps disk fun path => ⟨⟨deeds.created, fun hdeed => hsubset hdeed⟩,
        ⟨hstreamed path, fun hdeed => hsubset hdeed⟩⟩

/-- What is known of a tree that is being received. -/
structure Receives (L : Layout Bytes Bytes Bytes) (files : Bytes → Prop) (cfg : ClientConfig)
    (received : List PullResponse) : Prop where
  fits : FitsIn L cfg.dest received
  parents : ParentsFirst ((objectsOf received).map PullObject.names)
  works : ∀ pull ∈ objectsOf received, cfg.Works pull
  files : ∀ pull ∈ objectsOf received, pull.type = .kTypeFile → files pull.path

/-- What an event that creates an object finds. -/
inductive Finds (cfg : ClientConfig) (m : Mount) (d : ClientDisk) (pull : PullObject) : Prop
  | missing (dir : Nat) (n : Bytes) (entry : m.entry d pull = .missing dir n)
  | there (i : Nat) (node : Inodes.Node Bytes Bytes Bytes) (entry : m.entry d pull = .inode i)
      (nodes : d.nodes[i]? = some node) (matches_ : Matches cfg.dest pull node)

/-- The directory is there in which an object is created. -/
theorem Filled.parent (h : Filled files cfg m s) (hlaid : LaidInv L cfg m sha256 d₀ s)
    (hreceives : Receives L files cfg s.client.received) {pull : PullObject}
    (hpc : s.client.pc = .creating pull) : ∃ dir parent entries,
      s.disk.descend m.dest pull.names.dropLast = some dir ∧
        s.disk.nodes[dir]? = some (.dir parent entries) := by
  obtain ⟨before, hobjects⟩ := h.prompt.last pull (by rw [hpc]; rfl)
  have hpull : pull ∈ objectsOf s.client.received := by
    rw [hobjects]
    exact List.mem_append_right _ (.head _)
  by_cases htop : pull.names.dropLast = []
  · obtain ⟨parent, entries, hdest⟩ := h.dest
    exact ⟨m.dest, parent, entries, by rw [htop]; rfl, hdest⟩
  have hparent := hreceives.parents (before.map PullObject.names) pull.names ?_
  · obtain ⟨q, hq, hqnames⟩ := List.mem_map.1 (hparent.resolve_left htop)
    have hreceived : q ∈ objectsOf s.client.received := by
      rw [hobjects]
      exact List.mem_append_left _ hq
    have hne : q.names ≠ pull.names := hqnames ▸ dropLast_ne htop
    have hcreated : (.created, q.path) ∈ s.client.deeds := by
      refine (h.prompt.created q hreceived).resolve_right ?_
      rw [hpc]
      intro hself
      exact hne (congrArg PullObject.names (Option.some.inj hself)).symm
    obtain ⟨i, -, hdescends, -⟩ := hlaid.placed hreceives.fits hreceived hcreated
    obtain ⟨parent, entries, hnode⟩ := hlaid.laid.dir_above (hreceives.fits.place pull hpull) hne
      (hqnames ▸ List.dropLast_prefix _) q.names_ne_nil hdescends
    exact ⟨i, parent, entries, hqnames ▸ hdescends, hnode⟩
  · rw [hobjects, List.map_append]
    exact List.prefix_rfl

/-- An object is missing where it is created, or it is there already. -/
theorem Filled.finds (h : Filled files cfg m s) (hlaid : LaidInv L cfg m sha256 d₀ s)
    (hreceives : Receives L files cfg s.client.received) {pull : PullObject}
    (hpull : pull ∈ objectsOf s.client.received) (hpc : s.client.pc = .creating pull) :
    Finds cfg m s.disk pull := by
  obtain ⟨dir, parent, entries, hdescends, hnode⟩ := h.parent hlaid hreceives hpc
  obtain ⟨n, hnames⟩ : ∃ n, pull.names.dropLast ++ [n] = pull.names :=
    ⟨_, List.dropLast_append_getLast pull.names_ne_nil⟩
  cases hlookup : entries.lookup n with
  | some j =>
    have hthere : s.disk.descend m.dest pull.names = some j := by
      rw [← hnames, Disk.descend_concat, hdescends, Option.bind_some, Disk.child_of_dir hnode]
      exact hlookup
    obtain ⟨node, hj, hright⟩ := hlaid.laid.right _ j pull.names_ne_nil hthere
    have hentry := (hlaid.resolves hreceives.fits hpull).eq_inode hthere hj
    exact .there j node hentry hj
      ((hreceives.fits.right pull hpull (hreceives.works pull hpull).link node).1 hright)
  | none =>
    refine .missing dir n ?_
    rw [m.entry_eq s.disk (hreceives.fits.names pull hpull), ← hnames]
    exact Disk.resolve_missing hdescends hnode hlookup m.targets kMaxSymlinks

/-- A stream into the file of an object. -/
theorem stream_works {d : ClientDisk} {pull : PullObject} (hworks : cfg.Works pull)
    (htype : pull.type = .kTypeFile) {i : Nat} (hentry : m.entry d pull = .inode i)
    (hfile : d.nodes[i]? = some (.file (cfg.calls pull.path).stream.file)) :
    m.stream d (cfg.calls pull.path).stream pull =
      some (d.write i (cfg.calls pull.path).integrity.reads.flatten) := by
  have htransfer := hworks.transfers.1 htype
  have hcompletes := hworks.completes htransfer
  simp only [StreamCalls.completes, Bool.and_eq_true] at hcompletes
  obtain ⟨⟨⟨⟨hopens, hpipes⟩, hconnects⟩, hsends⟩, -⟩ := hcompletes
  rw [Mount.stream, hopens, Bool.not_true, if_neg Bool.false_ne_true,
    Mount.openFile_file htype hentry hfile]
  simp only [hpipes, hconnects, hsends, hworks.fills htransfer, ne_eq, not_true_eq_false, if_false,
    Bool.and_self, if_true]

/-- A worker streams into the file of a received object, which holds what the stream is to find. -/
theorem Filled.streaming (h : Filled files cfg m s)
    (hreceives : Receives L files cfg s.client.received) (hinv : ClientInv cfg s.client)
    (hexact : s.client.Exact cfg) {j : Nat} {pull : PullObject}
    (hj : s.client.pool.running[j]? = some (.streaming pull)) :
    pull ∈ objectsOf s.client.received ∧ (.created, pull.path) ∈ s.client.deeds ∧
      pull.type = .kTypeFile ∧ ∃ i, m.entry s.disk pull = .inode i ∧
        s.disk.nodes[i]? = some (.file (cfg.calls pull.path).stream.file) := by
  obtain ⟨hpull, hknown⟩ := hinv.holds_run hj rfl
  have hcreated := hknown .created (.head _)
  have htransfer : pull.transfer.isSome :=
    hexact.files pull (List.mem_append_right _ (ClientState.mem_handed _ hj rfl))
  have htype := (hreceives.works pull hpull).transfers.2 htransfer
  obtain ⟨i, hentry, hfile⟩ := h.content pull hpull htype hcreated
  have hearly : pull ∈ s.client.early := by
    refine List.mem_append_right _ (List.mem_append_right _ ?_)
    exact List.mem_filterMap.2 ⟨_, List.mem_of_getElem? hj, rfl⟩
  rw [expected, if_neg (h.prompt.unstreamed pull hearly)] at hfile
  exact ⟨hpull, hcreated, htype, i, hentry, hfile⟩

/-- **The disk does not stand in the way** of a client whose calls succeed. -/
theorem Filled.diskAfter_isSome (h : Filled files cfg m s) (hlaid : LaidInv L cfg m sha256 d₀ s)
    (hreceives : Receives L files cfg s.client.received) (hinv : ClientInv cfg s.client)
    (hexact : s.client.Exact cfg) (event : ReportEvent) :
    ∃ d, diskAfter cfg m s.client s.disk event = some d := by
  unfold diskAfter
  split
  · split
    · next pull hpc =>
      split
      · next call hcall =>
        split
        · have hpull := (hinv.holds_main (by rw [hpc]; rfl : s.client.pc.known = some (pull, []))).1
          have hlink := (hreceives.works pull hpull).link
          cases h.finds hlaid hreceives hpull hpc with
          | missing dir n hentry => exact ⟨_, Mount.create_missing hcall hlink hentry⟩
          | there i node hentry hnode hmatches =>
            exact ⟨_, Mount.create_there hcall hlink hentry hnode hmatches⟩
        · exact ⟨_, rfl⟩
      · exact ⟨_, rfl⟩
    · exact ⟨_, rfl⟩
  · split
    · next j pull hj =>
      obtain ⟨hpull, -, htype, i, hentry, hfile⟩ := h.streaming hreceives hinv hexact hj
      exact ⟨_, stream_works (hreceives.works pull hpull) htype hentry hfile⟩
    · next j pull hj =>
      obtain ⟨hpull, hknown⟩ := hinv.holds_run hj rfl
      have htransfer : pull.transfer.isSome :=
        hexact.files pull (List.mem_append_right _ (ClientState.mem_handed _ hj rfl))
      have htype := (hreceives.works pull hpull).transfers.2 htransfer
      obtain ⟨i, hentry, hfile⟩ := h.content pull hpull htype (hknown .created (.head _))
      rw [expected, if_pos (hknown .streamed (.tail _ (.head _)))] at hfile
      refine ⟨s.disk, if_pos ?_⟩
      rw [Mount.reads, Mount.openFile_file htype hentry hfile, Option.map_some, decide_eq_true rfl,
        Bool.or_true]
    · exact ⟨_, rfl⟩
  · exact ⟨_, rfl⟩

/-- What is streamed is streamed in full. -/
theorem Filled.completes (h : Filled files cfg m s)
    (hreceives : Receives L files cfg s.client.received) (hstep : Step cfg s s') (j : Nat)
    (pull : PullObject) (hj : s.client.pool.running[j]? = some (.streaming pull)) :
    (cfg.calls pull.path).stream.completes (pull.transfer.getD ⟨[], 0, []⟩).bytes = true := by
  obtain ⟨hpull, -, htype, -⟩ := h.streaming hreceives hstep.inv hstep.exact hj
  have hworks := hreceives.works pull hpull
  exact hworks.completes (hworks.transfers.1 htype)

/-- The content of files after an event. -/
theorem Filled.content_step (h : Filled files cfg m s) (hlaid : LaidInv L cfg m sha256 d₀ s)
    (hreceives : Receives L files cfg s.client.received) (hstep : Step cfg s s')
    (hs : diskStep cfg m s event = some s') {q : PullObject}
    (hq : q ∈ objectsOf s'.client.received) (hqtype : q.type = .kTypeFile)
    (hqcreated : (.created, q.path) ∈ s'.client.deeds) :
    ∃ i, m.entry s'.disk q = .inode i ∧
      s'.disk.nodes[i]? = some (.file (expected cfg s'.client q)) := by
  cases diskStep_changes (h.completes hreceives hstep) hs with
  | creates pull call hpc hcall hdisk hdeeds =>
    have hpull := (hstep.inv.holds_main (by rw [hpc]; rfl : s.client.pc.known = some (pull, []))).1
    have hlink := (hreceives.works pull hpull).link
    have hfinds := h.finds hlaid hreceives hpull hpc
    have hsame : expected cfg s'.client q = expected cfg s.client q := by
      simp only [expected, hdeeds, List.mem_cons, Prod.mk.injEq, reduceCtorEq, false_and, false_or]
    rw [hdeeds] at hqcreated
    rw [hsame]
    rcases List.mem_cons.1 hqcreated with hpath | hold
    · obtain rfl := hstep.eq_of_path hq hpull (Prod.mk.inj hpath).2
      -- What the stream is to find, is there or is created now.
      have hawaits := h.awaits q.path (hreceives.files q hpull hqtype)
        (hlaid.uncreated q (by rw [hpc]; rfl))
      have hearly : q ∈ s.client.early := ClientState.mem_early.2 (.inl (by rw [hpc]; rfl))
      rw [expected, if_neg (h.prompt.unstreamed q hearly)]
      unfold Awaits at hawaits
      cases hfinds with
      | missing dir n hmissing =>
        have hresolves := hlaid.resolves hreceives.fits hpull
        rw [hmissing] at hresolves
        rw [show s.disk.descend m.dest (q.path.splitOn slash) = none from
          hresolves.descend_missing] at hawaits
        rw [Mount.create_missing hcall hlink hmissing] at hdisk
        rw [← Option.some.inj hdisk]
        refine ⟨_, Mount.lookup_create _ hmissing, ?_⟩
        rw [hawaits, Disk.nodes_create_new, Mount.newNode, hqtype]
      | there i node hentry hnode hmatches =>
        rw [show s.disk.descend m.dest (q.path.splitOn slash) = some i from
          hlaid.descends hreceives.fits hpull hentry] at hawaits
        rw [Mount.create_there hcall hlink hentry hnode hmatches] at hdisk
        rw [← Option.some.inj hdisk]
        exact ⟨i, hentry, hawaits⟩
    · obtain ⟨i, hentry, hfile⟩ := h.content q (hstep.mem_of_deed hq hold) hqtype hold
      cases hfinds with
      | missing dir n hmissing =>
        rw [Mount.create_missing hcall hlink hmissing] at hdisk
        rw [← Option.some.inj hdisk]
        exact ⟨i, Mount.lookup_grows (s.disk.grows_create _ _ _) hentry, Disk.create_file hfile⟩
      | there k node hentry' hnode hmatches =>
        rw [Mount.create_there hcall hlink hentry' hnode hmatches] at hdisk
        rw [← Option.some.inj hdisk]
        exact ⟨i, hentry, hfile⟩
  | streams j pull hj hdisk hdeeds =>
    obtain ⟨hpull, hcreated, htype, i, hentry, hfile⟩ :=
      h.streaming hreceives hstep.inv hstep.exact hj
    rw [stream_works (hreceives.works pull hpull) htype hentry hfile] at hdisk
    have hdisk := (Option.some.inj hdisk).symm
    have hgrows := s.disk.grows_write hfile (cfg.calls pull.path).integrity.reads.flatten
    rw [hdeeds] at hqcreated
    have hold := mem_of_ne_deed hqcreated Deed.noConfusion
    rw [hdisk]
    by_cases hsame : q = pull
    · subst hsame
      refine ⟨i, Mount.lookup_grows hgrows hentry, ?_⟩
      rw [expected, hdeeds, if_pos (.head _)]
      exact List.getElem?_set_self (List.getElem?_eq_some_iff.1 hfile).1
    · have hqreceived := hstep.mem_of_deed hq hold
      obtain ⟨k, hqentry, hqfile⟩ := h.content q hqreceived hqtype hold
      have hpath : q.path ≠ pull.path := fun hpath => hsame (hstep.eq_of_path hq hpull hpath)
      have hik : i ≠ k := by
        rintro rfl
        exact hpath (hlaid.eq_of_entry hreceives.fits hqreceived hpull hqentry hentry)
      have hexpected : expected cfg s'.client q = expected cfg s.client q := by
        simp only [expected, hdeeds, List.mem_cons, Prod.mk.injEq, hpath, and_false, false_or]
      refine ⟨k, Mount.lookup_grows hgrows hqentry, ?_⟩
      rw [hexpected]
      exact (List.getElem?_set_ne hik).trans hqfile
  | keeps hdisk hdeeds =>
    have hold := (hdeeds q.path).1.1 hqcreated
    have hexpected : expected cfg s'.client q = expected cfg s.client q := by
      simp only [expected, (hdeeds q.path).2]
    rw [hdisk, hexpected]
    exact h.content q (hstep.mem_of_deed hq hold) hqtype hold

/-- What a path awaits stays as it is, as long as nothing is done at the path. -/
theorem Awaits.of_grows {d d' : ClientDisk} {path : Bytes} (h : Awaits cfg m d path)
    (hgrows : d.Grows d')
    (hfile : ∀ i content, d.descend m.dest (path.splitOn slash) = some i →
      d.nodes[i]? = some (.file content) → d'.nodes[i]? = some (.file content))
    (hnone : d.descend m.dest (path.splitOn slash) = none →
      d'.descend m.dest (path.splitOn slash) = none) : Awaits cfg m d' path := by
  unfold Awaits at h ⊢
  cases hdescends : d.descend m.dest (path.splitOn slash) with
  | none =>
    rw [hdescends] at h
    rw [hnone hdescends]
    exact h
  | some i =>
    rw [hdescends] at h
    rw [Disk.descend_grows hgrows hdescends]
    exact hfile i _ hdescends h

theorem Filled.awaits_step (h : Filled files cfg m s) (hlaid : LaidInv L cfg m sha256 d₀ s)
    (hreceives : Receives L files cfg s.client.received) (hstep : Step cfg s s')
    (hs : diskStep cfg m s event = some s') {path : Bytes} (hpath : files path)
    (hnot : (.created, path) ∉ s'.client.deeds) : Awaits cfg m s'.disk path := by
  have hmoves := diskStep_moves hs
  have hawaits := h.awaits path hpath fun hdeed => hnot (hmoves.deeds_subset hdeed)
  have hother : ∀ pull : PullObject, (.created, pull.path) ∈ s'.client.deeds →
      path.splitOn slash ≠ pull.names := fun pull hdeed hnames => hnot (eq_of_splitOn hnames ▸ hdeed)
  cases diskStep_changes (h.completes hreceives hstep) hs with
  | creates pull call hpc hcall hdisk hdeeds =>
    have hpull := (hstep.inv.holds_main (by rw [hpc]; rfl : s.client.pc.known = some (pull, []))).1
    have hlink := (hreceives.works pull hpull).link
    cases h.finds hlaid hreceives hpull hpc with
    | missing dir n hmissing =>
      have hresolves := hlaid.resolves hreceives.fits hpull
      rw [hmissing] at hresolves
      have hcreate := Mount.create_missing hcall hlink hmissing
      have hnew := Option.some.inj (hdisk.symm.trans hcreate)
      cases hresolves with
      | missing _ ms _ hnames hdir =>
        refine hawaits.of_grows hmoves.grows (fun i content _ hfile => ?_) fun hnone => ?_
        · rw [hnew]
          exact Disk.create_file hfile
        · rw [hnew, Option.eq_none_iff_forall_ne_some]
          intro j hj
          have hbare := Mount.create_bare hcreate (s.disk.nodes_create_new dir n _)
          rcases hlaid.laid.descend_create hdir hbare hj with hold | ⟨hsame, -⟩
          · cases hnone.symm.trans hold
          · exact hother pull (hdeeds ▸ .head _) (hsame.trans hnames.symm)
    | there i node hentry hnode hmatches =>
      have hsame := Mount.create_there hcall hlink hentry hnode hmatches
      exact Option.some.inj (hdisk.symm.trans hsame) ▸ hawaits
  | streams j pull hj hdisk hdeeds =>
    obtain ⟨hpull, hcreated, htype, i, hentry, hfile⟩ :=
      h.streaming hreceives hstep.inv hstep.exact hj
    rw [stream_works (hreceives.works pull hpull) htype hentry hfile] at hdisk
    have hnew := (Option.some.inj hdisk).symm
    have hdescends := hlaid.descends hreceives.fits hpull hentry
    have hcongr := Disk.descend_congr (Disk.child_write hfile
      (cfg.calls pull.path).integrity.reads.flatten) m.dest (path.splitOn slash)
    refine hawaits.of_grows hmoves.grows (fun k content hk hkfile => ?_) fun hnone => ?_
    · have hik : i ≠ k := by
        rintro rfl
        exact hother pull (hmoves.deeds_subset hcreated) (hlaid.laid.unique _ _ i hk hdescends)
      rw [hnew]
      exact (List.getElem?_set_ne hik).trans hkfile
    · rw [hnew, hcongr]
      exact hnone
  | keeps hdisk hdeeds => exact hdisk ▸ hawaits

/-- **Every event keeps it.** -/
theorem Filled.step (h : Filled files cfg m s) (hlaid : LaidInv L cfg m sha256 d₀ s)
    (hreceives : Receives L files cfg s.client.received) (hstep : Step cfg s s')
    (hlive : s'.client.pc ≠ .dead) (hs : diskStep cfg m s event = some s') :
    Filled files cfg m s' := by
  refine ⟨?_, ?_, fun q hq hqtype hqcreated =>
    h.content_step hlaid hreceives hstep hs hq hqtype hqcreated,
    fun path hpath hnot => h.awaits_step hlaid hreceives hstep hs hpath hnot⟩
  · rcases ReportingClient.reportStep_client (diskStep_run hs) with ⟨hsame, -⟩ | ⟨e, -, hclient⟩
    · rw [client, hsame]
      exact h.prompt
    · refine h.prompt.step hstep.exact hclient hlive hstep.announced.distinct ?_
      intro pull hpc
      have hpull := (hstep.inv.holds_main (by rw [hpc]; rfl : s.client.pc.known = some (pull, []))).1
      exact (hreceives.works pull hpull).creates
  · obtain ⟨parent, entries, hdest⟩ := h.dest
    obtain ⟨node, hnode, hgrows⟩ := (diskStep_moves hs).grows m.dest _ hdest
    cases node with
    | dir parent' entries' => exact ⟨parent', entries', hnode⟩
    | file content => exact hgrows.elim
    | symlink target => exact hgrows.elim

end DiskClient

end Netpull
