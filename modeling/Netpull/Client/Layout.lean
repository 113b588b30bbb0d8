import Netpull.Client.Completion
import Netpull.Lib.Planted
import Netpull.Server.FileSystem

/-!
# Where things belong

The destination has a layout, and what is announced fits in. A client that finds nothing there but
what belongs there spoils nothing and leaves nothing else, and it touches nothing beside the
destination (`LaidInv.step`). So it does not matter whether an earlier client has been there.
-/

namespace Netpull

open Inodes PullObject Separated

/-! ## Paths of names -/

section Names

variable {p : Bytes}

theorem no_nul_of_names (h : ∀ n ∈ p.splitOn slash, Contents.EntryName n) : 0 ∉ p := by
  intro hmem
  have hspell : 0 ∈ spell slash (p.splitOn slash) := by
    rw [spell_splitOn]
    exact .tail _ hmem
  obtain ⟨n, hn, hzero⟩ := List.mem_flatMap.1 hspell
  rcases List.mem_cons.1 hzero with hzero | hzero
  · exact absurd hzero (by decide)
  · exact (h n hn).no_nul hzero

theorem endsWith_slash_of_names (h : ∀ n ∈ p.splitOn slash, Contents.EntryName n) :
    endsWith p [slash] = false := by
  rw [Bool.eq_false_iff, ne_eq, endsWith_iff]
  rintro ⟨q, rfl⟩
  have hnil : [] ∈ (q ++ [slash]).splitOn slash := by
    rw [splitOn_append_cons]
    exact List.mem_append_right _ (.head _)
  exact (h [] hnil).ne_nil rfl

theorem isAbsolute_of_names (h : ∀ n ∈ p.splitOn slash, Contents.EntryName n) :
    isAbsolute p = false := by
  rw [isAbsolute, Bool.eq_false_iff, ne_eq, startsWith_iff]
  rintro ⟨q, rfl⟩
  have hnil : [] ∈ ([] ++ slash :: q).splitOn slash := by
    rw [splitOn_append_cons]
    exact List.mem_append_left _ (.head _)
  exact (h [] hnil).ne_nil rfl

/-- The components of such a path are its names. -/
theorem pathComponents_of_names (h : ∀ n ∈ p.splitOn slash, Contents.EntryName n) :
    pathComponents p = (p.splitOn slash).map .name := by
  have hfilter : (p.splitOn slash).filter (· ≠ []) = p.splitOn slash := by
    rw [List.filter_eq_self]
    exact fun n hn => decide_eq_true (h n hn).ne_nil
  rw [pathComponents, hfilter, endsWith_slash_of_names h, if_neg Bool.false_ne_true,
    List.append_nil]
  refine List.map_congr_left fun n hn => ?_
  rw [if_neg (h n hn).ne_dot, if_neg (h n hn).ne_dotdot]

end Names

/-- The names in the path of an object. -/
def PullObject.names (pull : PullObject) : List Bytes := pull.path.splitOn slash

theorem PullObject.names_ne_nil (pull : PullObject) : pull.names ≠ [] := List.splitOn_ne_nil _ _

theorem eq_of_splitOn {p q : Bytes} (h : p.splitOn slash = q.splitOn slash) : p = q := by
  have hjoined := congrArg ([slash].intercalate ·) h
  simp only [List.intercalate_splitOn] at hjoined
  exact hjoined

theorem PullObject.path_of_names {p q : PullObject} (h : p.names = q.names) : p.path = q.path :=
  eq_of_splitOn h

theorem Mount.entry_eq (m : Mount) (d : ClientDisk) {pull : PullObject}
    (hnames : ∀ n ∈ pull.names, Contents.EntryName n) :
    m.entry d pull = d.resolve m.targets false kMaxSymlinks m.dest (pull.names.map .name) := by
  have hpath : entryPath pull = pull.path := by
    rw [entryPath, cstr_eq_self (no_nul_of_names hnames), stripSlashes_of_not_endsWith, ite_self]
    rw [endsWith_slash_of_names hnames]
    exact Bool.false_ne_true
  have hne : pull.path ≠ [] := by
    intro hnil
    have hmem : [] ∈ pull.names := by
      rw [PullObject.names, hnil]
      exact .head _
    exact (hnames [] hmem).ne_nil rfl
  rw [Mount.entry, hpath, Mount.lookup, if_neg hne, isAbsolute_of_names hnames,
    if_neg Bool.false_ne_true, pathComponents_of_names hnames]
  rfl

/-- Such an object lies where its names lead to. -/
theorem Mount.resolves_entry (m : Mount) {d : ClientDisk} {pull : PullObject}
    (hnames : ∀ n ∈ pull.names, Contents.EntryName n) (hlink : d.NoLink m.dest pull.names) :
    d.Resolves m.dest pull.names (m.entry d pull) := by
  rw [m.entry_eq d hnames]
  exact Disk.resolve_names hlink m.targets kMaxSymlinks

/-! ## What is announced -/

/-- Messages that announce what belongs into the destination. A symlink without a target is never
created. -/
structure FitsIn (L : Layout Bytes Bytes Bytes) (dest : Bytes) (received : List PullResponse) :
    Prop extends DiskClient.WellAnnounced received where
  names : ∀ pull ∈ objectsOf received, ∀ n ∈ pull.names, Contents.EntryName n
  place : ∀ pull ∈ objectsOf received, L.Place pull.names
  right : ∀ pull ∈ objectsOf received,
    (pull.type = .kTypeSymlink → cstr (linkTarget dest pull.symlink) ≠ []) →
      ∀ node, L.Right pull.names node ↔ Matches dest pull node

theorem FitsIn.of_prefix {L : Layout Bytes Bytes Bytes} {dest : Bytes}
    {received received' : List PullResponse} (h : FitsIn L dest received')
    (hreceived : received <+: received') : FitsIn L dest received := by
  have hsubset : objectsOf received ⊆ objectsOf received' := (hreceived.filterMap _).subset
  exact ⟨h.toWellAnnounced.of_prefix hreceived, fun pull hpull => h.names pull (hsubset hpull),
    fun pull hpull => h.place pull (hsubset hpull), fun pull hpull => h.right pull (hsubset hpull)⟩

/-! ## What is created -/

/-- A symlink that is created has a target. -/
theorem Mount.link_of_create {m : Mount} {dest : Bytes} {d d' : ClientDisk} {pull : PullObject}
    {call : CreateCall} (hcall : createCall dest pull = .ok call) (h : m.create d call = some d')
    (htype : pull.type = .kTypeSymlink) : cstr (linkTarget dest pull.symlink) ≠ [] := by
  intro hnil
  rw [createCall, htype] at hcall
  obtain rfl := Except.ok.inj hcall
  rw [create, if_pos hnil] at h
  cases h

/-- What a call creates has nothing in it. -/
theorem Mount.create_bare {m : Mount} {d d' : ClientDisk} {call : CreateCall}
    (h : m.create d call = some d') {node : Inodes.Node Bytes Bytes Bytes}
    (hnode : d'.nodes[d.nodes.length]? = some node) : node.Bare := by
  have hold : d.nodes[d.nodes.length]? = none := List.getElem?_eq_none (Nat.le_refl _)
  have hstays : some d = some d' → node.Bare := by
    rintro ⟨⟩
    exact absurd (hold.symm.trans hnode) (Option.some_ne_none node).symm
  have hnew : ∀ {dir n} {node' : Inodes.Node Bytes Bytes Bytes},
      some (d.create dir n node') = some d' → node'.Bare → node.Bare := by
    rintro dir n node' ⟨⟩ hbare
    obtain rfl := Option.some.inj ((d.nodes_create_new dir n node').symm.trans hnode)
    exact hbare
  cases call with
  | openat path =>
    rw [create] at h
    split at h
    · split at h
      · exact hstays h
      · cases h
    · exact hnew h trivial
    · cases h
  | mkdirat path perms =>
    rw [create] at h
    split at h
    · exact hstays h
    · exact hnew h rfl
    · cases h
  | symlinkat target path =>
    rw [create] at h
    split at h
    · cases h
    · split at h
      · exact hstays h
      · exact hnew h trivial
      · cases h

/-- The object that the main thread has not created yet. -/
def ClientPc.uncreated : ClientPc → Option PullObject
  | .inserting pull | .creating pull => some pull
  | _ => none

section Uncreated

variable {cfg : ClientConfig} {s s' : ClientState} {path : Bytes}

theorem created_of_run {j : Nat} {r : ClientRun}
    (h : (.created, path) ∈ (clientRunStep cfg s j r).deeds) : (.created, path) ∈ s.deeds := by
  cases r with
  | streaming pull | settling pull =>
    rw [clientRunStep] at h
    split at h
    · exact mem_of_ne_deed h Deed.noConfusion
    · exact h
  | checking pull =>
    rw [clientRunStep] at h
    split at h
    · exact h
    · exact mem_of_ne_deed h Deed.noConfusion
    · exact mem_of_ne_deed (mem_of_ne_deed h Deed.noConfusion) Deed.noConfusion
  | preparing pull | submitting pull | erasing pull | returned => exact h

/-- An object comes to be created when it is received; until it is, nothing else is. -/
theorem uncreated_step {event : ClientEvent} (hs : clientStep cfg s event = some s')
    {pull : PullObject} (h : s'.pc.uncreated = some pull) :
    (s.pc.uncreated = some pull ∨ objectsOf s'.received = objectsOf s.received ++ [pull]) ∧
      ∀ path, (.created, path) ∈ s'.deeds → (.created, path) ∈ s.deeds := by
  cases clientStep_cases hs with
  | receives resp hpc =>
    refine ⟨.inr ?_, fun path hdeed => (ClientState.handleResponse_keeps s resp).2 ▸ hdeed⟩
    cases resp with
    | unset | finished total => cases h
    | started job =>
      rw [handleResponse_started, hpc] at h
      simp only at h
      split at h <;> cases h
    | error message =>
      have hreading : s.pc.uncreated = some pull := h
      rw [hpc] at hreading
      cases hreading
    | object q =>
      rw [handleResponse_object] at h
      simp only at h
      split at h
      · cases h
      · cases h
        exact objectsOf_append _ _
  | loses | overruns => cases h
  | pops => exact ⟨.inl h, fun _ hdeed => hdeed⟩
  | runs j r hj => exact ⟨.inl ((ClientState.clientRunStep_pc cfg s j r) ▸ h), fun _ => created_of_run⟩
  | main hmain =>
    cases clientMainStep_cases hmain with
    | inserts q hpc =>
      refine ⟨.inl ?_, fun _ hdeed => hdeed⟩
      rw [hpc]
      exact h
    | asserts | createsFile | createsEntry | notCreated | prepares | submits | settles
    | notSettled | erases | reports => cases h

end Uncreated

namespace DiskClient

variable {L : Layout Bytes Bytes Bytes} {cfg : ClientConfig} {m : Mount}
  {sha256 : Bytes → Bytes} {d₀ : ClientDisk} {s s' : DiskClient} {event : ReportEvent}

/-- What holds of a client in whose destination everything belongs there. Before anything was put
there, the disk was `d₀`. -/
structure LaidInv (L : Layout Bytes Bytes Bytes) (cfg : ClientConfig) (m : Mount)
    (sha256 : Bytes → Bytes) (d₀ : ClientDisk) (s : DiskClient) : Prop where
  disk : DiskInv cfg m sha256 s
  laid : Laid L d₀ m.dest s.disk
  uncreated : ∀ pull ∈ s.client.pc.uncreated, (.created, pull.path) ∉ s.client.deeds

theorem LaidInv.start (cfg : ClientConfig) {m : Mount} (sha256 : Bytes → Bytes)
    {disk : ClientDisk} (hlaid : Laid L d₀ m.dest disk) :
    LaidInv L cfg m sha256 d₀ ⟨.start cfg, disk⟩ where
  disk := .start cfg m sha256 disk
  laid := hlaid
  uncreated := by rintro pull ⟨⟩

theorem mem_createdObjects {pull : PullObject} : pull ∈ s.createdObjects ↔
    pull ∈ objectsOf s.client.received ∧ (.created, pull.path) ∈ s.client.deeds := by
  rw [createdObjects, List.mem_filter, decide_eq_true_iff]

/-- An object is looked up where its names lead to. -/
theorem LaidInv.resolves (h : LaidInv L cfg m sha256 d₀ s)
    (hannounced : FitsIn L cfg.dest s.client.received) {pull : PullObject}
    (hpull : pull ∈ objectsOf s.client.received) :
    s.disk.Resolves m.dest pull.names (m.entry s.disk pull) :=
  m.resolves_entry (hannounced.names pull hpull) (h.laid.noLink (hannounced.place pull hpull))

theorem LaidInv.descends (h : LaidInv L cfg m sha256 d₀ s)
    (hannounced : FitsIn L cfg.dest s.client.received) {pull : PullObject}
    (hpull : pull ∈ objectsOf s.client.received) {i : Nat}
    (hentry : m.entry s.disk pull = .inode i) : s.disk.descend m.dest pull.names = some i := by
  have hresolves := h.resolves hannounced hpull
  rw [hentry] at hresolves
  cases hresolves with
  | inode _ hdescends => exact hdescends

/-- What was created lies where its names lead to. -/
theorem LaidInv.placed (h : LaidInv L cfg m sha256 d₀ s)
    (hannounced : FitsIn L cfg.dest s.client.received) {pull : PullObject}
    (hpull : pull ∈ objectsOf s.client.received)
    (hcreated : (.created, pull.path) ∈ s.client.deeds) :
    ∃ i node, s.disk.descend m.dest pull.names = some i ∧ m.entry s.disk pull = .inode i ∧
      s.disk.nodes[i]? = some node ∧ Matches cfg.dest pull node := by
  obtain ⟨i, node, hentry, hnode, hmatches⟩ := h.disk.shaped pull hpull hcreated
  exact ⟨i, node, h.descends hannounced hpull hentry, hentry, hnode, hmatches⟩

/-- Two objects with the same inode are one. -/
theorem LaidInv.eq_of_entry (h : LaidInv L cfg m sha256 d₀ s)
    (hannounced : FitsIn L cfg.dest s.client.received) {p q : PullObject}
    (hp : p ∈ objectsOf s.client.received) (hq : q ∈ objectsOf s.client.received) {i : Nat}
    (hpi : m.entry s.disk p = .inode i) (hqi : m.entry s.disk q = .inode i) : p.path = q.path :=
  PullObject.path_of_names (h.laid.unique _ _ i (h.descends hannounced hp hpi)
    (h.descends hannounced hq hqi))

/-- Where an object is created, nothing is spoilt. -/
theorem LaidInv.unspoilt (h : LaidInv L cfg m sha256 d₀ s)
    (hannounced : FitsIn L cfg.dest s.client.received) {pull : PullObject}
    (hpull : pull ∈ objectsOf s.client.received) (hpc : s.client.pc = .creating pull)
    (hlink : pull.type = .kTypeSymlink → cstr (linkTarget cfg.dest pull.symlink) ≠ []) :
    m.Unspoilt cfg.dest s.disk s.createdObjects pull := by
  intro i hi
  have hentry := Lookup.mem_inode?.1 hi
  have hdescends := h.descends hannounced hpull hentry
  refine ⟨?_, ?_⟩
  · obtain ⟨node, hnode, hright⟩ := h.laid.right _ i pull.names_ne_nil hdescends
    exact ⟨node, hnode, (hannounced.right pull hpull hlink node).1 hright⟩
  · intro _ q hq _ hqentry
    obtain ⟨hqreceived, hqcreated⟩ := mem_createdObjects.1 hq
    rw [h.eq_of_entry hannounced hqreceived hpull hqentry hentry] at hqcreated
    exact h.uncreated pull (by rw [hpc]; rfl) hqcreated

/-- What is laid after an object was created. -/
theorem LaidInv.create (h : LaidInv L cfg m sha256 d₀ s)
    (hannounced : FitsIn L cfg.dest s.client.received) {pull : PullObject}
    (hpull : pull ∈ objectsOf s.client.received) {call : CreateCall}
    (hcall : createCall cfg.dest pull = .ok call) (hcreate : m.create s.disk call = some s'.disk)
    (hunspoilt : m.Unspoilt cfg.dest s.disk s.createdObjects pull) :
    Laid L d₀ m.dest s'.disk := by
  obtain ⟨hcreated, hhow⟩ := Mount.create_eq hunspoilt hcall hcreate
  rcases hhow with hsame | ⟨dir, n, node, hmissing, hnew⟩
  · rw [hsame]
    exact h.laid
  · have hnode : s'.disk.nodes[s.disk.nodes.length]? = some node := by
      rw [hnew]
      exact s.disk.nodes_create_new dir n node
    obtain ⟨i, node', hentry, hnode', hmatches⟩ := hcreated.shaped
    have hthere : m.entry s'.disk pull = .inode s.disk.nodes.length := by
      rw [hnew]
      exact Mount.lookup_create node hmissing
    obtain rfl := Lookup.inode.inj (hentry.symm.trans hthere)
    obtain rfl := Option.some.inj (hnode.symm.trans hnode')
    have hright := (hannounced.right pull hpull (Mount.link_of_create hcall hcreate) node).2 hmatches
    have hplace := hannounced.place pull hpull
    have hresolves := h.resolves hannounced hpull
    rw [hmissing] at hresolves
    cases hresolves with
    | missing _ ns _ hnames hdescends =>
      rw [hnames] at hright hplace
      rw [hnew]
      exact h.laid.create hdescends (Mount.create_bare hcreate hnode) hplace hright

theorem LaidInv.uncreated_after (h : LaidInv L cfg m sha256 d₀ s) (hstep : Step cfg s s')
    (hs : diskStep cfg m s event = some s') {pull : PullObject}
    (hpull : s'.client.pc.uncreated = some pull) : (.created, pull.path) ∉ s'.client.deeds := by
  rcases ReportingClient.reportStep_client (diskStep_run hs) with ⟨hsame, -⟩ | ⟨e, -, hclient⟩
  · rw [client, hsame] at hpull ⊢
    exact h.uncreated pull hpull
  · obtain ⟨hwhich, hcreated⟩ := uncreated_step hclient hpull
    intro hdeed
    have hdeed := hcreated _ hdeed
    rcases hwhich with hold | hnew
    · exact h.uncreated pull hold hdeed
    · obtain ⟨q, hq, hpath, -⟩ := hstep.exact.done _ _ hdeed
      exact hstep.path_ne hnew hq hpath

/-- A worker streams into the file of its object. -/
theorem LaidInv.streams (h : LaidInv L cfg m sha256 d₀ s) (hstep : Step cfg s s')
    (hannounced : FitsIn L cfg.dest s.client.received) {j : Nat} {pull : PullObject}
    (hj : s.client.pool.running[j]? = some (.streaming pull))
    (hdisk : m.stream s.disk (cfg.calls pull.path).stream pull = some s'.disk) :
    pull ∈ objectsOf s.client.received ∧ (s'.disk = s.disk ∨ ∃ i old content,
      s.disk.descend m.dest pull.names = some i ∧ s.disk.nodes[i]? = some (.file old) ∧
        s'.disk = s.disk.write i content) := by
  obtain ⟨hpull, hknown⟩ := hstep.inv.holds_run hj rfl
  refine ⟨hpull, ?_⟩
  rcases Mount.stream_some hdisk with hsame | ⟨i, content, content', hopen, hwritten⟩
  · exact .inl hsame
  · have hshaped := h.disk.shaped pull hpull (hknown .created (.head _))
    obtain ⟨-, hentry, hfile⟩ :=
      Mount.openFile_eq hshaped (hstep.type_ne_symlink hpull hj rfl) hopen
    exact .inr ⟨i, content, content', h.descends hannounced hpull hentry, hfile, hwritten⟩

theorem create_of_created (hs : diskStep cfg m s event = some s') {pull : PullObject}
    (h : created cfg s event = some pull) : s.client.pc = .creating pull ∧
      ∃ call, createCall cfg.dest pull = .ok call ∧ m.create s.disk call = some s'.disk := by
  have hdisk := (diskStep_parts hs).1
  unfold created at h
  split at h
  · split at h
    · next q hpc =>
      split at h
      · next call hcall =>
        split at h
        · next hcreates =>
          obtain rfl := Option.some.inj h
          unfold diskAfter at hdisk
          simp only [hpc, hcall, hcreates, if_true] at hdisk
          exact ⟨hpc, call, hcall, hdisk⟩
        · cases h
      · cases h
    · cases h
  · cases h

/-- Nothing is spoilt. -/
theorem LaidInv.clean (h : LaidInv L cfg m sha256 d₀ s) (hinv : ClientInv cfg s.client)
    (hannounced : FitsIn L cfg.dest s.client.received)
    (hs : diskStep cfg m s event = some s') : Clean cfg m s event := by
  intro pull hcreated
  obtain ⟨hpc, call, hcall, hcreate⟩ := create_of_created hs hcreated
  have hpull := (hinv.holds_main (by rw [hpc]; rfl : s.client.pc.known = some (pull, []))).1
  exact h.unspoilt hannounced hpull hpc (Mount.link_of_create hcall hcreate)

/-- **Every event keeps it**: nothing is spoilt, and nothing outside of the destination touched. -/
theorem LaidInv.step (h : LaidInv L cfg m sha256 d₀ s) (hstep : Step cfg s s')
    (hbefore : FitsIn L cfg.dest s.client.received)
    (hsha : ∀ path bytes digest,
      (cfg.calls path).integrity.sha256Final bytes = some digest → digest = sha256 bytes)
    (hs : diskStep cfg m s event = some s') : LaidInv L cfg m sha256 d₀ s' := by
  have hclean : Clean cfg m s event := h.clean hstep.inv hbefore hs
  refine ⟨h.disk.step hstep hsha hclean hs, ?_, fun pull => h.uncreated_after hstep hs⟩
  cases diskStep_moves hs with
  | creates pull call pc call_eq succeeds disk deeds =>
    have hpull := (hstep.inv.holds_main (by rw [pc]; rfl : s.client.pc.known = some (pull, []))).1
    exact h.create hbefore hpull call_eq disk (hclean pull (created_main pc call_eq succeeds))
  | streams j pull running disk deeds =>
    obtain ⟨-, hsame | ⟨i, old, content, hdescends, hfile, hwritten⟩⟩ :=
      h.streams hstep hbefore running disk
    · exact hsame ▸ h.laid
    · rw [hwritten]
      exact h.laid.write hdescends pull.names_ne_nil hfile content
  | verifies j pull running disk reads verdict deeds => exact disk ▸ h.laid
  | stays disk deeds => exact disk ▸ h.laid

/-- A file that is not announced stays as it is. -/
theorem LaidInv.keeps_file (h : LaidInv L cfg m sha256 d₀ s) (hstep : Step cfg s s')
    (hbefore : FitsIn L cfg.dest s.client.received) (hs : diskStep cfg m s event = some s')
    {ns : List Bytes} {i : Nat} {content : Bytes} (hns : s.disk.descend m.dest ns = some i)
    (hfile : s.disk.nodes[i]? = some (.file content))
    (hother : ∀ pull ∈ objectsOf s.client.received, pull.names ≠ ns) :
    s'.disk.descend m.dest ns = some i ∧ s'.disk.nodes[i]? = some (.file content) := by
  have hmoves := diskStep_moves hs
  refine ⟨Disk.descend_grows hmoves.grows hns, ?_⟩
  cases hmoves with
  | creates pull call pc call_eq succeeds disk deeds =>
    have hunspoilt := h.clean hstep.inv hbefore hs pull (created_main pc call_eq succeeds)
    exact (Mount.create_eq hunspoilt call_eq disk).1.files i content hfile
  | streams j pull running disk deeds =>
    obtain ⟨hpull, hsame | ⟨k, old, new, hdescends, -, hwritten⟩⟩ :=
      h.streams hstep hbefore running disk
    · exact hsame ▸ hfile
    · have hki : k ≠ i := by
        rintro rfl
        exact hother pull hpull (h.laid.unique _ _ k hdescends hns)
      rw [hwritten]
      exact (List.getElem?_set_ne hki).trans hfile
  | verifies j pull running disk reads verdict deeds => exact disk ▸ hfile
  | stays disk deeds => exact disk ▸ hfile

end DiskClient

end Netpull
