import Netpull.Client.Metadata
import Netpull.Server.ClientSendCrawler

/-!
# Metadata

Whether the files and directories that were pulled have the permissions and the times that were
announced. The client sets them once for each object; `MetadataInv` says that they stay, if every
object is created where it disturbs nothing. A directory gets its permissions when it is created,
and its time before anything is created in it, so both are lost easily.
-/

namespace Netpull

open Inodes PullObject

namespace MetadataClient

/-- The destination holds the announced object at the path, with the announced permissions and
time. -/
def HasMetadata (cfg : MetadataConfig) (s : MetadataClient) (pull : PullObject) : Prop :=
  ∃ i node, cfg.mount.entry s.disk pull = .inode i ∧ s.disk.nodes[i]? = some node ∧
    Matches cfg.client.dest pull node ∧ s.attributes i = pull.attributes

/-- The objects whose metadata was set. -/
def settledObjects (s : MetadataClient) : List PullObject :=
  s.base.createdObjects.filter fun pull => (.settled, pull.path) ∈ s.client.deeds

/-- An object can be created without a loss of metadata: what is there already is of the announced
type and no other object that was pulled, and a directory has the announced permissions; a new
directory gets them in spite of the umask; and a new entry is not made in a directory that was
pulled before, unless the clock shows just its time. -/
structure Undisturbed (cfg : MetadataConfig) (s : MetadataClient) (now : Timespec)
    (pull : PullObject) : Prop where
  unspoilt : cfg.mount.Unspoilt cfg.client.dest s.disk [] pull
  alone : pull.type.NonLink → ∀ i ∈ (cfg.mount.entry s.disk pull).inode?,
    ∀ q ∈ s.base.createdObjects, q.type.NonLink → cfg.mount.entry s.disk q ≠ .inode i
  existing : pull.type = .kTypeDirectory → ∀ i ∈ (cfg.mount.entry s.disk pull).inode?,
    (s.attributes i).perms = pull.attributes.perms
  unmasked : pull.type = .kTypeDirectory → (cfg.mount.entry s.disk pull).dir?.isSome →
    pull.attributes.perms &&& cfg.umask = 0
  parent : ∀ dir ∈ (cfg.mount.entry s.disk pull).dir?, ∀ q ∈ s.settledObjects,
    cfg.mount.entry s.disk q = .inode dir → q.attributes.mtime = now

instance (cfg : MetadataConfig) (s : MetadataClient) (now : Timespec) (pull : PullObject) :
    Decidable (Undisturbed cfg s now pull) :=
  decidable_of_iff (_ ∧ _ ∧ _ ∧ _ ∧ _)
    ⟨fun h => ⟨h.1, h.2.1, h.2.2.1, h.2.2.2.1, h.2.2.2.2⟩,
      fun h => ⟨h.unspoilt, h.alone, h.existing, h.unmasked, h.parent⟩⟩

/-- Where an object is created, nothing is disturbed. -/
def Careful (cfg : MetadataConfig) (s : MetadataClient) (e : TimedEvent) : Prop :=
  ∀ pull ∈ DiskClient.created cfg.client s.base e.event, Undisturbed cfg s e.now pull

instance (cfg : MetadataConfig) (s : MetadataClient) (e : TimedEvent) :
    Decidable (Careful cfg s e) :=
  inferInstanceAs (Decidable (∀ pull ∈ DiskClient.created cfg.client s.base e.event, _))

def start (cfg : MetadataConfig) (disk : ClientDisk) (attributes : Nat → Attributes) :
    MetadataClient :=
  ⟨⟨.start cfg.client, disk⟩, attributes⟩

/-! ## The invariant -/

structure MetadataInv (cfg : MetadataConfig) (s : MetadataClient) : Prop where
  placed : DiskClient.Placed cfg.client cfg.mount PullObject.Type.NonLink s.base
  early : ∀ pull ∈ s.client.early, (.settled, pull.path) ∉ s.client.deeds
  /-- A directory has its permissions from its creation on. -/
  perms : ∀ pull ∈ objectsOf s.client.received, (.created, pull.path) ∈ s.client.deeds →
    pull.type = .kTypeDirectory → ∀ i, cfg.mount.entry s.disk pull = .inode i →
      (s.attributes i).perms = pull.attributes.perms
  settled : ∀ pull ∈ objectsOf s.client.received, (.settled, pull.path) ∈ s.client.deeds →
    (.created, pull.path) ∈ s.client.deeds ∧ (pull.type.NonLink →
      ∀ i, cfg.mount.entry s.disk pull = .inode i →
        (s.attributes i).mtime = pull.attributes.mtime ∧
          (pull.type = .kTypeFile → (s.attributes i).perms = pull.attributes.perms))

variable {cfg : MetadataConfig} {s s' : MetadataClient} {now : Timespec} {event : ReportEvent}
  {pull : PullObject} {path : Bytes}

theorem Moves.settled (h : Moves cfg now s s' event)
    (hdeed : (.settled, path) ∈ s'.client.deeds) :
    (.settled, path) ∈ s.client.deeds ∨ ∃ pull, pull.path = path ∧
      (s.client.pc = .settling pull ∨
        ∃ j : Nat, s.client.pool.running[j]? = some (.settling pull)) := by
  cases h with
  | creates q call pc call_eq succeeds disk attributes deeds =>
    rw [deeds] at hdeed
    exact .inl (mem_of_ne_deed hdeed Deed.noConfusion)
  | settles q calls hand disk attributes deeds =>
    rcases deeds with deeds | ⟨-, deeds⟩
    · exact .inl (deeds ▸ hdeed)
    · rw [deeds] at hdeed
      rcases List.mem_cons.1 hdeed with hnew | hdeed
      · exact .inr ⟨q, (Prod.mk.inj hnew).2.symm, hand⟩
      · exact .inl hdeed
  | streams j q calls running disk attributes deeds | stays disk attributes deeds =>
    exact .inl ((deeds path).2 hdeed)

/-- The object whose metadata a thread sets was received and created. -/
theorem created_of_settling (h : ClientInv cfg.client s.client)
    (hand : s.client.pc = .settling pull ∨
      ∃ j : Nat, s.client.pool.running[j]? = some (.settling pull)) :
    pull ∈ objectsOf s.client.received ∧ (.created, pull.path) ∈ s.client.deeds := by
  rcases hand with hpc | ⟨j, hj⟩
  · obtain ⟨hpull, hknown⟩ :=
      h.holds_main (by rw [hpc]; rfl : s.client.pc.known = some (pull, [.created]))
    exact ⟨hpull, hknown .created (.head _)⟩
  · obtain ⟨hpull, hknown⟩ := h.holds_run hj rfl
    exact ⟨hpull, hknown .created (.head _)⟩

namespace MetadataInv

variable {disk : ClientDisk} {attributes : Nat → Attributes}

theorem start (cfg : MetadataConfig) (disk : ClientDisk) (attributes : Nat → Attributes) :
    MetadataInv cfg (.start cfg disk attributes) where
  placed := .start cfg.client cfg.mount _ disk
  early _ hpull := by cases hpull
  perms _ hpull := by cases hpull
  settled _ hpull := by cases hpull

/-- The metadata of a file that is still to be streamed is not set. -/
theorem early_step (h : MetadataInv cfg s) (hstep : DiskClient.Step cfg.client s.base s'.base)
    (hs : metadataStep cfg s ⟨event, now⟩ = some s') (hpull : pull ∈ s'.client.early) :
    (.settled, pull.path) ∉ s'.client.deeds := by
  intro hdeed
  rcases DiskClient.early_diskStep (metadataStep_base hs).2 hpull with hearly | hnew
  · rcases (metadataStep_moves hs).settled hdeed with hdeed | ⟨q, hpath, hpc | ⟨j, hj⟩⟩
    · exact h.early pull hearly hdeed
    · exact ClientState.path_ne_of_early_main hstep.exact hstep.announced_before
        (by rw [hpc]; rfl) (by rw [hpc]; rfl) hearly hpath.symm
    · exact ClientState.path_ne_of_early hstep.exact hstep.announced_before hj rfl rfl hearly
        hpath.symm
  · rcases (metadataStep_moves hs).settled hdeed with hdeed | ⟨q, hpath, hand⟩
    · obtain ⟨q, hq, hpath, -⟩ := hstep.exact.done _ _ hdeed
      exact hstep.path_ne hnew hq hpath
    · exact hstep.path_ne hnew (created_of_settling hstep.inv hand).1 hpath

/-- An event that creates nothing. -/
theorem advance (h : MetadataInv cfg s) (hstep : DiskClient.Step cfg.client s.base s'.base)
    (hs : metadataStep cfg s ⟨event, now⟩ = some s') (hgrows : s.disk.Grows s'.disk)
    (hcreated : ∀ path, (.created, path) ∈ s'.client.deeds → (.created, path) ∈ s.client.deeds)
    (hperms : ∀ pull ∈ objectsOf s.client.received, (.created, pull.path) ∈ s.client.deeds →
      pull.type = .kTypeDirectory → ∀ i, cfg.mount.entry s.disk pull = .inode i →
        (s'.attributes i).perms = (s.attributes i).perms)
    (hsettled : ∀ pull ∈ objectsOf s.client.received, (.settled, pull.path) ∈ s'.client.deeds →
      (.created, pull.path) ∈ s.client.deeds ∧ (pull.type.NonLink →
        ∀ i, cfg.mount.entry s.disk pull = .inode i →
          (s'.attributes i).mtime = pull.attributes.mtime ∧
            (pull.type = .kTypeFile → (s'.attributes i).perms = pull.attributes.perms))) :
    MetadataInv cfg s' where
  placed := h.placed.advance hstep hgrows hcreated
  early _ hpull := h.early_step hstep hs hpull
  perms pull hpull hdeed htype i hi := by
    have hdeed := hcreated _ hdeed
    have hpull := hstep.mem_of_deed hpull hdeed
    have hshaped : cfg.mount.Shaped cfg.client.dest s.disk pull :=
      h.placed.shaped pull hpull hdeed
    rw [hshaped.entry hgrows] at hi
    rw [hperms pull hpull hdeed htype i hi]
    exact h.perms pull hpull hdeed htype i hi
  settled pull hpull hdeed := by
    have hpull' : pull ∈ objectsOf s.client.received := by
      rcases (metadataStep_moves hs).settled hdeed with hdeed | ⟨q, hpath, hand⟩
      · exact hstep.mem_of_deed hpull hdeed
      · have hq := (created_of_settling hstep.inv hand).1
        rwa [hstep.eq_of_path hpull hq hpath.symm]
    obtain ⟨hdeed, hmetadata⟩ := hsettled pull hpull' hdeed
    have hshaped : cfg.mount.Shaped cfg.client.dest s.disk pull :=
      h.placed.shaped pull hpull' hdeed
    refine ⟨DiskClient.Moves.deeds_subset
      (DiskClient.diskStep_moves (metadataStep_base hs).2) hdeed, ?_⟩
    rw [hshaped.entry hgrows]
    exact hmetadata

/-- A stream changes the time of its file alone, and that is not set yet. -/
theorem stream (h : MetadataInv cfg s) (hstep : DiskClient.Step cfg.client s.base s'.base)
    (hs : metadataStep cfg s ⟨event, now⟩ = some s') {j : Nat} {calls : StreamCalls}
    (hj : s.client.pool.running[j]? = some (.streaming pull))
    (hdisk : cfg.mount.stream s.disk calls pull = some s'.disk)
    (hattributes : s'.attributes =
      cfg.mount.streamAttributes now s.disk s.attributes calls pull)
    (hdeeds : NothingDone s.client.deeds s'.client.deeds) : MetadataInv cfg s' := by
  obtain ⟨hpull, hknown⟩ := hstep.inv.holds_run hj rfl
  have hshaped : cfg.mount.Shaped cfg.client.dest s.disk pull :=
    h.placed.shaped pull hpull (hknown .created (.head _))
  have hearly : pull ∈ s.client.early := by
    refine List.mem_append_right _ (List.mem_append_right _ ?_)
    exact List.mem_filterMap.2 ⟨_, List.mem_of_getElem? hj, rfl⟩
  have htype := hstep.type_ne_symlink hpull hj rfl
  rcases cfg.mount.streamAttributes_cases now s.disk s.attributes calls pull with
    hsame | ⟨i, content, hopen, hupdate⟩
  · refine h.advance hstep hs (Mount.stream_grows hdisk) (fun path => (hdeeds path).1) ?_ ?_
    · intro q _ _ _ k _
      rw [hattributes, hsame]
    · intro q hq hdeed
      rw [hattributes, hsame]
      exact h.settled q hq ((hdeeds q.path).2 hdeed)
  · obtain ⟨hfile, hentry, -⟩ := Mount.openFile_eq hshaped htype hopen
    refine h.advance hstep hs (Mount.stream_grows hdisk) (fun path => (hdeeds path).1) ?_ ?_
    · intro q _ _ _ k _
      rw [hattributes, hupdate]
      by_cases hk : k = i
      · rw [hk, Function.update_self]
      · rw [Function.update_of_ne hk]
    · intro q hq hdeed
      have hdeed := (hdeeds q.path).2 hdeed
      obtain ⟨hqdeed, hmetadata⟩ := h.settled q hq hdeed
      refine ⟨hqdeed, fun hkind k hk => ?_⟩
      have hki : k ≠ i := by
        rintro rfl
        have hne : q ≠ pull := by
          rintro rfl
          exact h.early q hearly hdeed
        exact h.placed.apart q hq pull hpull hne hqdeed (hknown .created (.head _)) hkind
          (.inl hfile) k hk hentry
      rw [hattributes, hupdate, Function.update_of_ne hki]
      exact hmetadata hkind k hk

/-- `SetMetadata` leaves the attributes of other objects alone, and sets those of its own. -/
theorem settle (h : MetadataInv cfg s) (hstep : DiskClient.Step cfg.client s.base s'.base)
    (hs : metadataStep cfg s ⟨event, now⟩ = some s') (hstamped : pull.Stamped)
    {calls : MetadataCalls}
    (hand : s.client.pc = .settling pull ∨
      ∃ j : Nat, s.client.pool.running[j]? = some (.settling pull))
    (hdisk : s'.disk = s.disk)
    (hattributes : cfg.mount.setMetadata now s.disk s.attributes calls pull = some s'.attributes)
    (hdeeds : s'.client.deeds = s.client.deeds ∨ Netpull.setMetadata calls pull = true ∧
      s'.client.deeds = (.settled, pull.path) :: s.client.deeds) : MetadataInv cfg s' := by
  obtain ⟨hpull, hdeed⟩ := created_of_settling hstep.inv hand
  have hshaped : cfg.mount.Shaped cfg.client.dest s.disk pull := h.placed.shaped pull hpull hdeed
  have hcreated : ∀ path, (.created, path) ∈ s'.client.deeds →
      (.created, path) ∈ s.client.deeds := by
    intro path hpath
    rcases hdeeds with hdeeds | ⟨-, hdeeds⟩
    · exact hdeeds ▸ hpath
    · rw [hdeeds] at hpath
      exact mem_of_ne_deed hpath Deed.noConfusion
  have hsettled : ∀ q ∈ objectsOf s.client.received, (.settled, q.path) ∈ s'.client.deeds →
      (.settled, q.path) ∈ s.client.deeds ∨
        q = pull ∧ Netpull.setMetadata calls pull = true := by
    intro q hq hqdeed
    rcases hdeeds with hdeeds | ⟨hcalls, hdeeds⟩
    · exact .inl (hdeeds ▸ hqdeed)
    · rw [hdeeds] at hqdeed
      rcases List.mem_cons.1 hqdeed with hnew | hqdeed
      · refine .inr ⟨?_, hcalls⟩
        exact hstep.eq_of_path (hstep.objects.subset hq) hpull (Prod.mk.inj hnew).2
      · exact .inl hqdeed
  have hgrows : s.disk.Grows s'.disk := hdisk ▸ .refl _
  rcases Mount.setMetadata_cases hshaped hstamped hattributes with
    ⟨hcalls, hsame⟩ | ⟨i, hentry, hupdate⟩
  · refine h.advance hstep hs hgrows hcreated ?_ ?_
    · intro q _ _ _ k _
      rw [hsame]
    · intro q hq hqdeed
      rcases hsettled q hq hqdeed with hqdeed | ⟨-, hsets⟩
      · rw [hsame]
        exact h.settled q hq hqdeed
      · have hutimensat := (setMetadata_eq_true hsets).1
        rw [hcalls] at hutimensat
        cases hutimensat
  · -- Another file or directory has another inode.
    have hother : ∀ q ∈ objectsOf s.client.received, (.created, q.path) ∈ s.client.deeds →
        q.type.NonLink → q ≠ pull → cfg.mount.entry s.disk q ≠ .inode i := by
      intro q hq hqdeed hkind hne hq'
      by_cases hkind' : pull.type.NonLink
      · exact h.placed.apart q hq pull hpull hne hqdeed hdeed hkind hkind' i hq' hentry
      · exact Mount.entry_ne_of_link hshaped hkind' (h.placed.shaped q hq hqdeed) hkind hentry hq'
    refine h.advance hstep hs hgrows hcreated ?_ ?_
    · intro q hq hqdeed htype k hk
      rw [hupdate]
      by_cases hki : k = i
      · subst hki
        rw [Function.update_self, if_neg]
        rintro ⟨hfile, -⟩
        have hne : q ≠ pull := by
          rintro rfl
          rw [htype] at hfile
          cases hfile
        exact hother q hq hqdeed (.inr htype) hne hk
      · rw [Function.update_of_ne hki]
    · intro q hq hqdeed
      by_cases hne : q = pull
      · subst hne
        refine ⟨hdeed, fun hkind k hk => ?_⟩
        obtain rfl := Lookup.inode.inj (hentry.symm.trans hk)
        rw [hupdate, Function.update_self]
        refine ⟨rfl, fun hfile => ?_⟩
        rcases hsettled q hq hqdeed with hqdeed | ⟨-, hsets⟩
        · split
          · rfl
          · exact ((h.settled q hq hqdeed).2 hkind i hentry).2 hfile
        · rw [if_pos ⟨hfile, (setMetadata_eq_true hsets).2 hfile⟩]
      · obtain hqdeed := (hsettled q hq hqdeed).resolve_right fun e => hne e.1
        obtain ⟨hqcreated, hmetadata⟩ := h.settled q hq hqdeed
        refine ⟨hqcreated, fun hkind k hk => ?_⟩
        have hki : k ≠ i := by
          rintro rfl
          exact hother q hq hqcreated hkind hne hk
        rw [hupdate, Function.update_of_ne hki]
        exact hmetadata hkind k hk

/-- An object is created where nothing is disturbed. -/
theorem create (h : MetadataInv cfg s) (hstep : DiskClient.Step cfg.client s.base s'.base)
    (hs : metadataStep cfg s ⟨event, now⟩ = some s') (hpc : s.client.pc = .creating pull)
    {call : CreateCall} (hcall : createCall cfg.client.dest pull = .ok call)
    (hdisk : cfg.mount.create s.disk call = some s'.disk)
    (hattributes : s'.attributes =
      cfg.mount.createAttributes cfg.umask now s.disk s.attributes call)
    (hundisturbed : Undisturbed cfg s now pull)
    (hdeeds : s'.client.deeds = (.created, pull.path) :: s.client.deeds) :
    MetadataInv cfg s' := by
  obtain ⟨hcreated, hhow⟩ := Mount.create_eq hundisturbed.unspoilt hcall hdisk
  obtain ⟨hstays, hnew⟩ :=
    Mount.createAttributes_eq hundisturbed.unspoilt hcall cfg.umask now s.attributes
  have hpull := (hstep.inv.holds_main (by rw [hpc]; rfl : s.client.pc.known = some (pull, []))).1
  have hunsettled : (.settled, pull.path) ∉ s.client.deeds :=
    h.early pull (List.mem_append_left _ (by rw [hpc]; exact List.mem_singleton_self _))
  have hcases : (∃ i, cfg.mount.entry s.disk pull = .inode i ∧ s'.disk = s.disk) ∨
      ∃ dir n node, cfg.mount.entry s.disk pull = .missing dir n ∧
        s'.disk = s.disk.create dir n node := by
    rcases hhow with hsame | hmissing
    · obtain ⟨i, node, hentry, -⟩ := hcreated.shaped
      exact .inl ⟨i, hsame ▸ hentry, hsame⟩
    · exact .inr hmissing
  -- What was created before keeps its permissions, and what is settled its time.
  have hold : ∀ q ∈ objectsOf s.client.received, (.created, q.path) ∈ s.client.deeds →
      ∀ i, cfg.mount.entry s.disk q = .inode i →
        (s'.attributes i).perms = (s.attributes i).perms ∧
          ((.settled, q.path) ∈ s.client.deeds → (s.attributes i).mtime = q.attributes.mtime →
            (s'.attributes i).mtime = q.attributes.mtime) := by
    intro q hq hqdeed i hi
    rw [hattributes]
    rcases hcases with ⟨k, hentry, -⟩ | ⟨dir, n, node, hentry, -⟩
    · rw [hstays k hentry]
      exact ⟨rfl, fun _ hmtime => hmtime⟩
    · obtain ⟨perms, hentries, -⟩ := hnew dir n hentry
      have hlt := Mount.lookup_lt hi
      rw [hentries]
      refine ⟨Mount.newEntry_perms hlt perms, fun hqsettled hmtime => ?_⟩
      rw [Mount.newEntry_mtime hlt ?_ perms, hmtime]
      rintro rfl
      rw [hmtime]
      refine hundisturbed.parent i (by rw [hentry]; rfl) q ?_ hi
      exact List.mem_filter.2
        ⟨List.mem_filter.2 ⟨hq, decide_eq_true hqdeed⟩, decide_eq_true hqsettled⟩
  refine ⟨h.placed.create hstep hpc hcreated hhow ?_ hdeeds,
    fun p hp => h.early_step hstep hs hp, ?_, ?_⟩
  · intro hkind i hi
    exact hundisturbed.alone hkind i (Lookup.mem_inode?.2 hi)
  · intro p hp hdeed htype i hi
    rw [hdeeds] at hdeed
    rcases List.mem_cons.1 hdeed with hself | hdeed
    · obtain rfl := hstep.eq_of_path hp hpull (Prod.mk.inj hself).2
      rw [hattributes]
      rcases hcases with ⟨k, hentry, hsame⟩ | ⟨dir, n, node, hentry, hcreate⟩
      · rw [hsame] at hi
        rw [hstays k hentry]
        exact hundisturbed.existing htype i (Lookup.mem_inode?.2 hi)
      · obtain ⟨perms, hentries, hperms⟩ := hnew dir n hentry
        rw [hcreate] at hi
        obtain rfl := Lookup.inode.inj ((Mount.lookup_create node hentry).symm.trans hi)
        rw [hentries, Mount.newEntry_new, hperms htype]
        exact and_not_of_disjoint (hundisturbed.unmasked htype (by rw [hentry]; rfl))
    · have hp := hstep.mem_of_deed hp hdeed
      have hshaped : cfg.mount.Shaped cfg.client.dest s.disk p := h.placed.shaped p hp hdeed
      rw [hshaped.entry hcreated.grows] at hi
      rw [(hold p hp hdeed i hi).1]
      exact h.perms p hp hdeed htype i hi
  · intro p hp hdeed
    rw [hdeeds] at hdeed
    have hdeed := mem_of_ne_deed hdeed Deed.noConfusion
    have hp := hstep.mem_of_deed hp hdeed
    obtain ⟨hpcreated, hmetadata⟩ := h.settled p hp hdeed
    have hshaped : cfg.mount.Shaped cfg.client.dest s.disk p := h.placed.shaped p hp hpcreated
    refine ⟨hdeeds ▸ .tail _ hpcreated, fun hkind i hi => ?_⟩
    rw [hshaped.entry hcreated.grows] at hi
    obtain ⟨hmtime, hperms⟩ := hmetadata hkind i hi
    obtain ⟨hsame, htime⟩ := hold p hp hpcreated i hi
    refine ⟨htime hdeed hmtime, fun hfile => ?_⟩
    rw [hsame]
    exact hperms hfile

/-- **Every careful event keeps the metadata that was set.** -/
theorem step (h : MetadataInv cfg s) (hstep : DiskClient.Step cfg.client s.base s'.base)
    (hstamped : ∀ pull ∈ objectsOf s.client.received, pull.Stamped) {e : TimedEvent}
    (hcareful : Careful cfg s e) (hs : metadataStep cfg s e = some s') : MetadataInv cfg s' := by
  obtain ⟨event, now⟩ := e
  cases metadataStep_moves hs with
  | creates pull call pc call_eq succeeds disk attributes deeds =>
    have hundisturbed := hcareful pull (DiskClient.created_main pc call_eq succeeds)
    exact h.create hstep hs pc call_eq disk attributes hundisturbed deeds
  | streams j pull calls running disk attributes deeds =>
    exact h.stream hstep hs running disk attributes deeds
  | settles pull calls hand disk attributes deeds =>
    have hpull := (created_of_settling hstep.inv hand).1
    exact h.settle hstep hs (hstamped pull hpull) hand disk attributes deeds
  | stays disk attributes deeds =>
    refine h.advance hstep hs (disk ▸ .refl _) (fun path => (deeds path).1) ?_ ?_
    · intro q _ _ _ i _
      rw [attributes]
    · intro q hq hdeed
      rw [attributes]
      exact h.settled q hq ((deeds q.path).2 hdeed)

theorem hasMetadata (h : MetadataInv cfg s) (hpull : pull ∈ objectsOf s.client.received)
    (hkind : pull.type.NonLink) (hdeed : (.settled, pull.path) ∈ s.client.deeds) :
    HasMetadata cfg s pull := by
  obtain ⟨hcreated, hmetadata⟩ := h.settled pull hpull hdeed
  obtain ⟨i, node, hentry, hnode, hmatches⟩ := h.placed.shaped pull hpull hcreated
  obtain ⟨hmtime, hfile⟩ := hmetadata hkind i hentry
  refine ⟨i, node, hentry, hnode, hmatches, ?_⟩
  have hperms : (s.attributes i).perms = pull.attributes.perms := by
    rcases hkind with htype | htype
    · exact hfile htype
    · exact h.perms pull hpull hcreated htype i hentry
  exact Attributes.ext hperms hmtime

theorem run {events : List TimedEvent}
    (hrun : Transition.script (metadataStep cfg) (.start cfg disk attributes) events = some s)
    (hcareful : Transition.Along (metadataStep cfg) (fun _ _ => ())
      (fun s _ e => Careful cfg s e) (.start cfg disk attributes) () events)
    (hannounced : DiskClient.WellAnnounced s.client.received)
    (hstamped : ∀ pull ∈ objectsOf s.client.received, pull.Stamped) :
    ClientInv cfg.client s.client ∧ MetadataInv cfg s := by
  have hstep : ∀ (s : MetadataClient) (_ : Unit) (e : TimedEvent) (s' : MetadataClient),
      (DiskClient.WellAnnounced s.client.received →
        (∀ pull ∈ objectsOf s.client.received, pull.Stamped) →
        ClientInv cfg.client s.client ∧ MetadataInv cfg s ∧
          (s.client.pc = .dead ∨ s.client.Exact cfg.client)) →
      Careful cfg s e → metadataStep cfg s e = some s' →
      DiskClient.WellAnnounced s'.client.received →
        (∀ pull ∈ objectsOf s'.client.received, pull.Stamped) →
        ClientInv cfg.client s'.client ∧ MetadataInv cfg s' ∧
          (s'.client.pc = .dead ∨ s'.client.Exact cfg.client) := by
    intro s _ e s' hinv hcareful hs hannounced hstamped
    have hbase := (metadataStep_base hs).2
    have hreport := DiskClient.diskStep_run hbase
    have hreceived := ReportingClient.reportStep_received hreport
    have hobjects : objectsOf s.client.received <+: objectsOf s'.client.received :=
      hreceived.filterMap _
    have hbefore : ∀ pull ∈ objectsOf s.client.received, pull.Stamped :=
      fun pull hpull => hstamped pull (hobjects.subset hpull)
    obtain ⟨hclient, hmetadata, hlive⟩ := hinv (hannounced.of_prefix hreceived) hbefore
    have hexact := hlive.resolve_left (DiskClient.diskStep_live hbase)
    have hstep : DiskClient.Step cfg.client s.base s'.base :=
      ⟨hclient, hexact, hobjects, hannounced⟩
    refine ⟨?_, hmetadata.step hstep hbefore hcareful hs, ?_⟩
    · rcases ReportingClient.reportStep_client hreport with ⟨hsame, -⟩ | ⟨event, -, hevent⟩
      · rw [client, DiskClient.client, hsame]
        exact hclient
      · exact hclient.step hstep.announced_before hevent
    · rcases ReportingClient.reportStep_client hreport with ⟨hsame, -⟩ | ⟨event, -, hevent⟩
      · rw [client, DiskClient.client, hsame]
        exact .inr hexact
      · exact hexact.step hevent
  have hall := Transition.along_invariant hstep
    (fun _ _ => ⟨.start, .start cfg disk attributes, .inr (.start cfg.client)⟩) hcareful hrun
    hannounced hstamped
  exact ⟨hall.1, hall.2.1⟩

end MetadataInv

/-- **Metadata survives**: every file and every directory that was pulled and is listed no more has
the permissions and the time that were announced. -/
def MetadataSurvives (cfg : MetadataConfig) (s : MetadataClient) : Prop :=
  s.client.pc ≠ .dead → ∀ pull ∈ objectsOf s.client.received, pull.type.NonLink →
    pull.path ∉ s.client.toComplete → s.client.pc ≠ .inserting pull → HasMetadata cfg s pull

end MetadataClient

open MetadataClient Transition in
/-- **Metadata survives in every run of careful steps**, whatever the umask and whatever was in the
destination before; at the end of a run that leaves nothing to complete, everything that was received
has its metadata. -/
theorem metadata_survives (cfg : MetadataConfig) (disk : ClientDisk)
    (attributes : Nat → Attributes) (events : List TimedEvent) (s : MetadataClient)
    (hrun : script (metadataStep cfg) (.start cfg disk attributes) events = some s)
    (hcareful : Along (metadataStep cfg) (fun _ _ => ()) (fun s _ e => Careful cfg s e)
      (.start cfg disk attributes) () events)
    (hannounced : DiskClient.WellAnnounced s.client.received)
    (hstamped : ∀ pull ∈ objectsOf s.client.received, pull.Stamped) :
    MetadataSurvives cfg s ∧ (s.client.pc = .reported ∅ →
      ∀ pull ∈ objectsOf s.client.received, pull.type.NonLink → HasMetadata cfg s pull) := by
  obtain ⟨hclient, hmetadata⟩ := MetadataInv.run hrun hcareful hannounced hstamped
  have hsurvives : MetadataSurvives cfg s := by
    intro hlive pull hpull hkind herased hinserting
    rcases hclient.listed hlive pull hpull with hlisted | hpc | hsettled
    · exact absurd hlisted herased
    · exact absurd hpc hinserting
    · exact hmetadata.hasMetadata hpull hkind (hsettled .settled (settled_mem_deedsFor pull))
  refine ⟨hsurvives, fun hpc pull hpull hkind => ?_⟩
  refine hsurvives ?_ pull hpull hkind ?_ ?_
  · rw [hpc]
    exact ClientPc.noConfusion
  · have hempty := hclient.reported ∅ hpc
    intro hlisted
    have hmem : pull.path ∈ s.client.toComplete.pull := hlisted
    rw [← hempty] at hmem
    exact absurd hmem (Finset.notMem_empty _)
  · rw [hpc]
    exact ClientPc.noConfusion

/-! ## What is announced -/

/-- The nanoseconds of a time that a file can have go through the message unchanged. -/
theorem toInt64_toInt32_of_nanos {n : Int64} (h : 0 ≤ n ∧ n < 1000000000) :
    n.toInt32.toInt64 = n := by
  rw [Int64.le_iff_toInt_le, Int64.lt_iff_toInt_lt] at h
  have hzero : (0 : Int64).toInt = 0 := rfl
  have hlimit : (1000000000 : Int64).toInt = 1000000000 := rfl
  rw [hzero, hlimit] at h
  rw [← Int64.toInt_inj, Int32.toInt_toInt64, Int64.toInt_toInt32]
  exact Int.bmod_eq_of_le (by omega) (by omega)

/-- **What is announced** of a file or a directory are the permission bits and the modification time
that `stat` has found. -/
theorem attributes_pullObject {users : Users} {number : Int32} {relativePath : Bytes}
    {object : FsObject} {pull : PullObject}
    (h : pullObject users number relativePath object = .ok pull) (htype : object.type ≠ .symlink)
    (hnsec : 0 ≤ object.stat.stMtim.tvNsec ∧ object.stat.stMtim.tvNsec < 1000000000) :
    pull.Stamped ∧
      pull.attributes = ⟨object.stat.stMode.toBitVec.setWidth 9, object.stat.stMtim⟩ := by
  have hnanos := toInt64_toInt32_of_nanos hnsec
  rw [pullObject, objectData, if_neg htype, ok_bind] at h
  obtain rfl := Except.ok.inj h
  refine ⟨?_, ?_⟩
  · show 0 ≤ object.stat.stMtim.tvNsec.toInt32.toInt64 ∧
      object.stat.stMtim.tvNsec.toInt32.toInt64 < 1000000000
    rwa [hnanos]
  · apply Attributes.ext
    · show ((object.stat.stMode &&& accessPerms).toInt32.toBitVec).setWidth 9 = _
      rw [UInt32.toBitVec_toInt32, UInt32.toBitVec_and, BitVec.setWidth_and]
      exact BitVec.and_allOnes
    · show (⟨object.stat.stMtim.tvSec, object.stat.stMtim.tvNsec.toInt32.toInt64⟩ : Timespec) = _
      rw [hnanos]
/-! ## Runs -/

/-- A client with the usual umask, for which all calls succeed. -/
def umaskedClient : MetadataConfig := ⟨abcClient, abcMount, 0o022⟩

/-- A directory with the given permissions. -/
def pulledDirectory (perms : Int32) : PullObject :=
  { abcDirectory with times := ⟨⟨5, 0⟩, ⟨7, 0⟩⟩, data := .nonlink ⟨perms⟩ }

def pulledFile (path : Bytes) : PullObject :=
  { abcFile with path, times := ⟨⟨5, 0⟩, ⟨8, 0⟩⟩, data := .nonlink ⟨0o600⟩ }

/-- A directory and a file come in, and a worker streams the file, checks it and erases its path. -/
def pullBoth (directory file : PullObject) : List ClientEvent :=
  [.receive (some (.started (text "1"))), .receive (some (.object directory)), .main, .main, .main,
    .main, .receive (some (.object file)), .main, .main, .main, .main, .pop 0, .run 0, .run 0,
    .run 0, .run 0, .pop 0, .run 0, .run 0, .run 0]

/-- The worker cannot report the file, and the run comes to its end. -/
def pullEnds : List ReportEvent :=
  [.connect 0 false, .client (.run 0), .client (.receive (some (.finished 2))), .client .main]

def pulling (directory file : PullObject) : List TimedEvent :=
  ((pullBoth directory file).map ReportEvent.client ++ pullEnds).map (⟨·, ⟨100, 0⟩⟩)

def emptyDestination : MetadataClient :=
  .start umaskedClient ⟨[.dir 0 [(text "dest", 1)], .dir 0 []]⟩ fun _ => ⟨0o755, ⟨0, 0⟩⟩

open MetadataClient Transition in
/-- A file beside the directory. -/
theorem metadata_survives_beside :
    ∃ s, script (metadataStep umaskedClient) emptyDestination
        (pulling (pulledDirectory 0o755) (pulledFile (text "f"))) = some s ∧
      s.client.pc = .reported ∅ ∧
      HasMetadata umaskedClient s (pulledDirectory 0o755) ∧
      HasMetadata umaskedClient s (pulledFile (text "f")) := by
  have hends : (script (metadataStep umaskedClient) emptyDestination
      (pulling (pulledDirectory 0o755) (pulledFile (text "f")))).map
        (fun s => (objectsOf s.client.received, s.client.pc)) =
      some ([pulledDirectory 0o755, pulledFile (text "f")], .reported ∅) := rfl
  obtain ⟨s, hrun, hs⟩ := Option.map_eq_some_iff.1 hends
  obtain ⟨hobjects, hpc⟩ := Prod.mk.inj hs
  have hall := (metadata_survives umaskedClient _ _
    (pulling (pulledDirectory 0o755) (pulledFile (text "f"))) s hrun (by decide)
    ⟨by rw [hobjects]; decide, by rw [hobjects]; decide, by rw [hobjects]; decide⟩
    (by rw [hobjects]; decide)).2 hpc
  rw [hobjects] at hall
  exact ⟨s, hrun, hpc, hall _ (.head _) (.inr rfl), hall _ (.tail _ (.head _)) (.inl rfl)⟩

open MetadataClient Transition in
/-- A file in the directory, which loses its time to the file and its permissions to the umask. -/
theorem directory_metadata_lost :
    ∃ s, script (metadataStep umaskedClient) emptyDestination
        (pulling (pulledDirectory 0o775) (pulledFile (text "d/f"))) = some s ∧
      s.client.pc = .reported ∅ ∧ pulledDirectory 0o775 ∈ objectsOf s.client.received ∧
      s.attributes 2 = ⟨0o755, ⟨100, 0⟩⟩ ∧
      ¬ HasMetadata umaskedClient s (pulledDirectory 0o775) := by
  refine ⟨_, rfl, rfl, .head _, rfl, ?_⟩
  rintro ⟨i, node, hentry, -, -, hattributes⟩
  obtain rfl : 2 = i := Lookup.inode.inj hentry
  have hmtime := congrArg (fun a => a.mtime.tvSec) hattributes
  exact absurd hmtime (by decide)

end Netpull
