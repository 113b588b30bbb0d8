import Netpull.Client.Destination
import Netpull.Client.Stages

/-!
# Completion

What the destination holds at a path that the client has erased. `Moves` says what an event does on
the disk and to the deeds; `DiskInv` says what the deeds are worth on the disk. Every event keeps it
that is `Clean`: what was there before is taken for the object without a look at it, so it must not
be anything else.
-/

namespace Netpull

open Inodes PullObject

/-! ## What an event does on the disk -/

/-- No object was created, and no digest found to be right. -/
def OtherDeeds (deeds deeds' : List (Deed × Bytes)) : Prop :=
  ∃ new, deeds' = new ++ deeds ∧ ∀ x ∈ new, x.1 ≠ .created ∧ x.1 ≠ .verified

namespace OtherDeeds

variable {deeds deeds' : List (Deed × Bytes)} {path : Bytes}

theorem refl (deeds : List (Deed × Bytes)) : OtherDeeds deeds deeds :=
  ⟨[], rfl, fun _ hx => absurd hx List.not_mem_nil⟩

theorem cons (deeds : List (Deed × Bytes)) {deed : Deed} (hcreated : deed ≠ .created)
    (hverified : deed ≠ .verified) (path : Bytes) : OtherDeeds deeds ((deed, path) :: deeds) := by
  refine ⟨[(deed, path)], rfl, fun x hx => ?_⟩
  obtain rfl := List.mem_singleton.1 hx
  exact ⟨hcreated, hverified⟩

theorem created (h : OtherDeeds deeds deeds') (hdeed : (.created, path) ∈ deeds') :
    (.created, path) ∈ deeds := by
  obtain ⟨new, rfl, hnew⟩ := h
  exact (List.mem_append.1 hdeed).resolve_left fun hmem => (hnew _ hmem).1 rfl

theorem verified (h : OtherDeeds deeds deeds') (hdeed : (.verified, path) ∈ deeds') :
    (.verified, path) ∈ deeds := by
  obtain ⟨new, rfl, hnew⟩ := h
  exact (List.mem_append.1 hdeed).resolve_left fun hmem => (hnew _ hmem).2 rfl

end OtherDeeds

namespace DiskClient

variable {cfg : ClientConfig} {m : Mount} {s s' : DiskClient} {event : ReportEvent}

/-- An object is created, a file streamed or verified, or the disk stays as it is. -/
inductive Moves (cfg : ClientConfig) (m : Mount) (s s' : DiskClient) : ReportEvent → Prop
  | creates (pull : PullObject) (call : CreateCall) (pc : s.client.pc = .creating pull)
      (call_eq : createCall cfg.dest pull = .ok call)
      (succeeds : (cfg.calls pull.path).creates = true)
      (disk : m.create s.disk call = some s'.disk)
      (deeds : s'.client.deeds = (.created, pull.path) :: s.client.deeds) :
      Moves cfg m s s' (.client .main)
  | streams (j : Nat) (pull : PullObject)
      (running : s.client.pool.running[j]? = some (.streaming pull))
      (disk : m.stream s.disk (cfg.calls pull.path).stream pull = some s'.disk)
      (deeds : OtherDeeds s.client.deeds s'.client.deeds) : Moves cfg m s s' (.client (.run j))
  | verifies (j : Nat) (pull : PullObject)
      (running : s.client.pool.running[j]? = some (.checking pull)) (disk : s'.disk = s.disk)
      (reads : m.reads s.disk (cfg.calls pull.path).integrity pull = true)
      (verdict : (cfg.calls pull.path).integrity.verdict
        (pull.transfer.getD ⟨[], 0, []⟩).sha256 = .verified)
      (deeds : s'.client.deeds =
        (.verified, pull.path) :: (.checked, pull.path) :: s.client.deeds) :
      Moves cfg m s s' (.client (.run j))
  | stays {event : ReportEvent} (disk : s'.disk = s.disk)
      (deeds : OtherDeeds s.client.deeds s'.client.deeds) : Moves cfg m s s' event

theorem moves_main (hdisk : diskAfter cfg m s.client s.disk (.client .main) = some s'.disk)
    (hs : clientMainStep cfg s.client = some s'.client) : Moves cfg m s s' (.client .main) := by
  unfold diskAfter at hdisk
  generalize hc : s'.client = c' at hs
  cases clientMainStep_cases hs with
  | createsFile pull call hpc hcall hcreates | createsEntry pull call hpc hcall hcreates =>
    simp only [hpc, hcall, hcreates, if_true] at hdisk
    exact .creates pull call hpc hcall hcreates hdisk (congrArg ClientState.deeds hc)
  | asserts pull fault hpc hcall =>
    simp only [hpc, hcall] at hdisk
    refine .stays (Option.some.inj hdisk).symm ?_
    rw [hc]
    exact .refl _
  | notCreated pull call hpc hcall hcreates =>
    simp only [hpc, hcall, hcreates, Bool.false_eq_true, if_false] at hdisk
    refine .stays (Option.some.inj hdisk).symm ?_
    rw [hc]
    exact .refl _
  | settles pull hpc =>
    simp only [hpc] at hdisk
    refine .stays (Option.some.inj hdisk).symm ?_
    rw [hc]
    exact .cons _ Deed.noConfusion Deed.noConfusion _
  | inserts pull hpc | prepares pull hpc | submits pull hpc | notSettled pull hpc
  | erases pull hpc | reports hpc =>
    simp only [hpc] at hdisk
    refine .stays (Option.some.inj hdisk).symm ?_
    rw [hc]
    exact .refl _

theorem moves_run {j : Nat} {r : ClientRun}
    (hdisk : diskAfter cfg m s.client s.disk (.client (.run j)) = some s'.disk)
    (hj : s.client.pool.running[j]? = some r) (hs : clientRunStep cfg s.client j r = s'.client) :
    Moves cfg m s s' (.client (.run j)) := by
  unfold diskAfter at hdisk
  simp only [hj] at hdisk
  cases r with
  | streaming pull =>
    refine .streams j pull hj hdisk ?_
    rw [← hs, clientRunStep]
    split
    · exact .cons _ Deed.noConfusion Deed.noConfusion _
    · exact .refl _
  | checking pull =>
    simp only at hdisk
    split at hdisk
    · next hreads =>
      have hsame : s'.disk = s.disk := (Option.some.inj hdisk).symm
      rw [clientRunStep] at hs
      split at hs
      · refine .stays hsame ?_
        rw [← hs]
        exact .refl _
      · refine .stays hsame ?_
        rw [← hs]
        exact .cons _ Deed.noConfusion Deed.noConfusion _
      · next hverdict =>
        refine .verifies j pull hj hsame hreads hverdict ?_
        rw [← hs]
    · cases hdisk
  | settling pull =>
    refine .stays (Option.some.inj hdisk).symm ?_
    rw [← hs, clientRunStep]
    split
    · exact .cons _ Deed.noConfusion Deed.noConfusion _
    · exact .refl _
  | preparing pull | submitting pull | erasing pull | returned =>
    refine .stays (Option.some.inj hdisk).symm ?_
    rw [← hs]
    exact .refl _

theorem diskStep_parts (hs : diskStep cfg m s event = some s') :
    diskAfter cfg m s.client s.disk event = some s'.disk ∧
      ReportingClient.reportStep cfg s.run event = some s'.run := by
  obtain ⟨disk, hdisk, hrest⟩ := Option.bind_eq_some_iff.1 hs
  obtain ⟨run, hrun, rfl⟩ := Option.map_eq_some_iff.1 hrest
  exact ⟨hdisk, hrun⟩

/-- **What an event does to the disk and the deeds.** -/
theorem diskStep_moves (hs : diskStep cfg m s event = some s') : Moves cfg m s s' event := by
  obtain ⟨hdisk, hrun⟩ := diskStep_parts hs
  rcases ReportingClient.reportStep_client hrun with ⟨hsame, hevent⟩ | ⟨e, rfl, hstep⟩
  · have hdisk' : s.disk = s'.disk := by
      cases event with
      | client e =>
        obtain rfl := hevent e rfl
        exact Option.some.inj hdisk
      | connect j connects => exact Option.some.inj hdisk
      | send j => exact Option.some.inj hdisk
    refine .stays hdisk'.symm ?_
    rw [client, client, hsame]
    exact .refl _
  · generalize hc : s'.run.client = c' at hstep
    cases clientStep_cases hstep with
    | receives resp =>
      refine .stays (Option.some.inj hdisk).symm ?_
      rw [client, client, hc, (ClientState.handleResponse_keeps _ resp).2]
      exact .refl _
    | loses | pops | overruns =>
      refine .stays (Option.some.inj hdisk).symm ?_
      rw [client, client, hc]
      exact .refl _
    | main hmain => exact moves_main hdisk (hmain.trans (congrArg some hc.symm))
    | runs j r hj => exact moves_run hdisk hj hc.symm

variable {sha256 : Bytes → Bytes} {path : Bytes} {pull : PullObject}

theorem Moves.deeds_subset (h : Moves cfg m s s' event) : s.client.deeds ⊆ s'.client.deeds := by
  cases h with
  | creates q call pc call_eq succeeds disk deeds =>
    rw [deeds]
    exact List.subset_cons_self _ _
  | verifies j q running disk reads verdict deeds =>
    rw [deeds]
    exact fun x hx => List.mem_cons_of_mem _ (List.mem_cons_of_mem _ hx)
  | streams j q running disk deeds | stays disk deeds =>
    obtain ⟨new, hnew, -⟩ := deeds
    rw [hnew]
    exact List.subset_append_right _ _

theorem Moves.verified (h : Moves cfg m s s' event) (hdeed : (.verified, path) ∈ s'.client.deeds) :
    (.verified, path) ∈ s.client.deeds ∨ ∃ (j : Nat) (pull : PullObject),
      s.client.pool.running[j]? = some (.checking pull) ∧ pull.path = path := by
  cases h with
  | creates q call pc call_eq succeeds disk deeds =>
    rw [deeds] at hdeed
    exact .inl (mem_of_ne_deed hdeed Deed.noConfusion)
  | verifies j q running disk reads verdict deeds =>
    rw [deeds] at hdeed
    rcases List.mem_cons.1 hdeed with hnew | hdeed
    · exact .inr ⟨j, q, running, (Prod.mk.inj hnew).2.symm⟩
    · exact .inl (mem_of_ne_deed hdeed Deed.noConfusion)
  | streams j q running disk deeds | stays disk deeds => exact .inl (deeds.verified hdeed)

theorem diskStep_run (hs : diskStep cfg m s event = some s') :
    ReportingClient.reportStep cfg s.run event = some s'.run :=
  (diskStep_parts hs).2

theorem diskStep_live (hs : diskStep cfg m s event = some s') : s.client.pc ≠ .dead := by
  have hrun := diskStep_run hs
  unfold ReportingClient.reportStep at hrun
  split at hrun
  · cases hrun
  · next hover =>
    intro hdead
    rw [hdead] at hover
    exact hover rfl

theorem early_diskStep (hs : diskStep cfg m s event = some s') (h : pull ∈ s'.client.early) :
    pull ∈ s.client.early ∨
      objectsOf s'.client.received = objectsOf s.client.received ++ [pull] := by
  rcases ReportingClient.reportStep_client (diskStep_run hs) with ⟨hsame, -⟩ | ⟨e, -, hstep⟩
  · rw [client, hsame] at h
    exact .inl h
  · exact ClientState.early_step hstep h

/-! ## The invariant -/

/-- The objects have distinct paths; every file has a transfer, and no symlink has one. -/
structure WellAnnounced (received : List PullResponse) : Prop where
  distinct : ((objectsOf received).map (·.path)).Nodup
  files : ∀ pull ∈ objectsOf received, pull.type = .kTypeFile → pull.transfer.isSome
  symlinks : ∀ pull ∈ objectsOf received, pull.type = .kTypeSymlink → pull.transfer = none

theorem WellAnnounced.of_prefix {received received' : List PullResponse}
    (h : WellAnnounced received') (hreceived : received <+: received') : WellAnnounced received := by
  have hobjects : objectsOf received <+: objectsOf received' := hreceived.filterMap _
  exact ⟨h.distinct.sublist (hobjects.sublist.map _),
    fun pull hpull => h.files pull (hobjects.subset hpull),
    fun pull hpull => h.symlinks pull (hobjects.subset hpull)⟩

/-- The objects that were created. -/
def createdObjects (s : DiskClient) : List PullObject :=
  (objectsOf s.client.received).filter fun pull => (.created, pull.path) ∈ s.client.deeds

/-- The object that an event creates. -/
def created (cfg : ClientConfig) (s : DiskClient) : ReportEvent → Option PullObject
  | .client .main =>
    match s.client.pc with
    | .creating pull =>
      match createCall cfg.dest pull with
      | .ok _ => if (cfg.calls pull.path).creates then some pull else none
      | .error _ => none
    | _ => none
  | _ => none

/-- Where an object is created, nothing is spoilt. -/
def Clean (cfg : ClientConfig) (m : Mount) (s : DiskClient) (event : ReportEvent) : Prop :=
  ∀ pull ∈ created cfg s event, m.Unspoilt cfg.dest s.disk s.createdObjects pull

instance (cfg : ClientConfig) (m : Mount) (s : DiskClient) (event : ReportEvent) :
    Decidable (Clean cfg m s event) := inferInstanceAs (Decidable (∀ pull ∈ created cfg s event, _))

theorem created_main (hpc : s.client.pc = .creating pull) {call : CreateCall}
    (hcall : createCall cfg.dest pull = .ok call)
    (hcreates : (cfg.calls pull.path).creates = true) :
    created cfg s (.client .main) = some pull := by
  rw [created, hpc]
  simp only [hcall]
  rw [if_pos hcreates]

/-- The created objects lie at their paths, those of some kind apart from each other. -/
structure Placed (cfg : ClientConfig) (m : Mount) (kind : PullObject.Type → Prop)
    (s : DiskClient) : Prop where
  shaped : ∀ pull ∈ objectsOf s.client.received, (.created, pull.path) ∈ s.client.deeds →
    m.Shaped cfg.dest s.disk pull
  apart : ∀ p ∈ objectsOf s.client.received, ∀ q ∈ objectsOf s.client.received, p ≠ q →
    (.created, p.path) ∈ s.client.deeds → (.created, q.path) ∈ s.client.deeds →
    kind p.type → kind q.type →
    ∀ i, m.entry s.disk p = .inode i → m.entry s.disk q ≠ .inode i

/-- What the deeds are worth on the disk. -/
structure DiskInv (cfg : ClientConfig) (m : Mount) (sha256 : Bytes → Bytes) (s : DiskClient) :
    Prop where
  shaped : ∀ pull ∈ objectsOf s.client.received, (.created, pull.path) ∈ s.client.deeds →
    m.Shaped cfg.dest s.disk pull
  /-- Different files have different inodes. -/
  apart : ∀ p ∈ objectsOf s.client.received, ∀ q ∈ objectsOf s.client.received, p ≠ q →
    (.created, p.path) ∈ s.client.deeds → (.created, q.path) ∈ s.client.deeds →
    p.type = .kTypeFile → q.type = .kTypeFile →
    ∀ i, m.entry s.disk p = .inode i → m.entry s.disk q ≠ .inode i
  early : ∀ pull ∈ s.client.early, (.verified, pull.path) ∉ s.client.deeds
  verified : ∀ pull ∈ objectsOf s.client.received, (.verified, pull.path) ∈ s.client.deeds →
    (.created, pull.path) ∈ s.client.deeds ∧ m.HasDigest sha256 s.disk pull

theorem DiskInv.start (cfg : ClientConfig) (m : Mount) (sha256 : Bytes → Bytes)
    (disk : ClientDisk) : DiskInv cfg m sha256 ⟨.start cfg, disk⟩ where
  shaped _ hpull := by cases hpull
  apart _ hp := by cases hp
  early _ hpull := by cases hpull
  verified _ hpull := by cases hpull

/-- What holds of the client before and after an event. -/
structure Step (cfg : ClientConfig) (s s' : DiskClient) : Prop where
  inv : ClientInv cfg s.client
  exact : s.client.Exact cfg
  objects : objectsOf s.client.received <+: objectsOf s'.client.received
  announced : WellAnnounced s'.client.received

namespace Step

theorem announced_before (h : Step cfg s s') :
    ((objectsOf s.client.received).map (·.path)).Nodup :=
  h.announced.distinct.sublist (h.objects.sublist.map _)

theorem eq_of_path (h : Step cfg s s') {p q : PullObject}
    (hp : p ∈ objectsOf s'.client.received) (hq : q ∈ objectsOf s.client.received)
    (hpath : p.path = q.path) : p = q :=
  List.inj_on_of_nodup_map h.announced.distinct hp (h.objects.subset hq) hpath

/-- An object that comes in has a path of its own. -/
theorem path_ne (h : Step cfg s s')
    (hnew : objectsOf s'.client.received = objectsOf s.client.received ++ [pull]) {q : PullObject}
    (hq : q ∈ objectsOf s.client.received) : q.path ≠ pull.path := by
  have hdistinct := h.announced.distinct
  rw [hnew, List.map_append, List.map_singleton] at hdistinct
  intro hpath
  exact List.disjoint_of_nodup_append hdistinct (List.mem_map.2 ⟨q, hq, hpath⟩) (.head _)

/-- The workers get no symlinks. -/
theorem type_ne_symlink (h : Step cfg s s') {j : Nat} {r : ClientRun}
    (hpull : pull ∈ objectsOf s.client.received) (hj : s.client.pool.running[j]? = some r)
    (hr : r.object = some pull) : pull.type ≠ .kTypeSymlink := by
  intro hsymlink
  have hmem := ClientState.mem_handed s.client hj hr
  have htransfer := h.exact.files pull (List.mem_append_right _ hmem)
  rw [h.announced.symlinks pull (h.objects.subset hpull) hsymlink] at htransfer
  cases htransfer

/-- What was done, was done for an object that is there. -/
theorem mem_of_deed (h : Step cfg s s') (hpull : pull ∈ objectsOf s'.client.received) {deed : Deed}
    (hdeed : (deed, pull.path) ∈ s.client.deeds) : pull ∈ objectsOf s.client.received := by
  obtain ⟨q, hq, hpath, -⟩ := h.exact.done deed pull.path hdeed
  rwa [h.eq_of_path hpull hq hpath.symm]

end Step

/-- A file that is still to be streamed is not verified. -/
theorem DiskInv.early_step (h : DiskInv cfg m sha256 s) (hstep : Step cfg s s')
    (hs : diskStep cfg m s event = some s') (hpull : pull ∈ s'.client.early) :
    (.verified, pull.path) ∉ s'.client.deeds := by
  intro hdeed
  have hold : ∃ q ∈ objectsOf s.client.received, q.path = pull.path := by
    rcases (diskStep_moves hs).verified hdeed with hdeed | ⟨j, q, hj, hpath⟩
    · obtain ⟨q, hq, hpath, -⟩ := hstep.exact.done _ _ hdeed
      exact ⟨q, hq, hpath⟩
    · exact ⟨q, (hstep.inv.holds_run hj rfl).1, hpath⟩
  rcases early_diskStep hs hpull with hearly | hnew
  · rcases (diskStep_moves hs).verified hdeed with hdeed | ⟨j, q, hj, hpath⟩
    · exact h.early pull hearly hdeed
    · exact ClientState.path_ne_of_early hstep.exact hstep.announced_before hj rfl rfl hearly
        hpath.symm
  · obtain ⟨q, hq, hpath⟩ := hold
    exact hstep.path_ne hnew hq hpath

namespace Placed

variable {kind : PullObject.Type → Prop}

theorem start (cfg : ClientConfig) (m : Mount) (kind : PullObject.Type → Prop)
    (disk : ClientDisk) : Placed cfg m kind ⟨.start cfg, disk⟩ where
  shaped _ hpull := by cases hpull
  apart _ hp := by cases hp

/-- An event that creates nothing. -/
theorem advance (h : Placed cfg m kind s) (hstep : Step cfg s s')
    (hgrows : s.disk.Grows s'.disk)
    (hcreated : ∀ path, (.created, path) ∈ s'.client.deeds →
      (.created, path) ∈ s.client.deeds) : Placed cfg m kind s' where
  shaped pull hpull hdeed := by
    have hdeed := hcreated _ hdeed
    exact (h.shaped pull (hstep.mem_of_deed hpull hdeed) hdeed).grows hgrows
  apart p hp q hq hne hpdeed hqdeed hpkind hqkind := by
    have hpdeed := hcreated _ hpdeed
    have hqdeed := hcreated _ hqdeed
    have hp := hstep.mem_of_deed hp hpdeed
    have hq := hstep.mem_of_deed hq hqdeed
    rw [(h.shaped p hp hpdeed).entry hgrows, (h.shaped q hq hqdeed).entry hgrows]
    exact h.apart p hp q hq hne hpdeed hqdeed hpkind hqkind

/-- An object is created, or was there and was no other object of the kind. -/
theorem create (h : Placed cfg m kind s) (hstep : Step cfg s s')
    (hpc : s.client.pc = .creating pull)
    (hcreated : Mount.Created m cfg.dest s.disk s'.disk pull)
    (hhow : s'.disk = s.disk ∨ ∃ dir n node, m.entry s.disk pull = .missing dir n ∧
      s'.disk = s.disk.create dir n node)
    (halone : kind pull.type → ∀ i, m.entry s.disk pull = .inode i →
      ∀ q ∈ s.createdObjects, kind q.type → m.entry s.disk q ≠ .inode i)
    (hdeeds : s'.client.deeds = (.created, pull.path) :: s.client.deeds) :
    Placed cfg m kind s' := by
  have hpull := (hstep.inv.holds_main (by rw [hpc]; rfl : s.client.pc.known = some (pull, []))).1
  have hcases : ∀ p ∈ objectsOf s'.client.received, (.created, p.path) ∈ s'.client.deeds →
      p = pull ∨ p ∈ objectsOf s.client.received ∧ (.created, p.path) ∈ s.client.deeds := by
    intro p hp hdeed
    rw [hdeeds] at hdeed
    rcases List.mem_cons.1 hdeed with hnew | hdeed
    · exact .inl (hstep.eq_of_path hp hpull (Prod.mk.inj hnew).2)
    · exact .inr ⟨hstep.mem_of_deed hp hdeed, hdeed⟩
  -- The object shares its inode with none of the kind that was created before.
  have hfresh : kind pull.type → ∀ q ∈ objectsOf s.client.received,
      (.created, q.path) ∈ s.client.deeds → kind q.type →
      ∀ i, m.entry s'.disk pull = .inode i → m.entry s'.disk q ≠ .inode i := by
    intro hkind q hq hqdeed hqkind i hi
    rcases hhow with hsame | ⟨dir, n, node, hmissing, hnew⟩
    · rw [hsame] at hi ⊢
      exact halone hkind i hi q (List.mem_filter.2 ⟨hq, decide_eq_true hqdeed⟩) hqkind
    · rw [hnew] at hi ⊢
      exact Mount.entry_create_ne hmissing (h.shaped q hq hqdeed) hi
  refine ⟨?_, ?_⟩
  · intro p hp hdeed
    rcases hcases p hp hdeed with rfl | ⟨hp, hdeed⟩
    · exact hcreated.shaped
    · exact (h.shaped p hp hdeed).grows hcreated.grows
  · intro p hp q hq hne hpdeed hqdeed hpkind hqkind i hi
    rcases hcases p hp hpdeed with rfl | ⟨hp, hpdeed⟩
    · obtain ⟨hq, hqdeed⟩ := (hcases q hq hqdeed).resolve_left (Ne.symm hne)
      exact hfresh hpkind q hq hqdeed hqkind i hi
    · rcases hcases q hq hqdeed with rfl | ⟨hq, hqdeed⟩
      · exact fun hentry => hfresh hqkind p hp hpdeed hpkind i hentry hi
      · rw [(h.shaped p hp hpdeed).entry hcreated.grows] at hi
        rw [(h.shaped q hq hqdeed).entry hcreated.grows]
        exact h.apart p hp q hq hne hpdeed hqdeed hpkind hqkind i hi

end Placed

theorem DiskInv.placed (h : DiskInv cfg m sha256 s) : Placed cfg m (· = .kTypeFile) s :=
  ⟨h.shaped, h.apart⟩

/-- An event that creates nothing. -/
theorem DiskInv.advance (h : DiskInv cfg m sha256 s) (hstep : Step cfg s s')
    (hs : diskStep cfg m s event = some s') (hgrows : s.disk.Grows s'.disk)
    (hcreated : ∀ path, (.created, path) ∈ s'.client.deeds → (.created, path) ∈ s.client.deeds)
    (hverified : ∀ pull ∈ objectsOf s.client.received, (.verified, pull.path) ∈ s'.client.deeds →
      (.created, pull.path) ∈ s.client.deeds ∧ m.HasDigest sha256 s'.disk pull) :
    DiskInv cfg m sha256 s' where
  shaped := (h.placed.advance hstep hgrows hcreated).shaped
  apart := (h.placed.advance hstep hgrows hcreated).apart
  early pull hpull := h.early_step hstep hs hpull
  verified pull hpull hdeed := by
    have hpull' : pull ∈ objectsOf s.client.received := by
      rcases (diskStep_moves hs).verified hdeed with hdeed | ⟨j, q, hj, hpath⟩
      · exact hstep.mem_of_deed hpull hdeed
      · have hq := (hstep.inv.holds_run hj rfl).1
        rwa [hstep.eq_of_path hpull hq hpath.symm]
    obtain ⟨hdeed, hdigest⟩ := hverified pull hpull' hdeed
    exact ⟨(diskStep_moves hs).deeds_subset hdeed, hdigest⟩

/-- An object is created where nothing is spoilt. -/
theorem DiskInv.create (h : DiskInv cfg m sha256 s) (hstep : Step cfg s s')
    (hs : diskStep cfg m s event = some s') {call : CreateCall}
    (hpc : s.client.pc = .creating pull) (hcall : createCall cfg.dest pull = .ok call)
    (hdisk : m.create s.disk call = some s'.disk)
    (hunspoilt : m.Unspoilt cfg.dest s.disk s.createdObjects pull)
    (hdeeds : s'.client.deeds = (.created, pull.path) :: s.client.deeds) :
    DiskInv cfg m sha256 s' := by
  obtain ⟨hcreated, hhow⟩ := Mount.create_eq hunspoilt hcall hdisk
  have hplaced := h.placed.create hstep hpc hcreated hhow
    (fun htype i hi => (hunspoilt i (Lookup.mem_inode?.2 hi)).2 htype) hdeeds
  refine ⟨hplaced.shaped, hplaced.apart, fun p hp => h.early_step hstep hs hp, ?_⟩
  · intro p hp hdeed
    rw [hdeeds] at hdeed ⊢
    have hdeed := mem_of_ne_deed hdeed Deed.noConfusion
    obtain ⟨hdeed', hdigest⟩ := h.verified p (hstep.mem_of_deed hp hdeed) hdeed
    exact ⟨.tail _ hdeed', hdigest.grows hcreated.grows fun i content hfile _ =>
      hcreated.files i content hfile⟩

/-- **Every clean event keeps what the deeds are worth.** -/
theorem DiskInv.step (h : DiskInv cfg m sha256 s) (hstep : Step cfg s s')
    (hsha : ∀ path bytes digest,
      (cfg.calls path).integrity.sha256Final bytes = some digest → digest = sha256 bytes)
    (hclean : Clean cfg m s event) (hs : diskStep cfg m s event = some s') :
    DiskInv cfg m sha256 s' := by
  cases diskStep_moves hs with
  | creates pull call pc call_eq succeeds disk deeds =>
    exact h.create hstep hs pc call_eq disk (hclean pull (created_main pc call_eq succeeds)) deeds
  | streams j pull running disk deeds =>
    obtain ⟨hpull, hknown⟩ := hstep.inv.holds_run running rfl
    have hdeed := hknown .created (.head _)
    have htype := hstep.type_ne_symlink hpull running rfl
    have hgrows := Mount.stream_grows disk
    refine h.advance hstep hs hgrows (fun _ => deeds.created) fun q hq hverified => ?_
    have hverified := deeds.verified hverified
    obtain ⟨hqdeed, hdigest⟩ := h.verified q hq hverified
    refine ⟨hqdeed, hdigest.grows hgrows fun i content hnode hi =>
      Mount.stream_eq (h.shaped pull hpull hdeed) htype disk hnode fun hpulltype => ?_⟩
    -- A verified file is not the one that is being streamed.
    have hearly : pull ∈ s.client.early := by
      refine List.mem_append_right _ (List.mem_append_right _ ?_)
      exact List.mem_filterMap.2 ⟨_, List.mem_of_getElem? running, rfl⟩
    have hne : q ≠ pull := by
      rintro rfl
      exact h.early q hearly hverified
    have hqtype := Mount.type_of_hasDigest (h.shaped q hq hqdeed) hdigest
    exact h.apart q hq pull hpull hne hqdeed hdeed hqtype hpulltype i hi
  | verifies j pull running disk reads verdict deeds =>
    obtain ⟨hpull, hknown⟩ := hstep.inv.holds_run running rfl
    have hdeed := hknown .created (.head _)
    have htype := hstep.type_ne_symlink hpull running rfl
    refine h.advance hstep hs (disk ▸ .refl _) (fun path hpath => ?_) fun q hq hverified => ?_
    · rw [deeds] at hpath
      exact mem_of_ne_deed (mem_of_ne_deed hpath Deed.noConfusion) Deed.noConfusion
    · rw [disk]
      rw [deeds] at hverified
      rcases List.mem_cons.1 hverified with hnew | hverified
      · obtain rfl := hstep.eq_of_path (hstep.objects.subset hq) hpull (Prod.mk.inj hnew).2
        have hshaped := h.shaped q hpull hdeed
        exact ⟨hdeed, Mount.hasDigest_of_reads hshaped htype reads (hsha _) verdict⟩
      · exact h.verified q hq (mem_of_ne_deed hverified Deed.noConfusion)
  | stays disk deeds =>
    refine h.advance hstep hs (disk ▸ .refl _) (fun _ => deeds.created) fun q hq hverified => ?_
    rw [disk]
    exact h.verified q hq (deeds.verified hverified)

/-! ## Runs -/

theorem script_run {events : List ReportEvent}
    (hrun : Transition.script (diskStep cfg m) s events = some s') :
    Transition.script (ReportingClient.reportStep cfg) s.run events = some s'.run := by
  induction events generalizing s with
  | nil => exact congrArg (·.map run) hrun
  | cons event events ih =>
    obtain ⟨s₁, hs₁, hrest⟩ := Option.bind_eq_some_iff.1 hrun
    rw [Transition.script, diskStep_run hs₁]
    exact ih hrest

theorem script_received {events : List ReportEvent}
    (hrun : Transition.script (diskStep cfg m) s events = some s') :
    s.client.received <+: s'.client.received := by
  have hstep : ∀ s₁ event s₂, s.client.received <+: s₁.client.received →
      diskStep cfg m s₁ event = some s₂ → s.client.received <+: s₂.client.received :=
    fun _ _ _ h hs => h.trans (ReportingClient.reportStep_received (diskStep_run hs))
  exact Transition.script_invariant hstep (List.prefix_refl _) hrun

theorem Moves.grows (h : Moves cfg m s s' event) : s.disk.Grows s'.disk := by
  cases h with
  | creates pull call pc call_eq succeeds disk deeds => exact Mount.create_grows disk
  | streams j pull running disk deeds => exact Mount.stream_grows disk
  | verifies j pull running disk reads verdict deeds => exact disk ▸ .refl _
  | stays disk deeds => exact disk ▸ .refl _

theorem DiskInv.run (hfinish : ∀ path, (cfg.calls path).integrity.finish.isSome)
    (hsha : ∀ path bytes digest,
      (cfg.calls path).integrity.sha256Final bytes = some digest → digest = sha256 bytes)
    {disk : ClientDisk} {events : List ReportEvent}
    (hrun : Transition.script (diskStep cfg m) ⟨.start cfg, disk⟩ events = some s)
    (hclean : Transition.Along (diskStep cfg m) (fun _ _ => ())
      (fun s _ event => Clean cfg m s event) ⟨.start cfg, disk⟩ () events)
    (hannounced : WellAnnounced s.client.received) :
    ReportingClient.ReportInv cfg s.run ∧ DiskInv cfg m sha256 s := by
  have hstep : ∀ (s : DiskClient) (_ : Unit) event s',
      (WellAnnounced s.client.received →
        ReportingClient.ReportInv cfg s.run ∧ DiskInv cfg m sha256 s) →
      Clean cfg m s event → diskStep cfg m s event = some s' →
      WellAnnounced s'.client.received →
        ReportingClient.ReportInv cfg s'.run ∧ DiskInv cfg m sha256 s' := by
    intro s _ event s' hinv hclean hs hannounced
    have hreceived := ReportingClient.reportStep_received (diskStep_run hs)
    obtain ⟨hreport, hdisk⟩ := hinv (hannounced.of_prefix hreceived)
    have hexact := (hreport.exact.resolve_left (diskStep_live hs)).1
    have hstep : Step cfg s s' := ⟨hreport.client, hexact, hreceived.filterMap _, hannounced⟩
    exact ⟨hreport.step hfinish (diskStep_run hs) hannounced.distinct,
      hdisk.step hstep hsha hclean hs⟩
  have hstart : WellAnnounced [] → ReportingClient.ReportInv cfg (.start cfg) ∧
      DiskInv cfg m sha256 ⟨.start cfg, disk⟩ := fun _ => ⟨.start cfg, .start cfg m sha256 disk⟩
  exact Transition.along_invariant hstep hstart hclean hrun hannounced

/-- An object that was listed once, is listed or settled. -/
theorem listed_or_settled {events : List ReportEvent}
    (hrun : Transition.script (diskStep cfg m) s events = some s') (hinv : ClientInv cfg s.client)
    (hdistinct : ((objectsOf s'.client.received).map (·.path)).Nodup)
    (hpull : pull ∈ objectsOf s.client.received) (hlisted : pull.path ∈ s.client.toComplete) :
    pull.path ∈ s'.client.toComplete ∨ Settled s'.client.deeds pull := by
  have hstep : ∀ s event s',
      (((objectsOf s.client.received).map (·.path)).Nodup → ClientInv cfg s.client ∧
        pull ∈ objectsOf s.client.received ∧
        (pull.path ∈ s.client.toComplete ∨ Settled s.client.deeds pull)) →
      diskStep cfg m s event = some s' →
      ((objectsOf s'.client.received).map (·.path)).Nodup → ClientInv cfg s'.client ∧
        pull ∈ objectsOf s'.client.received ∧
        (pull.path ∈ s'.client.toComplete ∨ Settled s'.client.deeds pull) := by
    intro s event s' hinv hs hdistinct
    have hobjects : objectsOf s.client.received <+: objectsOf s'.client.received :=
      (ReportingClient.reportStep_received (diskStep_run hs)).filterMap _
    have hbefore := hdistinct.sublist (hobjects.sublist.map (·.path))
    obtain ⟨hinv, hpull, hstate⟩ := hinv hbefore
    have hmore := (diskStep_moves hs).deeds_subset
    rcases ReportingClient.reportStep_client (diskStep_run hs) with ⟨hsame, -⟩ | ⟨e, -, hstep⟩
    · rw [client, hsame]
      exact ⟨hinv, hpull, hstate⟩
    · refine ⟨hinv.step hbefore hstep, hobjects.subset hpull, ?_⟩
      rcases hstate with hlisted | hsettled
      · rcases ClientState.clientStep_listed hstep hlisted with hlisted | ⟨q, hpath, herasing⟩
        · exact .inl hlisted
        · obtain ⟨hq, hsettled⟩ := ClientState.settled_of_erasing hinv herasing
          obtain rfl := List.inj_on_of_nodup_map hbefore hq hpull hpath
          exact .inr fun deed hdeed => hmore (hsettled deed hdeed)
      · exact .inr fun deed hdeed => hmore (hsettled deed hdeed)
  exact (Transition.script_invariant hstep (fun _ => ⟨hinv, hpull, .inl hlisted⟩) hrun
    hdistinct).2.2

/-- Where something else is at the path of an object, the object never comes to lie. -/
theorem spoilt_never_holds {events : List ReportEvent}
    (hrun : Transition.script (diskStep cfg m) s events = some s') {i : Nat}
    {node : Node Bytes Bytes Bytes} (hentry : m.entry s.disk pull = .inode i)
    (hnode : s.disk.nodes[i]? = some node) (hmatches : ¬ Matches cfg.dest pull node) :
    ¬ m.Holds cfg.dest sha256 s'.disk pull := by
  have hstep : ∀ s₁ event s₂, s.disk.Grows s₁.disk → diskStep cfg m s₁ event = some s₂ →
      s.disk.Grows s₂.disk := fun _ _ _ h hs => h.trans (diskStep_moves hs).grows
  have hgrows : s.disk.Grows s'.disk := Transition.script_invariant hstep (.refl _) hrun
  rintro ⟨j, node', hentry', hnode', hmatches', -⟩
  exact Mount.not_shaped_grows hentry hnode hmatches hgrows ⟨j, node', hentry', hnode', hmatches'⟩

end DiskClient

open DiskClient Transition in
/-- **Completion is sound**, if nothing is spoilt: whatever was in the destination before, an object
that was listed once and is not listed any more, lies at its path, with the announced type and the
announced target or digest. -/
theorem completion_sound (cfg : ClientConfig) (m : Mount) (sha256 : Bytes → Bytes)
    (disk : ClientDisk) (before after : List ReportEvent) (s s' : DiskClient)
    (hbefore : script (diskStep cfg m) ⟨.start cfg, disk⟩ before = some s)
    (hafter : script (diskStep cfg m) s after = some s')
    (hclean : Along (diskStep cfg m) (fun _ _ => ()) (fun s _ event => Clean cfg m s event)
      ⟨.start cfg, disk⟩ () (before ++ after))
    (hannounced : WellAnnounced s'.client.received)
    (hsha : ∀ path bytes digest,
      (cfg.calls path).integrity.sha256Final bytes = some digest → digest = sha256 bytes)
    (hhashes : ∀ path, (cfg.calls path).integrity.hashes = true) (pull : PullObject)
    (hpull : pull ∈ objectsOf s.client.received) (hlisted : pull.path ∈ s.client.toComplete)
    (herased : pull.path ∉ s'.client.toComplete) : m.Holds cfg.dest sha256 s'.disk pull := by
  have hfinish : ∀ path, (cfg.calls path).integrity.finish.isSome := by
    intro path
    rw [IntegrityCalls.finish_isSome]
    exact hhashes path
  have hrun : script (diskStep cfg m) ⟨.start cfg, disk⟩ (before ++ after) = some s' := by
    rw [script_append, hbefore]
    exact hafter
  obtain ⟨hreport', hdisk⟩ := DiskInv.run hfinish hsha hrun hclean hannounced
  have hreceived := script_received hafter
  have hreport := ReportingClient.ReportInv.run hfinish (script_run hbefore)
    (hannounced.of_prefix hreceived).distinct
  have hsettled := (listed_or_settled hafter hreport.client hannounced.distinct hpull
    hlisted).resolve_left herased
  have hpull' := (hreceived.filterMap _).subset hpull
  refine (hdisk.shaped pull hpull' hsettled.created).holds fun htype => ?_
  have hchecked := hsettled.checked (hannounced.files pull hpull' htype)
  have hverified := hreport'.client.compared.verified_of_checked (hfinish pull.path) hchecked
  exact (hdisk.verified pull hpull' hverified).2

/-! ## A directory that is there already -/

/-- A client to which a server sends `abc`, and for which all calls succeed. -/
def abcClient : ClientConfig where
  dest := text "/dest"
  calls _ :=
    { creates := true
      stream := ⟨true, true, true, true, [], [], text "abc", []⟩
      integrity :=
        ⟨true, [text "abc"], true, fun bytes => if bytes = text "abc" then some abcDigest else none⟩
      metadata := ⟨true, true, true⟩ }
  workers := 1
  disposition := .sigDfl
  wcwidth := latinWcwidth

def abcMount : Mount := ⟨0, 1⟩

/-- A destination with something in it at `d`. -/
def diskWith (node : Node Bytes Bytes Bytes) : ClientDisk :=
  ⟨[.dir 0 [(text "dest", 1)], .dir 0 [(text "d", 2)], node]⟩

def abcObject (path : Bytes) (type : PullObject.Type) (transfer : Option FileTransferInfo) :
    PullObject :=
  ⟨1, path, type, ⟨0, 0, [], []⟩, ⟨⟨0, 0⟩, ⟨0, 0⟩⟩, transfer, .nonlink ⟨0⟩⟩

def abcDirectory : PullObject := abcObject (text "d") .kTypeDirectory none

def abcFile : PullObject :=
  abcObject (text "d/f") .kTypeFile (some ⟨hexlify abcDigest, 3, []⟩)

/-- The directory, and the file in it up to where it is listed. -/
def abcBefore : List ReportEvent :=
  [.receive (some (.started (text "1"))), .receive (some (.object abcDirectory)), .main, .main,
    .main, .main, .receive (some (.object abcFile)), .main].map .client

def abcAfter : List ReportEvent :=
  [.main, .main, .main, .pop 0, .run 0, .run 0, .run 0, .run 0, .pop 0, .run 0, .run 0, .run 0].map
    .client

open DiskClient Transition in
theorem completion_sound_abc :
    ∃ s s', script (diskStep abcClient abcMount) ⟨.start abcClient, diskWith (.dir 1 [])⟩
        abcBefore = some s ∧
      script (diskStep abcClient abcMount) s abcAfter = some s' ∧
      abcFile.path ∉ s'.client.toComplete ∧
      abcMount.Holds abcClient.dest (fun _ => abcDigest) s'.disk abcFile := by
  have hbegins : (script (diskStep abcClient abcMount) ⟨.start abcClient, diskWith (.dir 1 [])⟩
      abcBefore).map (fun s => (objectsOf s.client.received, s.client.toComplete)) =
      some ([abcDirectory, abcFile], ⟨{abcFile.path}⟩) := rfl
  have hends : (script (diskStep abcClient abcMount) ⟨.start abcClient, diskWith (.dir 1 [])⟩
      (abcBefore ++ abcAfter)).map (fun s => (objectsOf s.client.received, s.client.toComplete)) =
      some ([abcDirectory, abcFile], .empty) := rfl
  obtain ⟨s, hbefore, hs⟩ := Option.map_eq_some_iff.1 hbegins
  rw [script_append, hbefore] at hends
  obtain ⟨s', hafter, hs'⟩ := Option.map_eq_some_iff.1 hends
  obtain ⟨hobjects, hlisted⟩ := Prod.mk.inj hs
  obtain ⟨hobjects', herased⟩ := Prod.mk.inj hs'
  have herased' : abcFile.path ∉ s'.client.toComplete := by
    rw [herased]
    exact GuardedSet.not_mem_empty _
  refine ⟨s, s', hbefore, hafter, herased', ?_⟩
  refine completion_sound abcClient abcMount (fun _ => abcDigest) _ abcBefore abcAfter s s' hbefore
    hafter (by decide) ⟨?_, ?_, ?_⟩ ?_ (fun _ => rfl) abcFile ?_ ?_ herased'
  · rw [hobjects']
    decide
  · rw [hobjects']
    decide
  · rw [hobjects']
    decide
  · intro path bytes digest hdigest
    have hite : (if bytes = text "abc" then some abcDigest else none) = some digest := hdigest
    split at hite
    · exact (Option.some.inj hite).symm
    · cases hite
  · rw [hobjects]
    exact .tail _ (.head _)
  · rw [hlisted]
    exact Finset.mem_singleton_self _

/-! ## A file where a directory is announced -/

open DiskClient Transition in
/-- The client takes the file for the directory and reports nothing. -/
theorem file_taken_for_directory :
    ∃ s, script (diskStep abcClient abcMount) ⟨.start abcClient, diskWith (.file (text "abc"))⟩
        ([.receive (some (.started (text "1"))), .receive (some (.object abcDirectory)), .main,
          .main, .main, .main, .receive (some (.finished 1)), .main].map .client) = some s ∧
      objectsOf s.client.received = [abcDirectory] ∧ s.client.pc = .reported ∅ ∧
      abcDirectory.path ∉ s.client.toComplete ∧
      ¬ abcMount.Holds abcClient.dest (fun _ => abcDigest) s.disk abcDirectory := by
  refine ⟨_, rfl, rfl, rfl, GuardedSet.not_mem_empty _, ?_⟩
  have hfile : abcMount.entry (diskWith (.file (text "abc"))) abcDirectory = .inode 2 := rfl
  rintro ⟨i, node, hentry, hnode, hmatches, -⟩
  obtain rfl := Lookup.inode.inj (hfile.symm.trans hentry)
  obtain rfl : Node.file (text "abc") = node := Option.some.inj hnode
  cases (hmatches : abcDirectory.type = .kTypeFile)

end Netpull
