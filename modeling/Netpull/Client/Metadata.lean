import Netpull.Client.Completion
import Netpull.Server.FastCrawler

/-!
# Permissions and times

The disk of the client with the permission bits and the modification time of every inode, and what
the calls of the client do to them. A new entry changes the time of its directory, what is created
loses the bits of the umask, and a write changes the time of its file; `SetMetadata` changes both,
but the permissions of files only.

As for the disk, an event that the attributes do not allow is refused.
-/

namespace Netpull

open Inodes PullObject

/-! ## The calls -/

@[ext] structure Attributes where
  perms : BitVec 9
  mtime : Timespec
deriving DecidableEq

/-- The permission bits of a mode. -/
def permissionBits (mode : Int32) : BitVec 9 := mode.toBitVec.setWidth 9

/-- `CopyProtoTimestampToTimespec`. -/
def copyProtoTimestampToTimespec (ts : Timestamp) : Timespec := ⟨ts.seconds, ts.nanos.toInt64⟩

/-- `UTIME_NOW`. -/
def kUtimeNow : Int64 := 0x3fffffff

/-- `UTIME_OMIT`. -/
def kUtimeOmit : Int64 := 0x3ffffffe

/-- What `utimensat` sets a time to, if it takes the argument. -/
def utime (now old time : Timespec) : Option Timespec :=
  if time.tvNsec = kUtimeNow then some now
  else if time.tvNsec = kUtimeOmit then some old
  else if 0 ≤ time.tvNsec ∧ time.tvNsec < 1000000000 then some time
  else none

/-- The attributes of the inodes after an entry for a new one was made in a directory. -/
def newEntry (d : ClientDisk) (now : Timespec) (attributes : Nat → Attributes) (dir : Nat)
    (perms : BitVec 9) : Nat → Attributes :=
  Function.update (Function.update attributes dir { attributes dir with mtime := now })
    d.nodes.length ⟨perms, now⟩

namespace Mount

/-- What a call that creates an object does to the attributes. -/
def createAttributes (m : Mount) (umask : BitVec 9) (now : Timespec) (d : ClientDisk)
    (attributes : Nat → Attributes) : CreateCall → Nat → Attributes
  | .openat path =>
    match m.lookup d true path with
    | .missing dir _ => newEntry d now attributes dir (0o644 &&& ~~~umask)
    | _ => attributes
  | .mkdirat path perms =>
    match m.lookup d false (stripSlashes path) with
    | .missing dir _ => newEntry d now attributes dir (permissionBits perms &&& ~~~umask)
    | _ => attributes
  | .symlinkat _ path =>
    match m.lookup d false path with
    | .missing dir _ => newEntry d now attributes dir 0o777
    | _ => attributes

/-- What `FileStreamTask::Run` does to them. -/
def streamAttributes (m : Mount) (now : Timespec) (d : ClientDisk)
    (attributes : Nat → Attributes) (calls : StreamCalls) (pull : PullObject) :
    Nat → Attributes :=
  if calls.opens && calls.pipes && calls.connects && calls.sends then
    match m.openFile d (cstr pull.path) with
    | some (i, _) =>
      let bytes := (pull.transfer.getD ⟨[], 0, []⟩).bytes
      if 0 < (receive bytes calls.ins calls.outs calls.stream calls.file).2.offset then
        Function.update attributes i { attributes i with mtime := now }
      else attributes
    | none => attributes
  else attributes

/-- `utimensat` with `AT_SYMLINK_NOFOLLOW`. -/
def utimensat (m : Mount) (now : Timespec) (d : ClientDisk) (attributes : Nat → Attributes)
    (path : Bytes) (times : Times) : Option (Nat → Attributes) :=
  match m.lookup d false path with
  | .inode i =>
    match utime now now (copyProtoTimestampToTimespec times.access),
      utime now (attributes i).mtime (copyProtoTimestampToTimespec times.modify) with
    | some _, some mtime => some (Function.update attributes i { attributes i with mtime })
    | _, _ => none
  | _ => none

def fchmodat (m : Mount) (d : ClientDisk) (attributes : Nat → Attributes) (path : Bytes)
    (perms : Int32) : Option (Nat → Attributes) :=
  match m.lookup d true path with
  | .inode i =>
    some (Function.update attributes i { attributes i with perms := permissionBits perms })
  | _ => none

/-- What `SetMetadata` does to the attributes; `fchownat` leaves them as they are. -/
def setMetadata (m : Mount) (now : Timespec) (d : ClientDisk) (attributes : Nat → Attributes)
    (calls : MetadataCalls) (pull : PullObject) : Option (Nat → Attributes) :=
  if !calls.utimensat then some attributes
  else
    (m.utimensat now d attributes (cstr pull.path) pull.times).bind fun attributes =>
      if pull.type = .kTypeFile ∧ calls.fchmodat then
        m.fchmodat d attributes (cstr pull.path) pull.nonlink.perms
      else some attributes

end Mount

/-! ## The client with the attributes -/

/-- What the attributes depend on beside the client itself. -/
structure MetadataConfig where
  client : ClientConfig
  mount : Mount
  umask : BitVec 9

structure MetadataClient where
  base : DiskClient
  attributes : Nat → Attributes

/-- An event, and what the clock shows at it. -/
structure TimedEvent where
  event : ReportEvent
  now : Timespec
deriving DecidableEq

namespace MetadataClient

abbrev client (s : MetadataClient) : ClientState := s.base.client

abbrev disk (s : MetadataClient) : ClientDisk := s.base.disk

def attributesAfter (cfg : MetadataConfig) (c : ClientState) (d : ClientDisk)
    (attributes : Nat → Attributes) (now : Timespec) : ReportEvent → Option (Nat → Attributes)
  | .client .main =>
    match c.pc with
    | .creating pull =>
      match createCall cfg.client.dest pull with
      | .ok call =>
        if (cfg.client.calls pull.path).creates then
          some (cfg.mount.createAttributes cfg.umask now d attributes call)
        else some attributes
      | .error _ => some attributes
    | .settling pull =>
      cfg.mount.setMetadata now d attributes (cfg.client.calls pull.path).metadata pull
    | _ => some attributes
  | .client (.run j) =>
    match c.pool.running[j]? with
    | some (.streaming pull) =>
      some (cfg.mount.streamAttributes now d attributes (cfg.client.calls pull.path).stream pull)
    | some (.settling pull) =>
      cfg.mount.setMetadata now d attributes (cfg.client.calls pull.path).metadata pull
    | _ => some attributes
  | _ => some attributes

def metadataStep (cfg : MetadataConfig) (s : MetadataClient) (e : TimedEvent) :
    Option MetadataClient :=
  (attributesAfter cfg s.client s.disk s.attributes e.now e.event).bind fun attributes =>
    (DiskClient.diskStep cfg.client cfg.mount s.base e.event).map fun base => ⟨base, attributes⟩

end MetadataClient

/-! ## What the calls do -/

/-- Bits that are not masked stay. -/
theorem and_not_of_disjoint {n : Nat} {x mask : BitVec n} (h : x &&& mask = 0) :
    x &&& ~~~mask = x := by
  ext i hi
  have hbit : (x &&& mask)[i] = false := by
    rw [h]
    exact BitVec.getElem_zero hi
  rw [BitVec.getElem_and] at hbit
  rw [BitVec.getElem_and, BitVec.getElem_not]
  cases hx : x[i] with
  | false => rfl
  | true =>
    rw [hx, Bool.true_and] at hbit
    rw [hbit]
    rfl

/-- Regular files and directories. -/
def PullObject.Type.NonLink (type : PullObject.Type) : Prop :=
  type = .kTypeFile ∨ type = .kTypeDirectory

instance : DecidablePred PullObject.Type.NonLink := fun _ => inferInstanceAs (Decidable (_ ∨ _))

/-- The announced attributes. -/
def PullObject.attributes (pull : PullObject) : Attributes :=
  ⟨permissionBits pull.nonlink.perms, copyProtoTimestampToTimespec pull.times.modify⟩

/-- The modification time is one that a file can have. -/
def PullObject.Stamped (pull : PullObject) : Prop :=
  0 ≤ pull.times.modify.nanos.toInt64 ∧ pull.times.modify.nanos.toInt64 < 1000000000

instance : DecidablePred PullObject.Stamped := fun _ => inferInstanceAs (Decidable (_ ∧ _))

theorem utime_stamped {pull : PullObject} (h : pull.Stamped) (now old : Timespec) :
    utime now old (copyProtoTimestampToTimespec pull.times.modify) = some pull.attributes.mtime := by
  unfold PullObject.Stamped at h
  have hnow : pull.times.modify.nanos.toInt64 ≠ kUtimeNow := by
    intro e
    rw [e] at h
    exact absurd h.2 (by decide)
  have homit : pull.times.modify.nanos.toInt64 ≠ kUtimeOmit := by
    intro e
    rw [e] at h
    exact absurd h.2 (by decide)
  rw [utime, copyProtoTimestampToTimespec, if_neg hnow, if_neg homit, if_pos h]
  rfl

namespace Mount

variable {m : Mount} {dest : Bytes} {d : ClientDisk} {attributes attributes' : Nat → Attributes}
  {now : Timespec} {pull : PullObject}

/-- Making an entry changes nothing but the time of its directory. -/
theorem newEntry_perms {dir i : Nat} (hi : i < d.nodes.length) (perms : BitVec 9) :
    (newEntry d now attributes dir perms i).perms = (attributes i).perms := by
  rw [newEntry, Function.update_of_ne (Nat.ne_of_lt hi)]
  by_cases hdir : i = dir
  · rw [hdir, Function.update_self]
  · rw [Function.update_of_ne hdir]

theorem newEntry_mtime {dir i : Nat} (hi : i < d.nodes.length)
    (hdir : i = dir → (attributes i).mtime = now) (perms : BitVec 9) :
    (newEntry d now attributes dir perms i).mtime = (attributes i).mtime := by
  rw [newEntry, Function.update_of_ne (Nat.ne_of_lt hi)]
  by_cases heq : i = dir
  · rw [hdir heq, heq, Function.update_self]
  · rw [Function.update_of_ne heq]

theorem newEntry_new (dir : Nat) (perms : BitVec 9) :
    newEntry d now attributes dir perms d.nodes.length = ⟨perms, now⟩ :=
  Function.update_self _ _ _

/-- A stream changes the time of its file, or nothing. -/
theorem streamAttributes_cases (m : Mount) (now : Timespec) (d : ClientDisk)
    (attributes : Nat → Attributes) (calls : StreamCalls) (pull : PullObject) :
    m.streamAttributes now d attributes calls pull = attributes ∨
      ∃ i content, m.openFile d (cstr pull.path) = some (i, content) ∧
        m.streamAttributes now d attributes calls pull =
          Function.update attributes i { attributes i with mtime := now } := by
  unfold streamAttributes
  split
  · split
    · next i content hopen =>
      simp only
      split
      · exact .inr ⟨i, content, hopen, rfl⟩
      · exact .inl rfl
    · exact .inl rfl
  · exact .inl rfl

/-- **What `SetMetadata` does** to an object that lies at its path: nothing, or it sets the time of
its inode, and the permissions of a file. -/
theorem setMetadata_cases {calls : MetadataCalls} (hshaped : m.Shaped dest d pull)
    (hstamped : pull.Stamped)
    (h : m.setMetadata now d attributes calls pull = some attributes') :
    calls.utimensat = false ∧ attributes' = attributes ∨
      ∃ i, m.entry d pull = .inode i ∧ attributes' = Function.update attributes i
        ⟨if pull.type = .kTypeFile ∧ calls.fchmodat then pull.attributes.perms
          else (attributes i).perms, pull.attributes.mtime⟩ := by
  obtain ⟨i, node, hentry, hnode, hmatches⟩ := hshaped
  unfold setMetadata at h
  split at h
  · next hfails =>
    exact .inl ⟨by simpa using hfails, (Option.some.inj h).symm⟩
  · obtain ⟨timed, htimed, hrest⟩ := Option.bind_eq_some_iff.1 h
    unfold utimensat at htimed
    rw [Shaped.lookup ⟨i, node, hentry, hnode, hmatches⟩, hentry] at htimed
    simp only [utime_stamped hstamped] at htimed
    split at htimed
    · next mtime _ hmtime =>
      obtain rfl := Option.some.inj hmtime
      obtain rfl := Option.some.inj htimed
      refine .inr ⟨i, hentry, ?_⟩
      split at hrest
      · next hfile =>
        have hfollow : m.lookup d true (cstr pull.path) = .inode i := by
          rw [lookup_entry dest hfile.1, hentry]
          intro j hj
          obtain rfl := Lookup.inode.inj (hentry.symm.trans hj)
          exact ⟨node, hnode, hmatches⟩
        unfold fchmodat at hrest
        rw [hfollow] at hrest
        rw [← Option.some.inj hrest, Function.update_idem, Function.update_self, if_pos hfile]
        rfl
      · next hfile =>
        rw [← Option.some.inj hrest, if_neg hfile]
    · cases htimed

/-- A symlink has an inode that no file and no directory has. -/
theorem entry_ne_of_link {q : PullObject} {i : Nat} (hshaped : m.Shaped dest d pull)
    (hlink : ¬ pull.type.NonLink) (hq : m.Shaped dest d q) (hkind : q.type.NonLink)
    (hi : m.entry d pull = .inode i) : m.entry d q ≠ .inode i := by
  intro hqi
  obtain ⟨j, node, hentry, hnode, hmatches⟩ := hshaped
  obtain ⟨k, node', hentry', hnode', hmatches'⟩ := hq
  obtain rfl := Lookup.inode.inj (hentry.symm.trans hi)
  obtain rfl := Lookup.inode.inj (hentry'.symm.trans hqi)
  obtain rfl := Option.some.inj (hnode.symm.trans hnode')
  cases node with
  | dir parent entries => exact hlink (.inr hmatches)
  | file content => exact hlink (.inl hmatches)
  | symlink target =>
    have hsymlink : q.type = .kTypeSymlink := hmatches'.1
    rcases hkind with hkind | hkind
    · cases hsymlink.symm.trans hkind
    · cases hsymlink.symm.trans hkind

/-- What the calls that create do to the attributes: nothing where something is already, and else
what making an entry does. -/
theorem createAttributes_eq {others : List PullObject} (hunspoilt : m.Unspoilt dest d others pull)
    {call : CreateCall} (hcall : createCall dest pull = .ok call) (umask : BitVec 9)
    (now : Timespec) (attributes : Nat → Attributes) :
    (∀ i, m.entry d pull = .inode i →
      m.createAttributes umask now d attributes call = attributes) ∧
    ∀ dir n, m.entry d pull = .missing dir n → ∃ perms,
      m.createAttributes umask now d attributes call = newEntry d now attributes dir perms ∧
        (pull.type = .kTypeDirectory → perms = pull.attributes.perms &&& ~~~umask) := by
  cases htype : pull.type with
  | kTypeFile =>
    rw [createCall, htype] at hcall
    obtain rfl := Except.ok.inj hcall
    rw [createAttributes, lookup_entry dest htype fun _ => hunspoilt.matches]
    refine ⟨?_, ?_⟩
    · intro i hentry
      rw [hentry]
    · intro dir n hentry
      rw [hentry]
      exact ⟨_, rfl, PullObject.Type.noConfusion⟩
  | kTypeDirectory =>
    have hlookup : m.lookup d false (stripSlashes (cstr pull.path)) = m.entry d pull := by
      rw [entry, entryPath, if_pos htype]
    rw [createCall, htype] at hcall
    obtain rfl := Except.ok.inj hcall
    rw [createAttributes, hlookup]
    refine ⟨?_, ?_⟩
    · intro i hentry
      rw [hentry]
    · intro dir n hentry
      rw [hentry]
      exact ⟨_, rfl, fun _ => rfl⟩
  | kTypeSymlink =>
    have hlookup : m.lookup d false (cstr pull.path) = m.entry d pull := by
      rw [entry, entryPath, if_neg (by rw [htype]; exact PullObject.Type.noConfusion)]
    rw [createCall, htype] at hcall
    obtain rfl := Except.ok.inj hcall
    rw [createAttributes, hlookup]
    refine ⟨?_, ?_⟩
    · intro i hentry
      rw [hentry]
    · intro dir n hentry
      rw [hentry]
      exact ⟨_, rfl, PullObject.Type.noConfusion⟩
  | other n =>
    rw [createCall, htype] at hcall
    cases hcall

end Mount

/-! ## What an event does -/

/-- Nothing was created, and the metadata of nothing set. -/
def NothingDone (deeds deeds' : List (Deed × Bytes)) : Prop :=
  ∀ path, ((.created, path) ∈ deeds' → (.created, path) ∈ deeds) ∧
    ((.settled, path) ∈ deeds' → (.settled, path) ∈ deeds)

theorem NothingDone.refl (deeds : List (Deed × Bytes)) : NothingDone deeds deeds :=
  fun _ => ⟨fun h => h, fun h => h⟩

theorem NothingDone.cons (deeds : List (Deed × Bytes)) {deed : Deed} (hcreated : deed ≠ .created)
    (hsettled : deed ≠ .settled) (path : Bytes) : NothingDone deeds ((deed, path) :: deeds) :=
  fun _ => ⟨fun h => mem_of_ne_deed h hcreated.symm, fun h => mem_of_ne_deed h hsettled.symm⟩

namespace MetadataClient

variable {cfg : MetadataConfig} {s s' : MetadataClient} {now : Timespec}

/-- An object is created, a file streamed, the metadata of an object set, or everything stays as it
is. -/
inductive Moves (cfg : MetadataConfig) (now : Timespec) (s s' : MetadataClient) :
    ReportEvent → Prop
  | creates (pull : PullObject) (call : CreateCall) (pc : s.client.pc = .creating pull)
      (call_eq : createCall cfg.client.dest pull = .ok call)
      (succeeds : (cfg.client.calls pull.path).creates = true)
      (disk : cfg.mount.create s.disk call = some s'.disk)
      (attributes : s'.attributes =
        cfg.mount.createAttributes cfg.umask now s.disk s.attributes call)
      (deeds : s'.client.deeds = (.created, pull.path) :: s.client.deeds) :
      Moves cfg now s s' (.client .main)
  | streams (j : Nat) (pull : PullObject) (calls : StreamCalls)
      (running : s.client.pool.running[j]? = some (.streaming pull))
      (disk : cfg.mount.stream s.disk calls pull = some s'.disk)
      (attributes : s'.attributes =
        cfg.mount.streamAttributes now s.disk s.attributes calls pull)
      (deeds : NothingDone s.client.deeds s'.client.deeds) : Moves cfg now s s' (.client (.run j))
  | settles (pull : PullObject) (calls : MetadataCalls) {event : ReportEvent}
      (hand : s.client.pc = .settling pull ∨
        ∃ j : Nat, s.client.pool.running[j]? = some (.settling pull))
      (disk : s'.disk = s.disk)
      (attributes : cfg.mount.setMetadata now s.disk s.attributes calls pull = some s'.attributes)
      (deeds : s'.client.deeds = s.client.deeds ∨ Netpull.setMetadata calls pull = true ∧
        s'.client.deeds = (.settled, pull.path) :: s.client.deeds) : Moves cfg now s s' event
  | stays {event : ReportEvent} (disk : s'.disk = s.disk)
      (attributes : s'.attributes = s.attributes)
      (deeds : NothingDone s.client.deeds s'.client.deeds) : Moves cfg now s s' event

theorem moves_main
    (hattributes : attributesAfter cfg s.client s.disk s.attributes now (.client .main) =
      some s'.attributes)
    (hdisk : DiskClient.diskAfter cfg.client cfg.mount s.client s.disk (.client .main) =
      some s'.disk)
    (hs : clientMainStep cfg.client s.client = some s'.client) :
    Moves cfg now s s' (.client .main) := by
  unfold DiskClient.diskAfter at hdisk
  unfold attributesAfter at hattributes
  generalize hc : s'.client = c' at hs
  cases clientMainStep_cases hs with
  | createsFile pull call hpc hcall hcreates | createsEntry pull call hpc hcall hcreates =>
    simp only [hpc, hcall, hcreates, if_true] at hdisk hattributes
    exact .creates pull call hpc hcall hcreates hdisk (Option.some.inj hattributes).symm
      (congrArg ClientState.deeds hc)
  | asserts pull fault hpc hcall =>
    simp only [hpc, hcall] at hdisk hattributes
    refine .stays (Option.some.inj hdisk).symm (Option.some.inj hattributes).symm ?_
    rw [hc]
    exact .refl _
  | notCreated pull call hpc hcall hcreates =>
    simp only [hpc, hcall, hcreates, Bool.false_eq_true, if_false] at hdisk hattributes
    refine .stays (Option.some.inj hdisk).symm (Option.some.inj hattributes).symm ?_
    rw [hc]
    exact .refl _
  | settles pull hpc hsettles =>
    simp only [hpc] at hdisk hattributes
    refine .settles pull _ (.inl hpc) (Option.some.inj hdisk).symm hattributes ?_
    exact .inr ⟨hsettles, congrArg ClientState.deeds hc⟩
  | notSettled pull hpc =>
    simp only [hpc] at hdisk hattributes
    refine .settles pull _ (.inl hpc) (Option.some.inj hdisk).symm hattributes ?_
    rw [hc]
    exact .inl rfl
  | inserts pull hpc | prepares pull hpc | submits pull hpc | erases pull hpc | reports hpc =>
    simp only [hpc] at hdisk hattributes
    refine .stays (Option.some.inj hdisk).symm (Option.some.inj hattributes).symm ?_
    rw [hc]
    exact .refl _

theorem moves_run {j : Nat} {r : ClientRun}
    (hattributes : attributesAfter cfg s.client s.disk s.attributes now (.client (.run j)) =
      some s'.attributes)
    (hdisk : DiskClient.diskAfter cfg.client cfg.mount s.client s.disk (.client (.run j)) =
      some s'.disk)
    (hj : s.client.pool.running[j]? = some r)
    (hs : clientRunStep cfg.client s.client j r = s'.client) :
    Moves cfg now s s' (.client (.run j)) := by
  unfold DiskClient.diskAfter at hdisk
  unfold attributesAfter at hattributes
  simp only [hj] at hdisk hattributes
  cases r with
  | streaming pull =>
    refine .streams j pull _ hj hdisk (Option.some.inj hattributes).symm ?_
    rw [← hs, clientRunStep]
    split
    · exact .cons _ Deed.noConfusion Deed.noConfusion _
    · exact .refl _
  | checking pull =>
    simp only at hdisk
    split at hdisk
    · refine .stays (Option.some.inj hdisk).symm (Option.some.inj hattributes).symm ?_
      rw [← hs, clientRunStep]
      split
      · exact .refl _
      · exact .cons _ Deed.noConfusion Deed.noConfusion _
      · intro path
        refine ⟨?_, ?_⟩
        · intro h
          exact mem_of_ne_deed (mem_of_ne_deed h Deed.noConfusion) Deed.noConfusion
        · intro h
          exact mem_of_ne_deed (mem_of_ne_deed h Deed.noConfusion) Deed.noConfusion
    · cases hdisk
  | settling pull =>
    refine .settles pull _ (.inr ⟨j, hj⟩) (Option.some.inj hdisk).symm hattributes ?_
    rw [← hs, clientRunStep]
    split
    · next hsettles => exact .inr ⟨hsettles, rfl⟩
    · exact .inl rfl
  | preparing pull | submitting pull | erasing pull | returned =>
    refine .stays (Option.some.inj hdisk).symm (Option.some.inj hattributes).symm ?_
    rw [← hs]
    exact .refl _

theorem metadataStep_base {e : TimedEvent} (h : metadataStep cfg s e = some s') :
    attributesAfter cfg s.client s.disk s.attributes e.now e.event = some s'.attributes ∧
      DiskClient.diskStep cfg.client cfg.mount s.base e.event = some s'.base := by
  obtain ⟨attributes, hattributes, hrest⟩ := Option.bind_eq_some_iff.1 h
  obtain ⟨base, hbase, rfl⟩ := Option.map_eq_some_iff.1 hrest
  exact ⟨hattributes, hbase⟩

/-- **What an event does to the disk, its attributes and the deeds.** -/
theorem metadataStep_moves {event : ReportEvent}
    (h : metadataStep cfg s ⟨event, now⟩ = some s') : Moves cfg now s s' event := by
  obtain ⟨hattributes, hbase⟩ := metadataStep_base h
  obtain ⟨hdisk, hrun⟩ := DiskClient.diskStep_parts hbase
  rcases ReportingClient.reportStep_client hrun with ⟨hsame, hevent⟩ | ⟨e, rfl, hstep⟩
  · have hstays : s'.disk = s.disk ∧ s'.attributes = s.attributes := by
      cases event with
      | client e =>
        obtain rfl := hevent e rfl
        exact ⟨(Option.some.inj hdisk).symm, (Option.some.inj hattributes).symm⟩
      | connect j connects =>
        exact ⟨(Option.some.inj hdisk).symm, (Option.some.inj hattributes).symm⟩
      | send j => exact ⟨(Option.some.inj hdisk).symm, (Option.some.inj hattributes).symm⟩
    refine .stays hstays.1 hstays.2 ?_
    rw [client, client, DiskClient.client, DiskClient.client, hsame]
    exact .refl _
  · generalize hc : s'.base.run.client = c' at hstep
    cases clientStep_cases hstep with
    | receives resp =>
      refine .stays (Option.some.inj hdisk).symm (Option.some.inj hattributes).symm ?_
      rw [client, client, DiskClient.client, DiskClient.client, hc,
        (ClientState.handleResponse_keeps _ resp).2]
      exact .refl _
    | loses | pops | overruns =>
      refine .stays (Option.some.inj hdisk).symm (Option.some.inj hattributes).symm ?_
      rw [client, client, DiskClient.client, DiskClient.client, hc]
      exact .refl _
    | main hmain => exact moves_main hattributes hdisk (hmain.trans (congrArg some hc.symm))
    | runs j r hj => exact moves_run hattributes hdisk hj hc.symm

end MetadataClient

end Netpull
