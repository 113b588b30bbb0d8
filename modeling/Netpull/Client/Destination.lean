import Mathlib.Data.List.DropRight
import Netpull.Client.Success
import Netpull.LexicalPath
import Netpull.Lib.Inodes

/-!
# The disk of the client

The calls of the client that create, write and read something, on a disk in whatever state it was
before. Directories and symlinks may be there already, and files are opened through symlinks.

What the calls come to is part of the configuration, as everywhere in the client; an event that the
disk does not allow is refused. The writes of a stream are one step, and so are the reads of a file:
another task notices only if it is at the same file.
-/

namespace Netpull

open Inodes PullObject

/-! ## Paths on a disk -/

abbrev ClientDisk := Disk Bytes Bytes Bytes

/-- The components of a path, with the one that a slash at its end stands for. -/
def pathComponents (p : Bytes) : List (Component Bytes) :=
  ((p.splitOn slash).filter (· ≠ [])).map (fun n =>
    if n = text "." then .here else if n = text ".." then .up else .name n) ++
  if endsWith p [slash] then [.here] else []

/-- The inodes of the root of the system and of the destination directory. -/
structure Mount where
  root : Nat
  dest : Nat

/-- The number of symlinks on the way at which a path is given up. -/
def kMaxSymlinks : Nat := 40

namespace Mount

def targets (m : Mount) : Targets Bytes Bytes := ⟨m.root, fun t => (isAbsolute t, pathComponents t)⟩

/-- What a path given to an `*at` call leads to. -/
def lookup (m : Mount) (d : ClientDisk) (follow : Bool) (path : Bytes) : Lookup Bytes :=
  if path = [] then .error
  else d.resolve m.targets follow kMaxSymlinks (if isAbsolute path then m.root else m.dest)
    (pathComponents path)

end Mount

/-- `mkdirat` does not mind slashes at the end of its path. -/
def stripSlashes (p : Bytes) : Bytes := p.rdropWhile (· = slash)

namespace Mount

/-- The disk after a call that creates an object, unless it fails with an error that
`HandleTransfer` does not tolerate. -/
def create (m : Mount) (d : ClientDisk) : CreateCall → Option ClientDisk
  | .openat path =>
    match m.lookup d true path with
    | .inode i =>
      match d.nodes[i]? with
      | some (.file _) => some d
      | _ => none
    | .missing dir n => some (d.create dir n (.file []))
    | .error => none
  | .mkdirat path _ =>
    match m.lookup d false (stripSlashes path) with
    | .inode _ => some d
    | .missing dir n => some (d.create dir n (.dir dir []))
    | .error => none
  | .symlinkat target path =>
    if target = [] then none
    else
      match m.lookup d false path with
      | .inode _ => some d
      | .missing dir n => some (d.create dir n (.symlink target))
      | .error => none

/-- The file that a path is opened as, and what it holds. -/
def openFile (m : Mount) (d : ClientDisk) (path : Bytes) : Option (Nat × Bytes) :=
  match m.lookup d true path with
  | .inode i =>
    match d.nodes[i]? with
    | some (.file content) => some (i, content)
    | _ => none
  | _ => none

/-- The disk after `FileStreamTask::Run`. -/
def stream (m : Mount) (d : ClientDisk) (calls : StreamCalls) (pull : PullObject) :
    Option ClientDisk :=
  if !calls.opens then some d
  else
    match m.openFile d (cstr pull.path) with
    | none => none
    | some (i, content) =>
      if calls.file ≠ content then none
      else if calls.pipes && calls.connects && calls.sends then
        let bytes := (pull.transfer.getD ⟨[], 0, []⟩).bytes
        some (d.write i (receive bytes calls.ins calls.outs calls.stream calls.file).2.file)
      else some d

/-- Whether `FileIntegrityTask::Run` can read what it reads. -/
def reads (m : Mount) (d : ClientDisk) (calls : IntegrityCalls) (pull : PullObject) : Bool :=
  !(calls.opens && calls.eof) ||
    (m.openFile d (cstr pull.path)).map (·.2) = some calls.reads.flatten

end Mount

/-! ## The client on its disk -/

structure DiskClient where
  run : ReportingClient
  disk : ClientDisk

namespace DiskClient

abbrev client (s : DiskClient) : ClientState := s.run.client

/-- The disk after an event. `SetMetadata` changes neither what an object is nor what it holds. -/
def diskAfter (cfg : ClientConfig) (m : Mount) (c : ClientState) (d : ClientDisk) :
    ReportEvent → Option ClientDisk
  | .client .main =>
    match c.pc with
    | .creating pull =>
      match createCall cfg.dest pull with
      | .ok call => if (cfg.calls pull.path).creates then m.create d call else some d
      | .error _ => some d
    | _ => some d
  | .client (.run j) =>
    match c.pool.running[j]? with
    | some (.streaming pull) => m.stream d (cfg.calls pull.path).stream pull
    | some (.checking pull) =>
      if m.reads d (cfg.calls pull.path).integrity pull then some d else none
    | _ => some d
  | _ => some d

def diskStep (cfg : ClientConfig) (m : Mount) (s : DiskClient) (event : ReportEvent) :
    Option DiskClient :=
  (diskAfter cfg m s.run.client s.disk event).bind fun disk =>
    (ReportingClient.reportStep cfg s.run event).map fun run => ⟨run, disk⟩

end DiskClient

/-! ## Slashes at the end of a path -/

open Separated in
/-- The names of a path do not depend on slashes at its end. -/
theorem splitOn_stripSlashes (p : Bytes) :
    ((stripSlashes p).splitOn slash).filter (· ≠ []) = (p.splitOn slash).filter (· ≠ []) := by
  induction p using List.reverseRecOn with
  | nil => rfl
  | append_singleton p b ih =>
    unfold stripSlashes at ih ⊢
    rw [List.rdropWhile_concat]
    split
    · next hb =>
      obtain rfl := of_decide_eq_true hb
      rw [ih, splitOn_append_cons, List.filter_append]
      exact (List.append_nil _).symm
    · rfl

theorem endsWith_stripSlashes (p : Bytes) : endsWith (stripSlashes p) [slash] = false := by
  induction p using List.reverseRecOn with
  | nil => rfl
  | append_singleton p b ih =>
    unfold stripSlashes at ih ⊢
    rw [List.rdropWhile_concat]
    split
    · exact ih
    · next hb =>
      rw [endsWith_append (t := [b]) (p := [slash]) (Nat.le_refl 1)]
      refine endsWith_singleton_of_not_mem fun hslash => hb (decide_eq_true ?_)
      exact (List.mem_singleton.1 hslash).symm

theorem pathComponents_of_endsWith {p : Bytes} (h : endsWith p [slash] = true) :
    pathComponents p = pathComponents (stripSlashes p) ++ [.here] := by
  unfold pathComponents
  rw [splitOn_stripSlashes, endsWith_stripSlashes, if_pos h, if_neg Bool.false_ne_true,
    List.append_nil]

theorem stripSlashes_of_not_endsWith {p : Bytes} (h : ¬ endsWith p [slash] = true) :
    stripSlashes p = p := by
  refine List.rdropWhile_eq_self_iff.2 fun hne hslash => h (endsWith_iff.2 ?_)
  refine ⟨p.dropLast, ?_⟩
  rw [← of_decide_eq_true hslash]
  exact List.dropLast_append_getLast hne

theorem isAbsolute_stripSlashes {p : Bytes} (h : stripSlashes p ≠ []) :
    isAbsolute (stripSlashes p) = isAbsolute p := by
  obtain ⟨rest, hrest⟩ : stripSlashes p <+: p := List.rdropWhile_prefix _ p
  rw [← congrArg isAbsolute hrest, isAbsolute_append h]

/-! ## What is at a path -/

/-- The path at which an object lies. -/
def entryPath (pull : PullObject) : Bytes :=
  if pull.type = .kTypeDirectory then stripSlashes (cstr pull.path) else cstr pull.path

/-- What is there; a symlink is not followed. -/
def Mount.entry (m : Mount) (d : ClientDisk) (pull : PullObject) : Lookup Bytes :=
  m.lookup d false (entryPath pull)

/-- A node has the announced type, and a symlink the announced target. -/
def Matches (dest : Bytes) (pull : PullObject) : Node Bytes Bytes Bytes → Prop
  | .dir _ _ => pull.type = .kTypeDirectory
  | .file _ => pull.type = .kTypeFile
  | .symlink target => pull.type = .kTypeSymlink ∧ target = cstr (linkTarget dest pull.symlink)

/-- The destination holds an object of the announced type at the path. -/
def Mount.Shaped (m : Mount) (dest : Bytes) (d : ClientDisk) (pull : PullObject) : Prop :=
  ∃ i node, m.entry d pull = .inode i ∧ d.nodes[i]? = some node ∧ Matches dest pull node

/-- The destination holds the announced object at the path: a directory, a symlink with the target,
or a file with the digest. -/
def Mount.Holds (m : Mount) (dest : Bytes) (sha256 : Bytes → Bytes) (d : ClientDisk)
    (pull : PullObject) : Prop :=
  ∃ i node, m.entry d pull = .inode i ∧ d.nodes[i]? = some node ∧ Matches dest pull node ∧
    ∀ content, node = .file content →
      hexlify (sha256 content) = (pull.transfer.getD ⟨[], 0, []⟩).sha256

/-- The file at the path has the announced digest. -/
def Mount.HasDigest (m : Mount) (sha256 : Bytes → Bytes) (d : ClientDisk) (pull : PullObject) :
    Prop :=
  ∃ i content, m.entry d pull = .inode i ∧ d.nodes[i]? = some (.file content) ∧
    hexlify (sha256 content) = (pull.transfer.getD ⟨[], 0, []⟩).sha256

/-- What is at the path of an object already, is of the announced type, and a file is not that of
another object too. -/
def Mount.Unspoilt (m : Mount) (dest : Bytes) (d : ClientDisk) (others : List PullObject)
    (pull : PullObject) : Prop :=
  ∀ i ∈ (m.entry d pull).inode?,
    (∃ node ∈ d.nodes[i]?, Matches dest pull node) ∧
      (pull.type = .kTypeFile → ∀ q ∈ others, q.type = .kTypeFile → m.entry d q ≠ .inode i)

instance (dest : Bytes) (pull : PullObject) : DecidablePred (Matches dest pull)
  | .dir _ _ => inferInstanceAs (Decidable (_ = _))
  | .file _ => inferInstanceAs (Decidable (_ = _))
  | .symlink _ => inferInstanceAs (Decidable (_ ∧ _))

instance (m : Mount) (dest : Bytes) (d : ClientDisk) (others : List PullObject)
    (pull : PullObject) : Decidable (m.Unspoilt dest d others pull) :=
  inferInstanceAs (Decidable (∀ i ∈ _, (∃ node ∈ _, _) ∧ (_ → ∀ q ∈ _, _ → _)))

namespace Mount

variable {m : Mount} {dest : Bytes} {d d' : ClientDisk} {follow : Bool} {path : Bytes}
  {pull : PullObject}

theorem lookup_grows (h : d.Grows d') {i : Nat} (hlookup : m.lookup d follow path = .inode i) :
    m.lookup d' follow path = .inode i := by
  unfold lookup at *
  split at hlookup
  · cases hlookup
  · next hpath =>
    rw [if_neg hpath]
    exact h.resolve hlookup

theorem lookup_lt {i : Nat} (h : m.lookup d follow path = .inode i) : i < d.nodes.length := by
  unfold lookup at h
  split at h
  · cases h
  · obtain ⟨node, hnode⟩ := Option.isSome_iff_exists.1 (Disk.resolve_isSome h)
    exact (List.getElem?_eq_some_iff.1 hnode).1

theorem lookup_create {dir : Nat} {n : Bytes} (node : Node Bytes Bytes Bytes)
    (h : m.lookup d false path = .missing dir n) :
    m.lookup (d.create dir n node) false path = .inode d.nodes.length := by
  unfold lookup at *
  split at h
  · cases h
  · next hpath =>
    rw [if_neg hpath]
    exact Disk.resolve_create Bool.noConfusion h

theorem lookup_follow (h : ∀ i target, m.lookup d false path = .inode i →
    d.nodes[i]? ≠ some (.symlink target)) : m.lookup d true path = m.lookup d false path := by
  unfold lookup at *
  split at h
  · next hpath => rw [if_pos hpath, if_pos hpath]
  · next hpath =>
    rw [if_neg hpath, if_neg hpath]
    exact Disk.resolve_follow h

/-- What a path leads to behind the slashes at its end, if there is a directory before them. -/
theorem lookup_of_stripSlashes {p : Bytes} {i parent : Nat} {entries : List (Bytes × Nat)}
    (h : m.lookup d false (stripSlashes p) = .inode i)
    (hdir : d.nodes[i]? = some (.dir parent entries)) : m.lookup d true p = .inode i := by
  have hfollow : m.lookup d true (stripSlashes p) = .inode i := by
    rw [← h]
    refine lookup_follow fun j target hj htarget => ?_
    obtain rfl := Lookup.inode.inj (h.symm.trans hj)
    cases hdir.symm.trans htarget
  by_cases hslash : endsWith p [slash] = true
  · unfold lookup at hfollow ⊢
    split at hfollow
    · cases hfollow
    · next hne =>
      have hp : p ≠ [] := by
        rintro rfl
        exact hne rfl
      rw [if_neg hp, pathComponents_of_endsWith hslash, ← isAbsolute_stripSlashes hne]
      exact Disk.resolve_append_here hfollow hdir
  · rwa [stripSlashes_of_not_endsWith hslash] at hfollow

/-- Such a path leads to the directory even if symlinks are not followed. -/
theorem lookup_slashes {p : Bytes} {i parent : Nat} {entries : List (Bytes × Nat)}
    (h : m.lookup d false (stripSlashes p) = .inode i)
    (hdir : d.nodes[i]? = some (.dir parent entries)) : m.lookup d false p = .inode i := by
  by_cases hslash : endsWith p [slash] = true
  · rw [← lookup_of_stripSlashes h hdir, lookup_follow]
    intro j target hj
    unfold lookup at hj
    split at hj
    · cases hj
    · rw [pathComponents_of_endsWith hslash] at hj
      obtain ⟨parent', entries', hnode⟩ := Disk.resolve_here hj
      rw [hnode]
      rintro ⟨⟩
  · rwa [stripSlashes_of_not_endsWith hslash] at h

theorem entry_file (h : pull.type = .kTypeFile) (m : Mount) (d : ClientDisk) :
    m.entry d pull = m.lookup d false (cstr pull.path) := by
  rw [entry, entryPath, if_neg (by rw [h]; exact PullObject.Type.noConfusion)]

end Mount

theorem Matches.grows {dest : Bytes} {pull : PullObject} {node node' : Node Bytes Bytes Bytes}
    (h : node.Grows node') : Matches dest pull node' ↔ Matches dest pull node := by
  cases node <;> cases node' <;> first | exact h.elim | skip
  · exact Iff.rfl
  · exact Iff.rfl
  · rw [show _ = _ from h]

namespace Mount

variable {m : Mount} {dest : Bytes} {sha256 : Bytes → Bytes} {d d' : ClientDisk}
  {pull : PullObject}

theorem Shaped.grows (h : m.Shaped dest d pull) (hgrows : d.Grows d') : m.Shaped dest d' pull := by
  obtain ⟨i, node, hentry, hnode, hmatches⟩ := h
  obtain ⟨node', hnode', hsame⟩ := hgrows i node hnode
  exact ⟨i, node', lookup_grows hgrows hentry, hnode', (Matches.grows hsame).2 hmatches⟩

theorem Shaped.entry (h : m.Shaped dest d pull) (hgrows : d.Grows d') :
    m.entry d' pull = m.entry d pull := by
  obtain ⟨i, node, hentry, -⟩ := h
  rw [hentry]
  exact lookup_grows hgrows hentry

theorem HasDigest.grows (h : m.HasDigest sha256 d pull) (hgrows : d.Grows d')
    (hfiles : ∀ i content, d.nodes[i]? = some (.file content) → m.entry d pull = .inode i →
      d'.nodes[i]? = some (.file content)) : m.HasDigest sha256 d' pull := by
  obtain ⟨i, content, hentry, hnode, hdigest⟩ := h
  exact ⟨i, content, lookup_grows hgrows hentry, hfiles i content hnode hentry, hdigest⟩

/-- What is there, the path of the object leads to, whether or not slashes at its end are minded. -/
theorem Shaped.lookup (h : m.Shaped dest d pull) :
    m.lookup d false (cstr pull.path) = m.entry d pull := by
  obtain ⟨i, node, hentry, hnode, hmatches⟩ := h
  by_cases htype : pull.type = .kTypeDirectory
  · cases node with
    | dir parent entries =>
      rw [hentry]
      rw [Mount.entry, entryPath, if_pos htype] at hentry
      exact lookup_slashes hentry hnode
    | file content =>
      have hfile : pull.type = .kTypeFile := hmatches
      rw [htype] at hfile
      cases hfile
    | symlink target =>
      have hsymlink : pull.type = .kTypeSymlink := hmatches.1
      rw [htype] at hsymlink
      cases hsymlink
  · rw [Mount.entry, entryPath, if_neg htype]

/-- What is there and does not match, will never match. -/
theorem not_shaped_grows {i : Nat} {node : Node Bytes Bytes Bytes}
    (hentry : m.entry d pull = .inode i) (hnode : d.nodes[i]? = some node)
    (hmatches : ¬ Matches dest pull node) (hgrows : d.Grows d') : ¬ m.Shaped dest d' pull := by
  rintro ⟨i', node', hentry', hnode', hmatches'⟩
  obtain rfl := Lookup.inode.inj ((lookup_grows hgrows hentry).symm.trans hentry')
  obtain ⟨new, hnew, hsame⟩ := hgrows i node hnode
  obtain rfl := Option.some.inj (hnew.symm.trans hnode')
  exact hmatches ((Matches.grows hsame).1 hmatches')

theorem Shaped.holds (h : m.Shaped dest d pull)
    (hdigest : pull.type = .kTypeFile → m.HasDigest sha256 d pull) :
    m.Holds dest sha256 d pull := by
  obtain ⟨i, node, hentry, hnode, hmatches⟩ := h
  refine ⟨i, node, hentry, hnode, hmatches, ?_⟩
  rintro content rfl
  obtain ⟨i', content', hentry', hnode', hdigest⟩ := hdigest hmatches
  obtain rfl := Lookup.inode.inj (hentry.symm.trans hentry')
  obtain rfl := Node.file.inj (Option.some.inj (hnode.symm.trans hnode'))
  exact hdigest

theorem type_of_hasDigest (h : m.Shaped dest d pull) (hdigest : m.HasDigest sha256 d pull) :
    pull.type = .kTypeFile := by
  obtain ⟨i, node, hentry, hnode, hmatches⟩ := h
  obtain ⟨i', content, hentry', hfile, -⟩ := hdigest
  obtain rfl := Lookup.inode.inj (hentry.symm.trans hentry')
  obtain rfl := Option.some.inj (hnode.symm.trans hfile)
  exact hmatches

/-! ## What the calls do -/

theorem create_grows {call : CreateCall} (h : m.create d call = some d') : d.Grows d' := by
  have hlookup : ∀ (follow : Bool) (path : Bytes) (node : Nat → Node Bytes Bytes Bytes),
      (match m.lookup d follow path with
        | .inode _ => some d
        | .missing dir n => some (d.create dir n (node dir))
        | .error => none) = some d' → d.Grows d' := by
    intro follow path node hsome
    split at hsome
    · obtain rfl := Option.some.inj hsome
      exact .refl d
    · obtain rfl := Option.some.inj hsome
      exact d.grows_create _ _ _
    · cases hsome
  cases call with
  | openat path =>
    rw [create] at h
    split at h
    · split at h
      · obtain rfl := Option.some.inj h
        exact .refl d
      · cases h
    · obtain rfl := Option.some.inj h
      exact d.grows_create _ _ _
    · cases h
  | mkdirat path perms => exact hlookup false (stripSlashes path) (fun dir => .dir dir []) h
  | symlinkat target path =>
    rw [create] at h
    split at h
    · cases h
    · exact hlookup false path (fun _ => .symlink target) h

/-- The file that is opened is there. -/
theorem openFile_some {path content : Bytes} {i : Nat} (h : m.openFile d path = some (i, content)) :
    m.lookup d true path = .inode i ∧ d.nodes[i]? = some (.file content) := by
  unfold openFile at h
  split at h
  · next j hlookup =>
    split at h
    · next content' hfile =>
      cases h
      exact ⟨hlookup, hfile⟩
    · cases h
  · cases h

/-- A stream writes into the file it opens, or nowhere. -/
theorem stream_some {calls : StreamCalls} (h : m.stream d calls pull = some d') :
    d' = d ∨ ∃ i content content', m.openFile d (cstr pull.path) = some (i, content) ∧
      d' = d.write i content' := by
  unfold stream at h
  split at h
  · exact .inl (Option.some.inj h).symm
  · split at h
    · cases h
    · next i content hopen =>
      split at h
      · cases h
      · split at h
        · exact .inr ⟨i, content, _, hopen, (Option.some.inj h).symm⟩
        · exact .inl (Option.some.inj h).symm

theorem stream_grows {calls : StreamCalls} (h : m.stream d calls pull = some d') : d.Grows d' := by
  rcases stream_some h with rfl | ⟨i, content, content', hopen, rfl⟩
  · exact .refl d'
  · exact d.grows_write (openFile_some hopen).2 content'

theorem shaped_create {dir : Nat} {n : Bytes} {node : Node Bytes Bytes Bytes}
    (h : m.entry d pull = .missing dir n) (hmatches : Matches dest pull node) :
    m.Shaped dest (d.create dir n node) pull :=
  ⟨d.nodes.length, node, lookup_create node h, d.nodes_create_new dir n node, hmatches⟩

/-- A new object shares its inode with no other one. -/
theorem entry_create_ne {dir : Nat} {n : Bytes} {node : Node Bytes Bytes Bytes}
    (h : m.entry d pull = .missing dir n) {q : PullObject} (hq : m.Shaped dest d q) {i : Nat}
    (hi : m.entry (d.create dir n node) pull = .inode i) :
    m.entry (d.create dir n node) q ≠ .inode i := by
  obtain rfl := Lookup.inode.inj ((lookup_create node h).symm.trans hi)
  intro hentry
  rw [hq.entry (d.grows_create dir n node)] at hentry
  exact absurd (lookup_lt hentry) (Nat.lt_irrefl _)

theorem Unspoilt.matches {others : List PullObject} (h : m.Unspoilt dest d others pull) {i : Nat}
    (hentry : m.entry d pull = .inode i) :
    ∃ node, d.nodes[i]? = some node ∧ Matches dest pull node :=
  (h i (Lookup.mem_inode?.2 hentry)).1

variable (dest) in
/-- What is opened as a file is at the path, if that is no symlink. -/
theorem lookup_entry (htype : pull.type = .kTypeFile)
    (h : ∀ i, m.entry d pull = .inode i →
      ∃ node, d.nodes[i]? = some node ∧ Matches dest pull node) :
    m.lookup d true (cstr pull.path) = m.entry d pull := by
  rw [entry_file htype]
  refine lookup_follow fun i target hlookup hnode => ?_
  obtain ⟨node, hnode', hmatches⟩ := h i ((entry_file htype m d).trans hlookup)
  obtain rfl := Option.some.inj (hnode.symm.trans hnode')
  have hsymlink : pull.type = .kTypeSymlink := hmatches.1
  rw [htype] at hsymlink
  cases hsymlink

/-- What a call leaves that creates an object. -/
structure Created (m : Mount) (dest : Bytes) (d d' : ClientDisk) (pull : PullObject) : Prop where
  grows : d.Grows d'
  files : ∀ (i : Nat) (content : Bytes), d.nodes[i]? = some (.file content) →
    d'.nodes[i]? = some (.file content)
  shaped : m.Shaped dest d' pull

theorem Created.stays {others : List PullObject} (h : m.Unspoilt dest d others pull) {i : Nat}
    (hentry : m.entry d pull = .inode i) : Created m dest d d pull := by
  obtain ⟨node, hnode, hmatches⟩ := h.matches hentry
  exact ⟨.refl d, fun _ _ h => h, i, node, hentry, hnode, hmatches⟩

theorem Created.new {dir : Nat} {n : Bytes} {node : Node Bytes Bytes Bytes}
    (h : m.entry d pull = .missing dir n) (hmatches : Matches dest pull node) :
    Created m dest d (d.create dir n node) pull :=
  ⟨d.grows_create dir n node, fun _ _ => Disk.create_file, shaped_create h hmatches⟩

/-- **What the create calls do.** Where nothing is, there is a new object. What is there already
stays there; it has to be unspoilt. -/
theorem create_eq {others : List PullObject} (hunspoilt : m.Unspoilt dest d others pull)
    {call : CreateCall} (hcall : createCall dest pull = .ok call) (h : m.create d call = some d') :
    Created m dest d d' pull ∧ (d' = d ∨
      ∃ dir n node, m.entry d pull = .missing dir n ∧ d' = d.create dir n node) := by
  cases htype : pull.type with
  | kTypeFile =>
    rw [createCall, htype] at hcall
    obtain rfl := Except.ok.inj hcall
    rw [create, lookup_entry dest htype fun _ => hunspoilt.matches] at h
    cases hentry : m.entry d pull with
    | inode i =>
      rw [hentry] at h
      simp only at h
      split at h
      · obtain rfl := Option.some.inj h
        exact ⟨.stays hunspoilt hentry, .inl rfl⟩
      · cases h
    | missing dir n =>
      rw [hentry] at h
      obtain rfl := Option.some.inj h
      exact ⟨.new hentry htype, .inr ⟨dir, n, _, rfl, rfl⟩⟩
    | error =>
      rw [hentry] at h
      cases h
  | kTypeDirectory =>
    have hlookup : m.lookup d false (stripSlashes (cstr pull.path)) = m.entry d pull := by
      rw [entry, entryPath, if_pos htype]
    rw [createCall, htype] at hcall
    obtain rfl := Except.ok.inj hcall
    rw [create, hlookup] at h
    cases hentry : m.entry d pull with
    | inode i =>
      rw [hentry] at h
      obtain rfl := Option.some.inj h
      exact ⟨.stays hunspoilt hentry, .inl rfl⟩
    | missing dir n =>
      rw [hentry] at h
      obtain rfl := Option.some.inj h
      exact ⟨.new hentry htype, .inr ⟨dir, n, _, rfl, rfl⟩⟩
    | error =>
      rw [hentry] at h
      cases h
  | kTypeSymlink =>
    have hlookup : m.lookup d false (cstr pull.path) = m.entry d pull := by
      rw [entry, entryPath, if_neg (by rw [htype]; exact PullObject.Type.noConfusion)]
    rw [createCall, htype] at hcall
    obtain rfl := Except.ok.inj hcall
    rw [create, hlookup] at h
    split at h
    · cases h
    · cases hentry : m.entry d pull with
      | inode i =>
        rw [hentry] at h
        obtain rfl := Option.some.inj h
        exact ⟨.stays hunspoilt hentry, .inl rfl⟩
      | missing dir n =>
        rw [hentry] at h
        obtain rfl := Option.some.inj h
        exact ⟨.new hentry ⟨htype, rfl⟩, .inr ⟨dir, n, _, rfl, rfl⟩⟩
      | error =>
        rw [hentry] at h
        cases h
  | other n =>
    rw [createCall, htype] at hcall
    cases hcall

/-- What is opened for an object that is no symlink, is its file. -/
theorem openFile_eq (hshaped : m.Shaped dest d pull) (htype : pull.type ≠ .kTypeSymlink) {i : Nat}
    {content : Bytes} (h : m.openFile d (cstr pull.path) = some (i, content)) :
    pull.type = .kTypeFile ∧ m.entry d pull = .inode i ∧ d.nodes[i]? = some (.file content) := by
  obtain ⟨hlookup, hfile⟩ := openFile_some h
  obtain ⟨j, node, hentry, hnode, hmatches⟩ := hshaped
  cases node with
  | dir parent entries =>
    have hdirectory : pull.type = .kTypeDirectory := hmatches
    rw [entry, entryPath, if_pos hdirectory] at hentry
    obtain rfl := Lookup.inode.inj ((lookup_of_stripSlashes hentry hnode).symm.trans hlookup)
    cases hnode.symm.trans hfile
  | file old =>
    refine ⟨hmatches, ?_, hfile⟩
    rw [← hlookup, lookup_entry dest hmatches]
    intro k hk
    obtain rfl := Lookup.inode.inj (hentry.symm.trans hk)
    exact ⟨_, hnode, hmatches⟩
  | symlink target => exact absurd hmatches.1 htype

/-- A stream changes no file but that of its object. -/
theorem stream_eq (hshaped : m.Shaped dest d pull) (htype : pull.type ≠ .kTypeSymlink)
    {calls : StreamCalls} (h : m.stream d calls pull = some d') {i : Nat} {content : Bytes}
    (hfile : d.nodes[i]? = some (.file content))
    (hi : pull.type = .kTypeFile → m.entry d pull ≠ .inode i) :
    d'.nodes[i]? = some (.file content) := by
  rcases stream_some h with rfl | ⟨j, old, new, hopen, rfl⟩
  · exact hfile
  · obtain ⟨hpull, hentry, -⟩ := openFile_eq hshaped htype hopen
    have hij : j ≠ i := by
      rintro rfl
      exact hi hpull hentry
    exact (List.getElem?_set_ne hij).trans hfile

/-- A file whose digest was found to be right, has that digest. -/
theorem hasDigest_of_reads (hshaped : m.Shaped dest d pull) (htype : pull.type ≠ .kTypeSymlink)
    {calls : IntegrityCalls} (hreads : m.reads d calls pull = true)
    (hsha : ∀ bytes digest, calls.sha256Final bytes = some digest → digest = sha256 bytes)
    (hverdict : calls.verdict (pull.transfer.getD ⟨[], 0, []⟩).sha256 = .verified) :
    m.HasDigest sha256 d pull := by
  have hfinish := IntegrityCalls.finish_of_verified _ _ hverdict
  rw [IntegrityCalls.finish, Sha256Builder.finish, IntegrityCalls.builder_ctx] at hfinish
  obtain ⟨digest, hdigest, hhex⟩ := Option.map_eq_some_iff.1 hfinish
  have hcalls : (calls.opens && calls.eof) = true := by
    unfold IntegrityCalls.verdict at hverdict
    split at hverdict
    · cases hverdict
    · next hopens =>
      split at hverdict
      · cases hverdict
      · next heof =>
        rw [Bool.not_eq_true, Bool.not_eq_false'] at hopens heof
        rw [hopens, heof]
        rfl
  rw [reads, hcalls, Bool.not_true, Bool.false_or, decide_eq_true_iff] at hreads
  obtain ⟨⟨i, content⟩, hopen, rfl⟩ := Option.map_eq_some_iff.1 hreads
  obtain ⟨-, hentry, hfile⟩ := openFile_eq hshaped htype hopen
  refine ⟨i, _, hentry, hfile, ?_⟩
  rw [← hsha _ _ hdigest]
  exact hhex

end Mount

end Netpull
