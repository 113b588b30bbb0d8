import Netpull.Lib.Worklist
import Netpull.Server.Path

/-!
# FastCrawler

The crawler of the server, over the answers of the kernel: `Kernel Fd` has one field for every
system call the crawler makes. `HandleObject` is virtual in the source; here it is a state-passing
function `handleObject`, which may bring the process down. Log messages are left out.

`visit_eq_foldlM` separates the two: whatever the handler is, visiting a root hands it, one after
the other, the objects that `found` lists, until it fails.
-/

namespace Netpull

/-! ## What the kernel answers -/

/-- A `d_type`, or the file type of an `st_mode`. -/
inductive DType
  | unknown | fifo | chr | dir | blk | reg | lnk | sock
deriving DecidableEq, Repr

structure Timespec where
  tvSec : Int64
  tvNsec : Int64
deriving DecidableEq, Repr

/-- The fields of `struct stat` the server reads. -/
structure Stat where
  stMode : UInt32
  stUid : UInt32
  stGid : UInt32
  stSize : Int64
  stAtim : Timespec
  stMtim : Timespec
deriving DecidableEq, Repr

/-- A `linux_dirent64`. -/
structure Dirent where
  dIno : UInt64
  dType : DType
  dName : Bytes
deriving DecidableEq, Repr

/-- The answers to the system calls of the crawler. `none` is a failed call. -/
structure Kernel (Fd : Type) where
  /-- `openat` with `O_DIRECTORY | O_RDONLY`; without a descriptor it is `AT_FDCWD`. -/
  openat : Option Fd → Bytes → Option Fd
  /-- The results of the successive `getdents64` calls on a directory, up to the first that is not
  positive. -/
  getdents64 : Fd → List (List Dirent)
  /-- `fstatat` with `AT_SYMLINK_NOFOLLOW`. -/
  fstatat : Fd → Bytes → Option Stat
  readlinkat : Fd → Bytes → Option Bytes
  /-- The `dup` made for a directory entry. -/
  dup : Fd → Bytes → Option Fd

/-! ## Objects -/

/-- `FsObject::Type`. -/
inductive FsObject.Type
  | directory | file | symlink
deriving DecidableEq, Repr

/-- An entity on the file system, as `HandleObject` gets it. -/
structure FsObject where
  type : FsObject.Type
  root : Bytes
  name : Bytes
  path : Bytes
  linkTarget : Bytes
  inode : UInt64
  stat : Stat
deriving DecidableEq, Repr

/-- A directory that is still to be read. -/
structure QueuedObjectCrawl (Fd : Type) where
  parentfd : Fd
  parent : Bytes
  name : Bytes

/-- The file type in an `st_mode` (the `S_IS..` tests in their order). -/
def modeType (stMode : UInt32) : DType :=
  let fmt := stMode &&& 0o170000
  if fmt == 0o100000 then .reg
  else if fmt == 0o040000 then .dir
  else if fmt == 0o020000 then .chr
  else if fmt == 0o060000 then .blk
  else if fmt == 0o010000 then .fifo
  else if fmt == 0o120000 then .lnk
  else if fmt == 0o140000 then .sock
  else .unknown

/-- The type an object gets, for the entry types that are not ignored. -/
def objectType : DType → Option FsObject.Type
  | .reg => some .file
  | .dir => some .directory
  | .lnk => some .symlink
  | _ => none

section Crawl

variable {Fd σ : Type} (K : Kernel Fd) (handleObject : σ → FsObject → Except Fault σ)

/-- `FindUnresolvedLinkTargetAt`: the buffer is read back as a C string. -/
def findUnresolvedLinkTargetAt (rawparentfd : Fd) (child : Bytes) : Option Bytes :=
  (K.readlinkat rawparentfd (cstr child)).map cstr

/-- The body of the inner loop of `PumpDirectoryEntries`, for one directory entry. -/
def pumpEntry (root : Bytes) (fd : Fd) (fullPath : Bytes) (dp : Dirent) (s : σ)
    (queue : List (QueuedObjectCrawl Fd)) : Except Fault (σ × List (QueuedObjectCrawl Fd)) :=
  if dp.dName == text "." || dp.dName == text ".." then
    .ok (s, queue)
  else
    match K.fstatat fd dp.dName with
    | none => .ok (s, queue)
    | some stat =>
      let dType := if dp.dType = .unknown then modeType stat.stMode else dp.dType
      match objectType dType with
      | none => .ok (s, queue)
      | some type => do
        let target := if type = .symlink then findUnresolvedLinkTargetAt K fd dp.dName else none
        let object : FsObject :=
          { type, root, name := dp.dName, path := join fullPath dp.dName,
            linkTarget := target.getD [], inode := dp.dIno, stat }
        let s ← handleObject s object
        if dType = .dir then
          match K.dup fd dp.dName with
          | some newfd => .ok (s, queue ++ [⟨newfd, fullPath, dp.dName⟩])
          | none => .ok (s, queue)
        else .ok (s, queue)

/-- The inner loop of `PumpDirectoryEntries`, over the entries of one buffer. -/
def pumpBuffer (root : Bytes) (fd : Fd) (fullPath : Bytes) :
    List Dirent → σ → List (QueuedObjectCrawl Fd) →
      Except Fault (σ × List (QueuedObjectCrawl Fd))
  | [], s, queue => .ok (s, queue)
  | dp :: rest, s, queue => do
    let (s, queue) ← pumpEntry K handleObject root fd fullPath dp s queue
    pumpBuffer root fd fullPath rest s queue

/-- The outer loop of `PumpDirectoryEntries`, over the filled buffers. -/
def pumpBuffers (root : Bytes) (fd : Fd) (fullPath : Bytes) :
    List (List Dirent) → σ → List (QueuedObjectCrawl Fd) →
      Except Fault (σ × List (QueuedObjectCrawl Fd))
  | [], s, queue => .ok (s, queue)
  | buffer :: rest, s, queue => do
    let (s, queue) ← pumpBuffer K handleObject root fd fullPath buffer s queue
    pumpBuffers root fd fullPath rest s queue

/-- `FastCrawler::PumpDirectoryEntries`. -/
def pumpDirectoryEntries (root : Bytes) (rawparentfd : Option Fd) (parent name : Bytes) (s : σ)
    (queue : List (QueuedObjectCrawl Fd)) : Except Fault (σ × List (QueuedObjectCrawl Fd)) :=
  match K.openat rawparentfd (cstr name) with
  | none => .ok (s, queue)
  | some fd => pumpBuffers K handleObject root fd (join parent name) (K.getdents64 fd) s queue

/-- The loop of `FastCrawler::Visit`, for at most `fuel` rounds. The item stays at the front while
its directory is read. -/
def visitLoop (root : Bytes) :
    Nat → σ → List (QueuedObjectCrawl Fd) → Except Fault (σ × List (QueuedObjectCrawl Fd))
  | 0, s, queue => .ok (s, queue)
  | _ + 1, s, [] => .ok (s, [])
  | fuel + 1, s, item :: rest => do
    let (s, queue) ← pumpDirectoryEntries K handleObject root (some item.parentfd) item.parent
      item.name s (item :: rest)
    visitLoop root fuel s queue.tail

/-- `FastCrawler::Visit`. -/
def visit (fuel : Nat) (root : Bytes) (s : σ) :
    Except Fault (σ × List (QueuedObjectCrawl Fd)) := do
  netpullAssert (isResolved root) (text "Trying to visit unresolved root " ++ root)
  let (s, queue) ← pumpDirectoryEntries K handleObject root none [] root s []
  visitLoop K handleObject root fuel s queue

end Crawl

/-! ## The objects a visit finds -/

section Found

variable {Fd : Type} (K : Kernel Fd)

/-- The object an entry stands for, if it is not skipped. -/
def entryObject (root : Bytes) (fd : Fd) (fullPath : Bytes) (dp : Dirent) : Option FsObject :=
  if dp.dName == text "." || dp.dName == text ".." then none
  else do
    let stat ← K.fstatat fd dp.dName
    let type ← objectType (if dp.dType = .unknown then modeType stat.stMode else dp.dType)
    let target := if type = .symlink then findUnresolvedLinkTargetAt K fd dp.dName else none
    return { type, root, name := dp.dName, path := join fullPath dp.dName,
             linkTarget := target.getD [], inode := dp.dIno, stat }

/-- What an entry adds to the queue. -/
def entrySpawn (root : Bytes) (fd : Fd) (fullPath : Bytes) (dp : Dirent) :
    List (QueuedObjectCrawl Fd) :=
  match entryObject K root fd fullPath dp with
  | some object =>
    if object.type = .directory then
      ((K.dup fd dp.dName).map fun newfd => ⟨newfd, fullPath, dp.dName⟩).toList
    else []
  | none => []

/-- What `PumpDirectoryEntries` hands to the handler and what it adds to the queue. -/
def pumped (root : Bytes) (rawparentfd : Option Fd) (parent name : Bytes) :
    List FsObject × List (QueuedObjectCrawl Fd) :=
  match K.openat rawparentfd (cstr name) with
  | none => ([], [])
  | some fd =>
    let entries := (K.getdents64 fd).flatten
    (entries.filterMap (entryObject K root fd (join parent name)),
      entries.flatMap (entrySpawn K root fd (join parent name)))

def expand (root : Bytes) (item : QueuedObjectCrawl Fd) :
    List FsObject × List (QueuedObjectCrawl Fd) :=
  pumped K root (some item.parentfd) item.parent item.name

/-- The objects found below a root, in the order they are handled, and the queue that is left. -/
def found (fuel : Nat) (root : Bytes) : List FsObject × List (QueuedObjectCrawl Fd) :=
  let r := Worklist.run (expand K root) fuel (pumped K root none [] root).2
  ((pumped K root none [] root).1 ++ r.1, r.2)

variable {σ : Type} (handleObject : σ → FsObject → Except Fault σ)

theorem objectType_directory {d : DType} {t : FsObject.Type} (h : objectType d = some t) :
    d = .dir ↔ t = .directory := by
  cases d <;> simp [objectType] at h <;> simp [← h]

theorem objectType_symlink {d : DType} {t : FsObject.Type} (h : objectType d = some t) :
    d = .lnk ↔ t = .symlink := by
  cases d <;> simp [objectType] at h <;> simp [← h]

theorem pumpEntry_eq (root : Bytes) (fd : Fd) (fullPath : Bytes) (dp : Dirent) (s : σ)
    (queue : List (QueuedObjectCrawl Fd)) :
    pumpEntry K handleObject root fd fullPath dp s queue =
      (entryObject K root fd fullPath dp).toList.foldlM handleObject s >>= fun s =>
        .ok (s, queue ++ entrySpawn K root fd fullPath dp) := by
  unfold entrySpawn pumpEntry entryObject
  split
  · simp [pure, Except.pure]
  · cases hstat : K.fstatat fd dp.dName with
    | none => simp [pure, Except.pure]
    | some stat =>
      cases htype : objectType (if dp.dType = .unknown then modeType stat.stMode else dp.dType) with
      | none => simp [htype, pure, Except.pure]
      | some type =>
        have hdir := objectType_directory htype
        cases K.dup fd dp.dName with
        | none => simp [htype]
        | some newfd =>
          simp only [htype, hdir, Option.bind_eq_bind, Option.bind_some, Option.pure_def,
            Option.toList_some, List.foldlM_cons, List.foldlM_nil, bind_pure, Option.map_some]
          by_cases h : type = .directory <;> simp [h]

theorem pumpBuffer_eq (root : Bytes) (fd : Fd) (fullPath : Bytes) (entries : List Dirent) (s : σ)
    (queue : List (QueuedObjectCrawl Fd)) :
    pumpBuffer K handleObject root fd fullPath entries s queue =
      (entries.filterMap (entryObject K root fd fullPath)).foldlM handleObject s >>= fun s =>
        .ok (s, queue ++ entries.flatMap (entrySpawn K root fd fullPath)) := by
  induction entries generalizing s queue with
  | nil => simp [pumpBuffer, pure, Except.pure]
  | cons dp rest ih =>
    have hcons : (dp :: rest).filterMap (entryObject K root fd fullPath) =
        (entryObject K root fd fullPath dp).toList ++
          rest.filterMap (entryObject K root fd fullPath) := by
      cases h : entryObject K root fd fullPath dp <;> simp [h]
    rw [pumpBuffer, pumpEntry_eq, hcons, List.foldlM_append]
    simp only [bind_assoc, List.flatMap_cons]
    congr 1
    funext s'
    simp only [ok_bind, ih, List.append_assoc]

theorem pumpBuffers_eq (root : Bytes) (fd : Fd) (fullPath : Bytes) (buffers : List (List Dirent))
    (s : σ) (queue : List (QueuedObjectCrawl Fd)) :
    pumpBuffers K handleObject root fd fullPath buffers s queue =
      (buffers.flatten.filterMap (entryObject K root fd fullPath)).foldlM handleObject s >>=
        fun s => .ok (s, queue ++ buffers.flatten.flatMap (entrySpawn K root fd fullPath)) := by
  induction buffers generalizing s queue with
  | nil => simp [pumpBuffers, pure, Except.pure]
  | cons buffer rest ih =>
    rw [pumpBuffers, pumpBuffer_eq, List.flatten_cons, List.filterMap_append, List.foldlM_append]
    simp only [bind_assoc, List.flatMap_append]
    congr 1
    funext s'
    simp only [ok_bind, ih, List.append_assoc]

theorem pumpDirectoryEntries_eq (root : Bytes) (rawparentfd : Option Fd) (parent name : Bytes)
    (s : σ) (queue : List (QueuedObjectCrawl Fd)) :
    pumpDirectoryEntries K handleObject root rawparentfd parent name s queue =
      (pumped K root rawparentfd parent name).1.foldlM handleObject s >>= fun s =>
        .ok (s, queue ++ (pumped K root rawparentfd parent name).2) := by
  unfold pumpDirectoryEntries pumped
  cases K.openat rawparentfd (cstr name) with
  | none => simp [pure, Except.pure]
  | some fd => exact pumpBuffers_eq K handleObject root fd _ _ s queue

theorem visitLoop_eq (root : Bytes) (fuel : Nat) (s : σ) (queue : List (QueuedObjectCrawl Fd)) :
    visitLoop K handleObject root fuel s queue =
      (Worklist.run (expand K root) fuel queue).1.foldlM handleObject s >>= fun s =>
        .ok (s, (Worklist.run (expand K root) fuel queue).2) := by
  induction fuel generalizing s queue with
  | zero => rfl
  | succ fuel ih =>
    cases queue with
    | nil => rfl
    | cons item rest =>
      rw [visitLoop, pumpDirectoryEntries_eq, Worklist.run_cons, List.foldlM_append]
      simp only [bind_assoc]
      congr 1
      funext s'
      simp only [ok_bind, ih, List.cons_append, List.tail_cons, expand]

/-- Visiting a root hands the objects found below it to the handler one after the other. -/
theorem visit_eq_foldlM (fuel : Nat) (root : Bytes) (hroot : isResolved root = true) (s : σ) :
    visit K handleObject fuel root s =
      (found K fuel root).1.foldlM handleObject s >>= fun s => .ok (s, (found K fuel root).2) := by
  rw [visit, hroot, netpullAssert_true, pumpDirectoryEntries_eq, found, List.foldlM_append]
  simp only [ok_bind, bind_assoc]
  congr 1
  funext s'
  simp only [visitLoop_eq, List.nil_append]

end Found

end Netpull
