import Netpull.Messages
import Netpull.Network.Ip
import Netpull.Parallel.GuardedMap
import Netpull.Server.CrawlExact
import Netpull.Server.Job

/-!
# ClientSendCrawler

What the crawler of a job makes of an object: nothing if it was completed before, a message if it is
a directory or a symlink, and a ready file with an integrity task if it is a file. `outgoing` is the
part of `HandleObject` that decides this and can fail; `handleObject` carries it out.

`crawl_completes_iff` says for which symlink targets a crawl comes to its end.
-/

namespace Netpull

open PullObject

/-- A file that is ready to be streamed. -/
structure ReadyFile where
  address : IpAddress
  path : Bytes
  bytes : UInt64
deriving DecidableEq, Repr

abbrev ReadyFilesMap := GuardedMap Bytes ReadyFile

/-- The names `getpwuid` and `getgrgid` find. -/
structure Users where
  getpwuid : UInt32 → Option Bytes
  getgrgid : UInt32 → Option Bytes

/-- `CopyTimespecToProtoTimestamp`. -/
def copyTimespecToProtoTimestamp (ts : Timespec) : Timestamp := ⟨ts.tvSec, ts.tvNsec.toInt32⟩

/-- The type of the message of an object. -/
def FsObject.Type.pullType : FsObject.Type → PullObject.Type
  | .file => .kTypeFile
  | .directory => .kTypeDirectory
  | .symlink => .kTypeSymlink

/-- The symlink branch of `HandleObject`. -/
def symlinkData (root target : Bytes) : Except Fault SymlinkData :=
  if isAbsolute target then do
    let child ← isChildOf target root
    if child then
      let relative ← relativeTo target root
      -- "Drop the extra slash": `RelativeTo` has dropped it already.
      let cut ← substr relative 1
      return { target := cstr cut, relativeToRoot := true }
    else
      return { target := cstr target, relativeToRoot := false }
  else
    return { target := cstr target, relativeToRoot := false }

/-- `ACCESSPERMS`. -/
def accessPerms : UInt32 := 0o777

/-- The data of an object that its type decides. -/
def objectData (object : FsObject) : Except Fault Data :=
  if object.type = .symlink then
    (symlinkData object.root object.linkTarget).map Data.symlink
  else
    .ok (.nonlink ⟨(object.stat.stMode &&& accessPerms).toInt32⟩)

/-- The message of an object, still without information about a transfer. -/
def pullObject (users : Users) (number : Int32) (relativePath : Bytes) (object : FsObject) :
    Except Fault PullObject := do
  let data ← objectData object
  return {
    number := number.toInt64
    path := cstr relativePath
    type := object.type.pullType
    owner := {
      uid := object.stat.stUid.toInt32
      gid := object.stat.stGid.toInt32
      user := (users.getpwuid object.stat.stUid).getD []
      group := (users.getgrgid object.stat.stGid).getD [] }
    times := {
      access := copyTimespecToProtoTimestamp object.stat.stAtim
      modify := copyTimespecToProtoTimestamp object.stat.stMtim }
    transfer := none
    data }

/-- The size of a file in its message: `set_bytes` takes an `int32`. -/
def transferBytes (stSize : Int64) : Int32 := stSize.toInt32

/-- The size of a ready file. -/
def readyBytes (stSize : Int64) : UInt64 := stSize.toUInt64

/-- What the crawler has to do about an object. -/
inductive Outgoing
  | send (pull : PullObject)
  | submit (id : Bytes) (ready : ReadyFile) (pull : PullObject)
deriving DecidableEq, Repr

/-- What a crawler works with. -/
structure CrawlContext where
  users : Users
  job : Job
  peer : IpAddress
  /-- The successive results of `SecureRandomId`. -/
  secureRandomId : Nat → Bytes

/-- `HandleObject` up to what it sends or submits, after `total` objects and `drawn` ids. -/
def outgoing (ctx : CrawlContext) (total : Int32) (drawn : Nat) (object : FsObject) :
    Except Fault (Option Outgoing) := do
  let relativePath ← relativeTo object.path object.root
  if ctx.job.isCompleted relativePath then
    return none
  else
    let pull ← pullObject ctx.users (total + 1) relativePath object
    if object.type = .file then
      let id := ctx.secureRandomId drawn
      return some (.submit id
        { address := ctx.peer, path := object.path, bytes := readyBytes object.stat.stSize }
        { pull with transfer := some ⟨[], transferBytes object.stat.stSize, id⟩ })
    else
      return some (.send pull)

/-- An integrity task: the message it completes and the file it reads. -/
structure IntegrityTask where
  pull : PullObject
  path : Bytes
deriving DecidableEq, Repr

/-- What the crawler has done. -/
structure CrawlState where
  total : Int32
  drawn : Nat
  readyFiles : ReadyFilesMap
  sent : List PullObject
  submitted : List IntegrityTask

/-- `HandleObject`. -/
def handleObject (ctx : CrawlContext) (s : CrawlState) (object : FsObject) :
    Except Fault CrawlState := do
  match ← outgoing ctx s.total s.drawn object with
  | none => return s
  | some (.send pull) => return { s with total := s.total + 1, sent := s.sent ++ [pull] }
  | some (.submit id ready pull) =>
    return { s with
      total := s.total + 1
      drawn := s.drawn + 1
      readyFiles := s.readyFiles.put id ready
      submitted := s.submitted ++ [⟨pull, object.path⟩] }

/-! ## When handling an object fails -/

/-- A target the symlink branch gets past: one that is absolute is resolved, and if it begins with
the root, it goes on for two bytes at least. -/
def SafeTarget (root target : Bytes) : Prop :=
  isAbsolute target = true →
    isResolved target = true ∧ (root <+: target → root.length + 2 ≤ target.length)

theorem symlinkData_relative {root target : Bytes} (h : isAbsolute target = false) :
    symlinkData root target = .ok ⟨cstr target, false⟩ := by
  unfold symlinkData
  rw [if_neg (by simp [h])]
  rfl

theorem symlinkData_unresolved {root target : Bytes} (habs : isAbsolute target = true)
    (h : isResolved target = false) :
    symlinkData root target = .error (.assertion (target ++ text " is not resolved")) := by
  unfold symlinkData isChildOf
  rw [if_pos habs, habs, h]
  rfl

theorem symlinkData_outside (l : Location) {target : Bytes} (habs : isAbsolute target = true)
    (hres : isResolved target = true) (h : ¬ l.path <+: target) :
    symlinkData l.path target = .ok ⟨cstr target, false⟩ := by
  have hchild : startsWith target l.path = false := by
    rw [Bool.eq_false_iff, ne_eq, startsWith_iff]
    exact h
  unfold symlinkData isChildOf
  rw [if_pos habs]
  simp [habs, hres, hchild, pure, Except.pure]

/-- A target that begins with the root loses the root and two more bytes. -/
theorem symlinkData_inside (l : Location) {target : Bytes} (habs : isAbsolute target = true)
    (hres : isResolved target = true) (h : l.path <+: target) :
    symlinkData l.path target =
      if l.path.length + 2 ≤ target.length then
        .ok ⟨cstr (target.drop (l.path.length + 2)), true⟩
      else .error .outOfRange := by
  have hchild : startsWith target l.path = true := startsWith_iff.2 h
  unfold symlinkData relativeTo isChildOf
  rw [if_pos habs]
  simp only [habs, hres, hchild, Location.isAbsolute_path, Location.isResolved_path,
    netpullAssert_true, ok_bind, pure, Except.pure, if_true]
  by_cases hone : l.path.length + 1 ≤ target.length
  · rw [substr_eq_ok hone, ok_bind]
    by_cases hlong : l.path.length + 2 ≤ target.length
    · have hcut : 1 ≤ (target.drop (l.path.length + 1)).length := by
        rw [List.length_drop]
        omega
      rw [substr_eq_ok hcut, List.drop_drop, ok_bind, if_pos hlong]
    · have hcut : (target.drop (l.path.length + 1)).length < 1 := by
        rw [List.length_drop]
        omega
      rw [substr_eq_error hcut, error_bind, if_neg hlong]
  · rw [substr_eq_error (by omega), error_bind, if_neg (by omega)]

theorem symlinkData_ok_iff (l : Location) (target : Bytes) :
    (∃ data, symlinkData l.path target = .ok data) ↔ SafeTarget l.path target := by
  unfold SafeTarget
  cases habs : isAbsolute target with
  | false => simp [symlinkData_relative habs]
  | true =>
    cases hres : isResolved target with
    | false => simp [symlinkData_unresolved habs hres]
    | true =>
      by_cases hin : l.path <+: target
      · rw [symlinkData_inside l habs hres hin]
        by_cases hlen : l.path.length + 2 ≤ target.length <;> simp [hlen, hin]
      · simp [symlinkData_outside l habs hres hin, hin]

/-- Handling an object whose path lies below the root fails only for a symlink that was not
completed and has an unsafe target. -/
theorem handleObject_ok_iff (ctx : CrawlContext) (s : CrawlState) {l : Location} {o : FsObject}
    (hroot : o.root = l.path) {relativePath : Bytes}
    (hrel : relativeTo o.path l.path = .ok relativePath) :
    (∃ s', handleObject ctx s o = .ok s') ↔
      (o.type = .symlink → ctx.job.isCompleted relativePath = false →
        SafeTarget l.path o.linkTarget) := by
  unfold handleObject outgoing
  rw [hroot, hrel, ok_bind]
  cases hcompleted : ctx.job.isCompleted relativePath with
  | true => simp [pure, Except.pure]
  | false =>
    by_cases htype : o.type = .symlink
    · rw [← symlinkData_ok_iff]
      unfold pullObject objectData
      rw [if_pos htype, hroot]
      have hfile : o.type ≠ .file := by simp [htype]
      cases hdata : symlinkData l.path o.linkTarget with
      | error e => simp [Except.map, htype]
      | ok data => simp [Except.map, pure, Except.pure, htype]
    · unfold pullObject objectData
      rw [if_neg htype]
      by_cases hfile : o.type = .file <;> simp [hfile, htype, pure, Except.pure]

theorem foldlM_ok_iff {σ α : Type} {f : σ → α → Except Fault σ} (safe : α → Prop) {as : List α}
    (h : ∀ a ∈ as, ∀ s, (∃ s', f s a = .ok s') ↔ safe a) (s : σ) :
    (∃ s', as.foldlM f s = .ok s') ↔ ∀ a ∈ as, safe a := by
  induction as generalizing s with
  | nil => simp [pure, Except.pure]
  | cons a as ih =>
    have ih := ih fun b hb => h b (List.mem_cons_of_mem a hb)
    have ha := h a List.mem_cons_self s
    rw [List.foldlM_cons, List.forall_mem_cons, ← ha]
    cases hf : f s a with
    | error e => simp
    | ok s' =>
      rw [ok_bind, ih s']
      simp

/-- The object of a symlink has the target that could be read. -/
theorem objectOf_symlink {fs : FileSystem} {root : Bytes} {node : Node} {o : FsObject}
    (h : fs.objectOf root node = some o) :
    o.root = root ∧ (o.type = .symlink ↔ modeType node.entry.stat.stMode = .lnk) ∧
      o.linkTarget = if o.type = .symlink ∧ fs.readlinkFails node.names = false then
        cstr node.entry.target else [] := by
  obtain ⟨type, htype, rfl⟩ := Option.map_eq_some_iff.1 h
  exact ⟨rfl, (objectType_symlink htype).symm, rfl⟩

/-- **A crawl comes to its end** if and only if every symlink it comes to that was not completed has
a safe target. -/
theorem crawl_completes_iff (fs : FileSystem) {root : Bytes} (habs : isAbsolute root = true)
    (hres : isResolved root = true) (hroot : root ≠ [slash]) {fuel : Nat}
    (hfuel : fs.tree.dirCount ≤ fuel) (ctx : CrawlContext) (s : CrawlState) :
    (∃ s', visit fs.kernel (handleObject ctx) fuel root s = .ok (s', [])) ↔
      ∀ node ∈ fs.tree.nodes [], fs.unhindered node.names = true →
        modeType node.entry.stat.stMode = .lnk → fs.readlinkFails node.names = false →
        ctx.job.isCompleted ([slash].intercalate node.names) = false →
        SafeTarget root (cstr node.entry.target) := by
  obtain ⟨l, rfl⟩ := exists_location habs hres hroot
  have hvisit : (∃ s', visit fs.kernel (handleObject ctx) fuel l.path s = .ok (s', [])) ↔
      ∃ s', (found fs.kernel fuel l.path).1.foldlM (handleObject ctx) s = .ok s' := by
    rw [visit_eq_foldlM _ _ _ _ hres, fs.found_queue_nil hfuel]
    cases (found fs.kernel fuel l.path).1.foldlM (handleObject ctx) s <;> simp
  rw [hvisit, foldlM_ok_iff fun o => ∀ relativePath,
    relativeTo o.path l.path = .ok relativePath → o.type = .symlink →
      ctx.job.isCompleted relativePath = false → SafeTarget l.path o.linkTarget]
  · constructor
    · intro h node hnode hunhindered hmode hreads hcompleted
      obtain ⟨o, ho⟩ : ∃ o, fs.objectOf l.path node = some o := by
        simp [FileSystem.objectOf, hmode, objectType]
      obtain ⟨-, htype, htarget⟩ := objectOf_symlink ho
      have hsafe := h o ((FileSystem.mem_found_iff hfuel).2 ⟨node, hnode, hunhindered, ho⟩) _
        (FileSystem.object_paths hnode ho).2.2.1 (htype.2 hmode) hcompleted
      rwa [htarget, if_pos ⟨htype.2 hmode, hreads⟩] at hsafe
    · intro h o ho relativePath hrel hsymlink hcompleted
      obtain ⟨node, hnode, hunhindered, hobj⟩ := (FileSystem.mem_found_iff hfuel).1 ho
      obtain ⟨-, htype, htarget⟩ := objectOf_symlink hobj
      rw [(FileSystem.object_paths hnode hobj).2.2.1] at hrel
      obtain rfl := Except.ok.inj hrel
      rw [htarget]
      split
      · next hreads =>
        exact h node hnode hunhindered (htype.1 hsymlink) hreads.2 hcompleted
      · exact fun habsent => absurd habsent (by decide)
  · intro o ho s
    obtain ⟨node, hnode, -, hobj⟩ := (FileSystem.mem_found_iff hfuel).1 ho
    have hrel := (FileSystem.object_paths hnode hobj).2.2.1
    rw [handleObject_ok_iff ctx s (objectOf_symlink hobj).1 hrel, hrel]
    simp

/-- A directory with one symlink in it. -/
def oneLinkTree (target : Bytes) : Contents :=
  .leaf (text "l") 2 ⟨0o120777, 0, 0, 4, ⟨0, 0⟩, ⟨0, 0⟩⟩ target .nil

def oneLink (target : Bytes) : FileSystem :=
  .ofTree (oneLinkTree target) ⟨by decide, by decide, by decide, trivial⟩

/-- The crawl of a new job for `/srv`. -/
def srvContext : CrawlContext where
  users := ⟨fun _ => none, fun _ => none⟩
  job := { id := text "0f", path := text "/srv", log := [], completedPaths := .empty }
  peer := ⟨127, 0, 0, 1⟩
  secureRandomId _ := text "0f"

def CrawlState.start : CrawlState :=
  { total := 0, drawn := 0, readyFiles := .empty, sent := [], submitted := [] }

theorem crawl_completes_iff_oneLink :
    (∃ s', visit (oneLink (text "/etc/hosts")).kernel (handleObject srvContext) 0 (text "/srv")
        .start = .ok (s', [])) ↔
      ∀ node ∈ (oneLink (text "/etc/hosts")).tree.nodes [],
        (oneLink (text "/etc/hosts")).unhindered node.names = true →
        modeType node.entry.stat.stMode = .lnk →
        (oneLink (text "/etc/hosts")).readlinkFails node.names = false →
        srvContext.job.isCompleted ([slash].intercalate node.names) = false →
        SafeTarget (text "/srv") (cstr node.entry.target) :=
  crawl_completes_iff (oneLink (text "/etc/hosts")) rfl rfl (by decide) (Nat.le_refl 0)
    srvContext .start

/-- A link to the root, a link to a sibling whose name is one byte longer, and a link with a doubled
slash bring the server down. -/
theorem unsafe_links_kill_crawl :
    (¬ ∃ s', visit (oneLink (text "/srv")).kernel (handleObject srvContext) 0 (text "/srv") .start =
      .ok (s', [])) ∧
    (¬ ∃ s', visit (oneLink (text "/srvx")).kernel (handleObject srvContext) 0 (text "/srv") .start =
      .ok (s', [])) ∧
    ¬ ∃ s', visit (oneLink (text "/etc//hosts")).kernel (handleObject srvContext) 0 (text "/srv")
      .start = .ok (s', []) := by
  have hroot : visit (oneLink (text "/srv")).kernel (handleObject srvContext) 0 (text "/srv")
      .start = .error .outOfRange := rfl
  have hsibling : visit (oneLink (text "/srvx")).kernel (handleObject srvContext) 0 (text "/srv")
      .start = .error .outOfRange := rfl
  have hdoubled : visit (oneLink (text "/etc//hosts")).kernel (handleObject srvContext) 0
      (text "/srv") .start = .error (.assertion (text "/etc//hosts is not resolved")) := rfl
  simp [hroot, hsibling, hdoubled]

end Netpull
