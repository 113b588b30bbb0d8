import Mathlib.Algebra.Order.BigOperators.Group.List
import Mathlib.Algebra.Order.Group.Nat
import Mathlib.Data.List.Forall2
import Netpull.Server.FileSystem

/-!
# The crawl is exact

On a file system, the crawler handles the visible nodes of the tree, each exactly once, parents
before what lies below them, and empties its queue. The tree is worked off breadth first, so the
three laws of `Worklist` apply: the directories bound the rounds, the recursion of `reached` is
that of `expand`, and the depth of a path is its number of slashes.
-/

namespace Netpull

open Separated
open scoped List

/-! ## Entries of one directory -/

section Listing

variable {β : Type} {dps : List Dirent} {es : List Entry}

theorem flatMap_reports {f : Dirent → List β} {g : Entry → List β} {l : List Entry}
    (h : List.Forall₂ Reports dps l) (hfg : ∀ dp e, e ∈ l → Reports dp e → f dp = g e) :
    dps.flatMap f = l.flatMap g := by
  induction h with
  | nil => rfl
  | @cons dp e dps l hdp _ ih =>
    rw [List.flatMap_cons, List.flatMap_cons, hfg dp e List.mem_cons_self hdp,
      ih fun dp' e' he' => hfg dp' e' (List.mem_cons_of_mem e he')]

theorem flatMap_filter_dots {f : Dirent → List β} (hdots : ∀ dp, isDots dp = true → f dp = []) :
    (dps.filter (!isDots ·)).flatMap f = dps.flatMap f := by
  induction dps with
  | nil => rfl
  | cons dp dps ih =>
    rw [List.filter_cons, List.flatMap_cons]
    cases h : isDots dp with
    | true => simp [hdots dp h, ih]
    | false => simp [ih]

/-- What is collected from a listing is what is collected from the entries it reports. -/
theorem Lists.flatMap_perm (h : Lists dps es) {f : Dirent → List β} {g : Entry → List β}
    (hdots : ∀ dp, isDots dp = true → f dp = [])
    (hfg : ∀ dp e, e ∈ es → Reports dp e → f dp = g e) : dps.flatMap f ~ es.flatMap g := by
  obtain ⟨l, hperm, hreports⟩ := h
  rw [← flatMap_filter_dots hdots,
    flatMap_reports hreports fun dp e he => hfg dp e (hperm.mem_iff.1 he)]
  exact hperm.flatMap_right g

end Listing

/-- An entry that is reported truthfully or as unknown has the type its mode gives. -/
theorem Reports.type_eq {dp : Dirent} {e : Entry} (h : Reports dp e) :
    (if dp.dType = .unknown then modeType e.stat.stMode else dp.dType) =
      modeType e.stat.stMode := by
  rcases h.type with ht | ht
  · rw [if_pos ht]
  · rw [ht, ite_id]

namespace FileSystem

variable (fs : FileSystem) (l : Location)

/-- The object of an entry of the directory `q`, if its `fstatat` succeeds. -/
def foundEntry (q : List Bytes) (e : Entry) : Option FsObject :=
  if fs.statFails (q ++ [e.name]) then none
  else fs.objectOf l.path ⟨q ++ [e.name], e⟩

/-- What an entry of the directory `q` adds to the queue. -/
def spawnEntry (q : List Bytes) (e : Entry) : List (QueuedObjectCrawl (List Bytes)) :=
  if fs.statFails (q ++ [e.name]) || fs.dupFails (q ++ [e.name]) || e.sub.isNone then []
  else [⟨q, spell slash (l.names ++ q), e.name⟩]

/-- The names of a directory below the visit root. -/
def ProperDir (q : List Bytes) : Prop := ∀ n ∈ q, ProperName n

variable {fs l} {q : List Bytes} {c : Contents} {e : Entry}

theorem proper_append (hq : ProperDir q) : ∀ n ∈ l.names ++ q, ProperName n :=
  fun n hn => (List.mem_append.1 hn).elim (l.proper n) (hq n)

theorem join_entry (hq : ProperDir q) (he : ProperName e.name) :
    join (spell slash (l.names ++ q)) e.name = l.path ++ spell slash (q ++ [e.name]) := by
  rw [join_name (by simp [l.ne_nil]) (proper_append hq) he, List.append_assoc, spell_append]
  rfl

theorem fstatat_entry (hc : fs.tree.dirAt q = some c) (he : e ∈ c.entries) :
    fs.kernel.fstatat q e.name = if fs.statFails (q ++ [e.name]) then none else some e.stat := by
  simp [kernel, entryAt, hc, (fs.wf.dirAt hc).find_name he]

theorem readlinkat_entry (hc : fs.tree.dirAt q = some c) (he : e ∈ c.entries) :
    fs.kernel.readlinkat q e.name =
      if fs.readlinkFails (q ++ [e.name]) then none else some e.target := by
  simp [kernel, entryAt, hc, (fs.wf.dirAt hc).find_name he]

theorem entryObject_reports (hc : fs.tree.dirAt q = some c) (hq : ProperDir q)
    (he : e ∈ c.entries) {dp : Dirent} (hdp : Reports dp e) :
    entryObject fs.kernel l.path q (spell slash (l.names ++ q)) dp = fs.foundEntry l q e := by
  have hname := ((fs.wf.dirAt hc).entry he).name
  have hdot : (e.name == text "." || e.name == text "..") = false := by
    simp [hname.ne_dot, hname.ne_dotdot]
  have hlink : findUnresolvedLinkTargetAt fs.kernel q e.name =
      if fs.readlinkFails (q ++ [e.name]) then none else some (cstr e.target) := by
    rw [findUnresolvedLinkTargetAt, cstr_eq_self hname.no_nul, readlinkat_entry hc he]
    split <;> rfl
  rw [entryObject, hdp.name, hdp.ino, hdot, fstatat_entry hc he, foundEntry]
  cases hstat : fs.statFails (q ++ [e.name]) with
  | true => simp
  | false =>
    simp only [Bool.false_eq_true, ↓reduceIte, Option.bind_eq_bind, Option.bind_some,
      hdp.type_eq, objectOf, join_entry hq hname.toProperName, hlink]
    cases objectType (modeType e.stat.stMode) with
    | none => rfl
    | some type =>
      cases fs.readlinkFails (q ++ [e.name]) <;> by_cases hs : type = .symlink <;> simp [hs]

theorem entrySpawn_reports (hc : fs.tree.dirAt q = some c) (hq : ProperDir q)
    (he : e ∈ c.entries) {dp : Dirent} (hdp : Reports dp e) :
    entrySpawn fs.kernel l.path q (spell slash (l.names ++ q)) dp = fs.spawnEntry l q e := by
  have hwf := (fs.wf.dirAt hc).entry he
  have hobj := entryObject_reports (l := l) hc hq he hdp
  have hdup : fs.kernel.dup q e.name = if fs.dupFails (q ++ [e.name]) then none else some q := rfl
  rw [foundEntry] at hobj
  rw [entrySpawn, spawnEntry, hdp.name, hdup]
  cases hstat : fs.statFails (q ++ [e.name]) with
  | true =>
    rw [if_pos hstat] at hobj
    rw [hobj, Bool.true_or, Bool.true_or, if_pos rfl]
  | false =>
    rw [if_neg (by simp [hstat]), objectOf] at hobj
    rw [hobj]
    cases hsub : e.sub with
    | none =>
      have hmode := hwf.leaf hsub
      cases htype : objectType (modeType e.stat.stMode) with
      | none => simp
      | some type => simp [mt (objectType_directory htype).2 hmode]
    | some sub =>
      rw [(hwf.dir sub hsub).1]
      cases hd : fs.dupFails (q ++ [e.name]) <;> simp [objectType]

/-- What reading the open directory `q` hands to the handler and adds to the queue. -/
theorem listing_perm (hc : fs.tree.dirAt q = some c) (hq : ProperDir q) :
    let entries := (fs.listing q).flatten
    let fullPath := spell slash (l.names ++ q)
    entries.filterMap (entryObject fs.kernel l.path q fullPath) ~
        c.entries.filterMap (fs.foundEntry l q) ∧
      entries.flatMap (entrySpawn fs.kernel l.path q fullPath) ~
        c.entries.flatMap (fs.spawnEntry l q) := by
  intro entries fullPath
  have hdots : ∀ dp, isDots dp = true → entryObject fs.kernel l.path q fullPath dp = none := by
    intro dp hdp
    rw [entryObject, ← isDots, if_pos hdp]
  refine ⟨?_, ?_⟩
  · rw [List.filterMap_eq_flatMap_toList, List.filterMap_eq_flatMap_toList]
    refine (fs.lists q c hc).flatMap_perm (fun dp hdp => ?_) fun dp e he hdp => ?_
    · rw [hdots dp hdp, Option.toList_none]
    · rw [entryObject_reports hc hq he hdp]
  · refine (fs.lists q c hc).flatMap_perm (fun dp hdp => ?_) fun dp e he hdp => ?_
    · rw [entrySpawn, hdots dp hdp]
    · exact entrySpawn_reports hc hq he hdp

/-! ## Items of the queue -/

/-- What the items of the queue satisfy: their parent path leads to the directory their descriptor
is open on, and their name is that of an entry. -/
structure Pending (l : Location) (item : QueuedObjectCrawl (List Bytes)) : Prop where
  parent : item.parent = spell slash (l.names ++ item.parentfd)
  proper : ProperDir item.parentfd
  name : Contents.EntryName item.name

/-- The directory at `q`, if it can be opened. -/
def openDir (fs : FileSystem) (q : List Bytes) : Option Contents :=
  if fs.openFails q then none else fs.tree.dirAt q

/-- The objects handled in and below an open directory. -/
def reachedObjects (fs : FileSystem) (l : Location) (q : List Bytes) (c : Contents) :
    List FsObject :=
  (fs.reached q c).filterMap (fs.objectOf l.path)

/-- The objects handled below an item of the queue. -/
def belowItem (fs : FileSystem) (l : Location) (item : QueuedObjectCrawl (List Bytes)) :
    List FsObject :=
  ((fs.openDir (item.parentfd ++ [item.name])).map
    (fs.reachedObjects l (item.parentfd ++ [item.name]))).getD []

/-- The objects handled below an entry of the directory `q`. -/
def belowEntry (fs : FileSystem) (l : Location) (q : List Bytes) (e : Entry) : List FsObject :=
  match e.sub with
  | some sub => if fs.crawled (q ++ [e.name]) then fs.reachedObjects l (q ++ [e.name]) sub else []
  | none => []

theorem filterMap_reached (fs : FileSystem) (l : Location) (q : List Bytes) (e : Entry) :
    (if fs.statFails (q ++ [e.name]) then [] else [⟨q ++ [e.name], e⟩]).filterMap
      (fs.objectOf l.path) = (fs.foundEntry l q e).toList := by
  rw [foundEntry]
  split
  · rfl
  · cases h : fs.objectOf l.path ⟨q ++ [e.name], e⟩ <;> simp [h]

theorem filterMap_cons_toList {α β : Type} (f : α → Option β) (a : α) (as : List α) :
    (a :: as).filterMap f = (f a).toList ++ as.filterMap f := by
  cases h : f a <;> simp [h]

/-- Everything handled from an open directory is handled for one of its entries or below one. -/
theorem reachedObjects_perm (fs : FileSystem) (l : Location) (q : List Bytes) (c : Contents) :
    fs.reachedObjects l q c ~
      c.entries.filterMap (fs.foundEntry l q) ++ c.entries.flatMap (fs.belowEntry l q) := by
  induction c with
  | nil => exact .nil
  | leaf name ino stat target rest ih =>
    have hself := filterMap_reached fs l q ⟨name, ino, stat, target, none⟩
    rw [Contents.entries, filterMap_cons_toList, List.flatMap_cons, reachedObjects, reached,
      List.filterMap_append, hself, List.append_assoc]
    exact ih.append_left _
  | dir name ino stat sub rest _ ih =>
    have hself := filterMap_reached fs l q ⟨name, ino, stat, [], some sub⟩
    have hsub : (if fs.crawled (q ++ [name]) then fs.reached (q ++ [name]) sub else []).filterMap
        (fs.objectOf l.path) = fs.belowEntry l q ⟨name, ino, stat, [], some sub⟩ := by
      rw [belowEntry]
      split <;> rfl
    rw [Contents.entries, filterMap_cons_toList, List.flatMap_cons, reachedObjects, reached,
      List.filterMap_append, List.filterMap_append, hself, hsub, List.append_assoc]
    apply List.Perm.append_left
    apply (ih.append_left _).trans
    rw [← List.append_assoc, ← List.append_assoc]
    exact List.perm_append_comm.append_right _

/-- The items an entry spawns have below them what is handled below the entry. -/
theorem spawnEntry_below (hc : fs.tree.dirAt q = some c) (he : e ∈ c.entries) :
    (fs.spawnEntry l q e).flatMap (fs.belowItem l) = fs.belowEntry l q e := by
  rw [spawnEntry, belowEntry]
  cases hsub : e.sub with
  | none => simp
  | some sub =>
    have hdir : fs.tree.dirAt (q ++ [e.name]) = some sub := by
      rw [fs.wf.dirAt_entry hc he, hsub]
    by_cases hs : fs.statFails (q ++ [e.name]) = true
    · simp [crawled, hs]
    · by_cases hd : fs.dupFails (q ++ [e.name]) = true
      · simp [crawled, hd]
      · by_cases ho : fs.openFails (q ++ [e.name]) = true <;>
          simp [crawled, hs, hd, ho, belowItem, openDir, hdir]

/-! ## The three laws -/

theorem Pending.spawned (hq : ProperDir q) (hwf : c.WF) (he : e ∈ c.entries)
    {item : QueuedObjectCrawl (List Bytes)} (hitem : item ∈ fs.spawnEntry l q e) :
    Pending l item ∧ item.parentfd = q ∧ item.name = e.name ∧ e.sub ≠ none := by
  rw [spawnEntry] at hitem
  split at hitem
  · cases hitem
  · next h =>
    rw [List.mem_singleton] at hitem
    subst hitem
    simp only [Bool.or_eq_true, not_or, Option.isNone_iff_eq_none] at h
    exact ⟨⟨rfl, hq, (hwf.entry he).name⟩, rfl, rfl, h.2⟩

theorem openDir_some (hc : fs.openDir q = some c) : fs.tree.dirAt q = some c := by
  rw [openDir] at hc
  split at hc
  · cases hc
  · exact hc

theorem openDir_wf (hc : fs.openDir q = some c) : c.WF :=
  fs.wf.dirAt (openDir_some hc)

theorem proper_concat {item : QueuedObjectCrawl (List Bytes)} (h : Pending l item) :
    ProperDir (item.parentfd ++ [item.name]) := fun n hn => by
  rcases List.mem_append.1 hn with hn | hn
  · exact h.proper n hn
  · exact List.mem_singleton.1 hn ▸ h.name.toProperName

/-- Expanding an item whose directory can be opened. -/
theorem expand_open {item : QueuedObjectCrawl (List Bytes)} (h : Pending l item)
    (hc : fs.openDir (item.parentfd ++ [item.name]) = some c) :
    let q := item.parentfd ++ [item.name]
    (expand fs.kernel l.path item).1 ~ c.entries.filterMap (fs.foundEntry l q) ∧
      (expand fs.kernel l.path item).2 ~ c.entries.flatMap (fs.spawnEntry l q) := by
  intro q
  have hq : ProperDir q := proper_concat h
  rw [openDir] at hc
  split at hc
  · cases hc
  · next ho =>
    have hopen : fs.kernel.openat (some item.parentfd) (cstr item.name) = some q := by
      rw [cstr_eq_self h.name.no_nul]
      simp [kernel, ho, hc, q]
    have hjoin : join item.parent item.name = spell slash (l.names ++ q) := by
      rw [h.parent, join_name (by simp [l.ne_nil]) (proper_append h.proper) h.name.toProperName,
        List.append_assoc]
    rw [expand, pumped, hopen, hjoin]
    exact listing_perm hc hq

theorem expand_closed {item : QueuedObjectCrawl (List Bytes)} (h : Pending l item)
    (hc : fs.openDir (item.parentfd ++ [item.name]) = none) :
    expand fs.kernel l.path item = ([], []) := by
  have hopen : fs.kernel.openat (some item.parentfd) (cstr item.name) = none := by
    rw [cstr_eq_self h.name.no_nul]
    rw [openDir] at hc
    by_cases ho : fs.openFails (item.parentfd ++ [item.name]) = true
    · simp [kernel, ho]
    · rw [if_neg ho] at hc
      simp [kernel, ho, hc]
  rw [expand, pumped, hopen]

theorem expand_pending {item : QueuedObjectCrawl (List Bytes)} (h : Pending l item) :
    ∀ j ∈ (expand fs.kernel l.path item).2, Pending l j := by
  intro j hj
  cases hc : fs.openDir (item.parentfd ++ [item.name]) with
  | none =>
    rw [expand_closed h hc] at hj
    cases hj
  | some c =>
    rw [(expand_open h hc).2.mem_iff] at hj
    obtain ⟨e, he, hj⟩ := List.mem_flatMap.1 hj
    exact (Pending.spawned (proper_concat h) (openDir_wf hc) he hj).1

/-- The rounds an item is good for: one for itself and one for each directory below it. -/
def itemSize (fs : FileSystem) (item : QueuedObjectCrawl (List Bytes)) : Nat :=
  ((fs.openDir (item.parentfd ++ [item.name])).map Contents.dirCount).getD 0 + 1

def entryDirs (e : Entry) : Nat := (e.sub.map fun sub => sub.dirCount + 1).getD 0

theorem sum_entryDirs (c : Contents) : (c.entries.map entryDirs).sum = c.dirCount := by
  induction c with
  | nil => rfl
  | leaf name ino stat target rest ih => simp [Contents.entries, Contents.dirCount, entryDirs, ih]
  | dir name ino stat sub rest _ ih => simp [Contents.entries, Contents.dirCount, entryDirs, ih]

theorem spawnEntry_size (hc : fs.tree.dirAt q = some c) (he : e ∈ c.entries) :
    ((fs.spawnEntry l q e).map fs.itemSize).sum ≤ entryDirs e := by
  rw [spawnEntry, entryDirs]
  cases hsub : e.sub with
  | none => simp
  | some sub =>
    have hdir : fs.tree.dirAt (q ++ [e.name]) = some sub := by
      rw [fs.wf.dirAt_entry hc he, hsub]
    split
    · simp
    · by_cases ho : fs.openFails (q ++ [e.name]) = true <;>
        simp [itemSize, openDir, ho, hdir]

theorem spawn_size (hc : fs.tree.dirAt q = some c) :
    ((c.entries.flatMap (fs.spawnEntry l q)).map fs.itemSize).sum ≤ c.dirCount := by
  rw [List.map_flatMap, List.flatMap_def, List.sum_flatten, List.map_map, ← sum_entryDirs]
  exact List.sum_le_sum fun e he => spawnEntry_size hc he

theorem expand_size {item : QueuedObjectCrawl (List Bytes)} (h : Pending l item) :
    ((expand fs.kernel l.path item).2.map fs.itemSize).sum < fs.itemSize item := by
  cases hc : fs.openDir (item.parentfd ++ [item.name]) with
  | none => simp [expand_closed h hc, itemSize]
  | some c =>
    have hle := spawn_size (l := l) (openDir_some hc)
    rw [((expand_open h hc).2.map _).sum_eq, itemSize, hc]
    exact Nat.lt_succ_of_le hle

theorem expand_below {item : QueuedObjectCrawl (List Bytes)} (h : Pending l item) :
    fs.belowItem l item ~
      (expand fs.kernel l.path item).1 ++
        (expand fs.kernel l.path item).2.flatMap (fs.belowItem l) := by
  cases hc : fs.openDir (item.parentfd ++ [item.name]) with
  | none => simp [expand_closed h hc, belowItem, hc]
  | some c =>
    obtain ⟨hobjs, hspawn⟩ := expand_open h hc
    have hbelow : (c.entries.flatMap (fs.spawnEntry l (item.parentfd ++ [item.name]))).flatMap
        (fs.belowItem l) = c.entries.flatMap (fs.belowEntry l (item.parentfd ++ [item.name])) := by
      rw [List.flatMap_assoc]
      exact List.flatMap_congr fun e he => spawnEntry_below (openDir_some hc) he
    calc fs.belowItem l item
        _ = fs.reachedObjects l (item.parentfd ++ [item.name]) c := by simp [belowItem, hc]
        _ ~ _ := reachedObjects_perm fs l _ c
        _ ~ _ := (hobjs.append (hbelow ▸ hspawn.flatMap_right _)).symm

/-- The depth of an object is one more than that of its directory. -/
theorem foundEntry_depth (hq : ProperDir q) (hwf : c.WF) (he : e ∈ c.entries) {o : FsObject}
    (ho : fs.foundEntry l q e = some o) :
    o.path.count slash = l.names.length + q.length + 1 := by
  have hproper : ∀ n ∈ l.names ++ (q ++ [e.name]), slash ∉ n := fun n hn => by
    rw [← List.append_assoc] at hn
    rcases List.mem_append.1 hn with hn | hn
    · exact (proper_append hq n hn).no_slash
    · exact List.mem_singleton.1 hn ▸ (hwf.entry he).name.no_slash
  rw [foundEntry] at ho
  split at ho
  · cases ho
  · obtain ⟨type, -, rfl⟩ := Option.map_eq_some_iff.1 ho
    have hpath := count_spell hproper
    rw [spell_append] at hpath
    simpa [Nat.add_assoc, Location.path] using hpath

def itemLevel (l : Location) (item : QueuedObjectCrawl (List Bytes)) : Nat :=
  l.names.length + item.parentfd.length + 1

theorem expand_depth {item : QueuedObjectCrawl (List Bytes)} (h : Pending l item) :
    ∀ o ∈ (expand fs.kernel l.path item).1, o.path.count slash = itemLevel l item + 1 := by
  intro o ho
  cases hc : fs.openDir (item.parentfd ++ [item.name]) with
  | none =>
    rw [expand_closed h hc] at ho
    cases ho
  | some c =>
    rw [(expand_open h hc).1.mem_iff] at ho
    obtain ⟨e, he, ho⟩ := List.mem_filterMap.1 ho
    rw [foundEntry_depth (proper_concat h) (openDir_wf hc) he ho, itemLevel, List.length_append]
    rfl

theorem expand_level {item : QueuedObjectCrawl (List Bytes)} (h : Pending l item) :
    ∀ j ∈ (expand fs.kernel l.path item).2, itemLevel l j = itemLevel l item + 1 := by
  intro j hj
  cases hc : fs.openDir (item.parentfd ++ [item.name]) with
  | none =>
    rw [expand_closed h hc] at hj
    cases hj
  | some c =>
    rw [(expand_open h hc).2.mem_iff] at hj
    obtain ⟨e, he, hj⟩ := List.mem_flatMap.1 hj
    obtain ⟨-, hfd, -, -⟩ := Pending.spawned (proper_concat h) (openDir_wf hc) he hj
    rw [itemLevel, hfd, itemLevel, List.length_append]
    rfl

/-! ## The whole visit -/

theorem pumped_root (ho : fs.openFails [] = false) :
    (pumped fs.kernel l.path none [] l.path).1 ~
        fs.tree.entries.filterMap (fs.foundEntry l []) ∧
      (pumped fs.kernel l.path none [] l.path).2 ~
        fs.tree.entries.flatMap (fs.spawnEntry l []) := by
  have hopen : fs.kernel.openat none (cstr l.path) = some [] := by simp [kernel, ho]
  have hpath : l.path = spell slash (l.names ++ []) := by rw [List.append_nil]; rfl
  have hproper : ProperDir [] := fun n hn => absurd hn List.not_mem_nil
  have hlist := listing_perm (l := l) (Contents.dirAt_nil fs.tree) hproper
  rw [← hpath] at hlist
  rw [pumped, hopen, join_nil_left]
  exact hlist

theorem found_root_closed (ho : fs.openFails [] = true) (fuel : Nat) :
    found fs.kernel fuel l.path = ([], []) := by
  have hopen : fs.kernel.openat none (cstr l.path) = none := by simp [kernel, ho]
  rw [found, pumped, hopen, Worklist.run_nil]
  rfl

theorem pumped_root_pending (ho : fs.openFails [] = false) :
    ∀ j ∈ (pumped fs.kernel l.path none [] l.path).2,
      Pending l j ∧ itemLevel l j = l.names.length + 1 := by
  intro j hj
  rw [(pumped_root ho).2.mem_iff] at hj
  obtain ⟨e, he, hj⟩ := List.mem_flatMap.1 hj
  obtain ⟨hpending, hfd, -, -⟩ :=
    Pending.spawned (fun n hn => absurd hn List.not_mem_nil) fs.wf he hj
  exact ⟨hpending, by rw [itemLevel, hfd, List.length_nil]⟩

/-- The crawl ends: as many rounds as there are directories empty the queue. -/
theorem found_queue_nil {fuel : Nat} (hfuel : fs.tree.dirCount ≤ fuel) :
    (found fs.kernel fuel l.path).2 = [] := by
  cases ho : fs.openFails [] with
  | true => rw [found_root_closed ho]
  | false =>
    refine Worklist.run_queue_nil (P := Pending l) (fun i hi => expand_pending hi)
      (fun i hi => expand_size hi) fuel _ (fun j hj => (pumped_root_pending ho j hj).1) ?_
    rw [((pumped_root ho).2.map _).sum_eq]
    exact (spawn_size (Contents.dirAt_nil fs.tree)).trans hfuel

/-- The objects found are those of the nodes nothing keeps the crawler from. -/
theorem found_perm {fuel : Nat} (hfuel : fs.tree.dirCount ≤ fuel) :
    (found fs.kernel fuel l.path).1 ~
      ((fs.tree.nodes []).filter fun node => fs.unhindered node.names).filterMap
        (fs.objectOf l.path) := by
  have hqueue := found_queue_nil (l := l) hfuel
  cases ho : fs.openFails [] with
  | true => simp [found_root_closed ho, unhindered, ho]
  | false =>
    have hbelow : (fs.tree.entries.flatMap (fs.spawnEntry l [])).flatMap (fs.belowItem l) =
        fs.tree.entries.flatMap (fs.belowEntry l []) := by
      rw [List.flatMap_assoc]
      exact List.flatMap_congr fun e he => spawnEntry_below (Contents.dirAt_nil fs.tree) he
    have hrun := Worklist.run_perm (P := Pending l) (fun i hi => expand_pending hi)
      (fun i hi => expand_below hi) fuel _ (fun j hj => (pumped_root_pending ho j hj).1) hqueue
    have hreached := reachedObjects_perm fs l [] fs.tree
    rw [reachedObjects, fs.reached_eq fs.wf] at hreached
    simp only [unhindered, ho, Bool.not_false, Bool.true_and]
    refine List.Perm.trans ?_ hreached.symm
    exact (pumped_root ho).1.append (hrun.trans (hbelow ▸ (pumped_root ho).2.flatMap_right _))

theorem mem_found_iff {fuel : Nat} (hfuel : fs.tree.dirCount ≤ fuel) {o : FsObject} :
    o ∈ (found fs.kernel fuel l.path).1 ↔ ∃ node ∈ fs.tree.nodes [],
      fs.unhindered node.names = true ∧ fs.objectOf l.path node = some o := by
  rw [(found_perm hfuel).mem_iff]
  simp only [List.mem_filterMap, List.mem_filter, and_assoc]

/-- Objects are found in the order of their depth. -/
theorem found_sorted (fuel : Nat) :
    (found fs.kernel fuel l.path).1.Pairwise fun o o' =>
      o.path.count slash ≤ o'.path.count slash := by
  cases ho : fs.openFails [] with
  | true =>
    rw [found_root_closed ho]
    exact .nil
  | false =>
    have hfirst : ∀ o ∈ (pumped fs.kernel l.path none [] l.path).1,
        o.path.count slash = l.names.length + 1 := by
      intro o hmem
      rw [(pumped_root ho).1.mem_iff] at hmem
      obtain ⟨e, he, hfound⟩ := List.mem_filterMap.1 hmem
      exact foundEntry_depth (fun n hn => absurd hn List.not_mem_nil) fs.wf he hfound
    obtain ⟨hsorted, hdeep⟩ := Worklist.run_sorted (itemLevel l)
      (fun o => o.path.count slash) (P := Pending l) (fun i hi => expand_pending hi)
      (fun i hi => expand_depth hi) (fun i hi => expand_level hi) fuel (l.names.length + 1)
      (pumped fs.kernel l.path none [] l.path).2 (fun j hj => (pumped_root_pending ho j hj).1)
      ⟨_, [], (List.append_nil _).symm, fun j hj => (pumped_root_pending ho j hj).2,
        fun j hj => absurd hj List.not_mem_nil⟩
    refine List.pairwise_append.2 ⟨?_, hsorted, fun o hmem o' hmem' => ?_⟩
    · apply List.pairwise_of_forall_mem_list
      intro o hmem o' hmem'
      rw [hfirst o hmem, hfirst o' hmem']
    · have := hfirst o hmem
      have := hdeep o' hmem'
      omega

end FileSystem

/-! ## Exactness -/

/-- The path `p` lies strictly below the path `q`. -/
def Under (p q : Bytes) : Prop := q ++ [slash] <+: p

theorem Under.count_lt {p q : Bytes} (h : Under p q) : q.count slash < p.count slash := by
  obtain ⟨t, rfl⟩ := h
  simp only [List.count_append, List.count_singleton_self]
  omega

/-- What visiting `root` with at most `fuel` rounds of the queue does on a file system: it hands
`objs` to the handler, one after the other, and leaves the queue empty. -/
structure CrawlExact (fs : FileSystem) (root : Bytes) (fuel : Nat) (objs : List FsObject) :
    Prop where
  visits : ∀ {σ : Type} (handleObject : σ → FsObject → Except Fault σ) (s : σ),
    visit fs.kernel handleObject fuel root s =
      objs.foldlM handleObject s >>= fun s => .ok (s, [])
  /-- The objects are those of the nodes nothing keeps the crawler from, each once. -/
  exact : objs ~ ((fs.tree.nodes []).filter fun node => fs.unhindered node.names).filterMap
    (fs.objectOf root)
  /-- If no call fails these are all nodes. -/
  all : fs.AllSucceed → objs ~ (fs.tree.nodes []).filterMap (fs.objectOf root)
  /-- A directory is handled before anything below it. -/
  parentsFirst : objs.Pairwise fun o o' => ¬ Under o.path o'.path
  /-- The path of an object is that of its node below the root. -/
  path : ∀ o ∈ objs, isAbsolute o.path = true ∧ isResolved o.path = true ∧
    ∃ node ∈ fs.tree.nodes [], fs.objectOf root node = some o ∧
      relativeTo o.path root = .ok ([slash].intercalate node.names) ∧
      startsWith ([slash].intercalate node.names) [slash] = false
  distinct : (objs.map fun o => relativeTo o.path root).Nodup

namespace FileSystem

variable {fs : FileSystem} {l : Location}

theorem objectOf_path {node : Node} {o : FsObject} (h : fs.objectOf l.path node = some o) :
    o.path = l.path ++ spell slash node.names := by
  obtain ⟨type, -, rfl⟩ := Option.map_eq_some_iff.1 h
  rfl

/-- The path of an object and its path relative to the root. -/
theorem object_paths {node : Node} (hnode : node ∈ fs.tree.nodes []) {o : FsObject}
    (h : fs.objectOf l.path node = some o) :
    isAbsolute o.path = true ∧ isResolved o.path = true ∧
      relativeTo o.path l.path = .ok ([slash].intercalate node.names) ∧
      startsWith ([slash].intercalate node.names) [slash] = false := by
  obtain ⟨ns, hne, hns, hnames⟩ := fs.wf.node_names hnode
  rw [List.nil_append] at hns
  subst hns
  have hproper : ∀ n ∈ node.names, ProperName n := fun n hn => (hnames n hn).toProperName
  have hpath : o.path = (l.below node.names hproper).path := by
    rw [objectOf_path h]
    exact (spell_append _ _).symm
  rw [hpath]
  refine ⟨Location.isAbsolute_path _, Location.isResolved_path _,
    relativeTo_below l hne hproper, ?_⟩
  obtain ⟨n, ns, e⟩ := List.exists_cons_of_ne_nil hne
  have hn := hproper n (e ▸ List.mem_cons_self)
  obtain ⟨b, bs, hb⟩ := List.exists_cons_of_ne_nil hn.ne_nil
  have hhead : ∃ t, [slash].intercalate node.names = b :: t := by
    rw [← tail_spell, e, spell_cons, List.tail_cons, hb]
    exact ⟨_, rfl⟩
  obtain ⟨t, ht⟩ := hhead
  have hne : b ≠ slash := fun e => hn.no_slash (by rw [hb, e]; exact List.mem_cons_self)
  rw [ht, Bool.eq_false_iff, ne_eq, startsWith_iff]
  rintro ⟨s, hs⟩
  exact hne (List.cons.inj hs).1.symm

/-- Different nodes have different paths relative to the root. -/
theorem relative_injective {node node' : Node} (hnode : node ∈ fs.tree.nodes [])
    (hnode' : node' ∈ fs.tree.nodes [])
    (h : [slash].intercalate node.names = [slash].intercalate node'.names) :
    node.names = node'.names := by
  obtain ⟨ns, hne, hns, hnames⟩ := fs.wf.node_names hnode
  obtain ⟨ns', hne', hns', hnames'⟩ := fs.wf.node_names hnode'
  rw [List.nil_append] at hns hns'
  rw [hns, hns'] at h ⊢
  exact intercalate_injective hne hne' (fun n hn => (hnames n hn).no_slash)
    (fun n hn => (hnames' n hn).no_slash) h

theorem distinct_relativePaths (fs : FileSystem) (l : Location) :
    (((fs.tree.nodes []).filterMap (fs.objectOf l.path)).map
      fun o => relativeTo o.path l.path).Nodup := by
  have hnodup := fs.wf.nodup_nodes []
  rw [List.Nodup, List.pairwise_map] at hnodup
  rw [List.Nodup, List.pairwise_map, List.pairwise_filterMap]
  refine hnodup.imp_of_mem fun {node node'} hnode hnode' hne o ho o' ho' e => ?_
  rw [(object_paths hnode ho).2.2.1, (object_paths hnode' ho').2.2.1] at e
  exact hne (relative_injective hnode hnode' (Except.ok.inj e))

end FileSystem

/-- **The crawl is exact.** On every file system and from every absolute and resolved root other
than `/`, a visit hands exactly the objects nothing keeps it from to the handler. -/
theorem visit_exact (fs : FileSystem) {root : Bytes} (habs : isAbsolute root = true)
    (hres : isResolved root = true) (hroot : root ≠ [slash]) {fuel : Nat}
    (hfuel : fs.tree.dirCount ≤ fuel) : ∃ objs, CrawlExact fs root fuel objs := by
  obtain ⟨l, rfl⟩ := exists_location habs hres hroot
  have hperm := fs.found_perm (l := l) hfuel
  refine ⟨(found fs.kernel fuel l.path).1, ?_, hperm, fun hall => ?_, ?_, fun o ho => ?_, ?_⟩
  · intro σ handleObject s
    rw [visit_eq_foldlM _ _ _ _ hres, fs.found_queue_nil hfuel]
  · rwa [List.filter_eq_self.2 fun node _ => fs.unhindered_of_allSucceed hall node.names] at hperm
  · exact (fs.found_sorted fuel).imp fun h hunder => Nat.not_lt.2 h (Under.count_lt hunder)
  · obtain ⟨node, hnode, hobj⟩ := List.mem_filterMap.1 (hperm.mem_iff.1 ho)
    have hmem := (List.mem_filter.1 hnode).1
    obtain ⟨h1, h2, h3, h4⟩ := FileSystem.object_paths hmem hobj
    exact ⟨h1, h2, node, hmem, hobj, h3, h4⟩
  · apply (hperm.map _).nodup_iff.2
    exact (fs.distinct_relativePaths l).sublist ((List.filter_sublist.filterMap _).map _)

/-- A directory with one file in it. -/
def oneFileTree : Contents :=
  .dir (text "d") 2 ⟨0o040755, 0, 0, 4096, ⟨0, 0⟩, ⟨0, 0⟩⟩
    (.leaf (text "f") 3 ⟨0o100644, 0, 0, 5, ⟨0, 0⟩, ⟨0, 0⟩⟩ [] .nil) .nil

def oneFile : FileSystem := .ofTree oneFileTree (by decide)

theorem visit_exact_oneFile : ∃ objs, CrawlExact oneFile (text "/srv") 1 objs :=
  visit_exact oneFile rfl rfl (by decide) (Nat.le_refl 1)

/-- If opening and duplicating descriptors always succeeds, only the entries whose own `fstatat`
fails are not handled. -/
def LosesOnlyFailedEntries (fs : FileSystem) (root : Bytes) (fuel : Nat) : Prop :=
  (∀ q, fs.openFails q = false ∧ fs.dupFails q = false) →
    ∀ node ∈ fs.tree.nodes [], fs.statFails node.names = false →
      ∀ o, fs.objectOf root node = some o → o ∈ (found fs.kernel fuel root).1

/-- The same tree, where `fstatat` fails on the directory. -/
def unstattableDir : FileSystem := { oneFile with statFails := fun q => q == [text "d"] }

/-- A directory whose `fstatat` fails is not crawled: what is below it is lost as well. -/
theorem unstattableDir_loses_file : ¬ LosesOnlyFailedEntries unstattableDir (text "/srv") 1 := by
  intro h
  have hfile := h (fun q => ⟨rfl, rfl⟩) ⟨[text "d", text "f"], _⟩
    (List.mem_cons_of_mem _ List.mem_cons_self) (by decide) _ rfl
  have hempty : (found unstattableDir.kernel 1 (text "/srv")).1 = [] := by decide
  rw [hempty] at hfile
  cases hfile

end Netpull
