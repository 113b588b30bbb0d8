import Mathlib.Data.List.Forall2
import Mathlib.Data.List.Infix
import Netpull.Server.FastCrawler

/-!
# A directory tree and the kernel that serves it

`Contents` is what a directory holds, as a finite tree. A `FileSystem` is such a tree together
with everything the crawler cannot choose: the order in which `getdents64` lists a directory and
how it cuts the list into buffers, which entries it reports as `DT_UNKNOWN`, and which calls fail.
A directory descriptor is the list of names from the visit root down to the directory.
-/

namespace Netpull

/-- What a directory holds. -/
inductive Contents
  | nil
  | leaf (name : Bytes) (ino : UInt64) (stat : Stat) (target : Bytes) (rest : Contents)
  | dir (name : Bytes) (ino : UInt64) (stat : Stat) (sub rest : Contents)
deriving DecidableEq, Repr

/-- One entry of a directory; `sub` is what it holds if it is a directory itself. -/
structure Entry where
  name : Bytes
  ino : UInt64
  stat : Stat
  target : Bytes
  sub : Option Contents
deriving DecidableEq, Repr

/-- An object below a directory, with the names that lead to it. -/
structure Node where
  names : List Bytes
  entry : Entry
deriving DecidableEq, Repr

namespace Contents

def entries : Contents → List Entry
  | nil => []
  | leaf name ino stat target rest => ⟨name, ino, stat, target, none⟩ :: rest.entries
  | dir name ino stat sub rest => ⟨name, ino, stat, [], some sub⟩ :: rest.entries

/-- Everything strictly below a directory that `p` leads to. -/
def nodes (p : List Bytes) : Contents → List Node
  | nil => []
  | leaf name ino stat target rest =>
    ⟨p ++ [name], ⟨name, ino, stat, target, none⟩⟩ :: rest.nodes p
  | dir name ino stat sub rest =>
    ⟨p ++ [name], ⟨name, ino, stat, [], some sub⟩⟩ :: (sub.nodes (p ++ [name]) ++ rest.nodes p)

/-- The number of directories strictly below. -/
def dirCount : Contents → Nat
  | nil => 0
  | leaf _ _ _ _ rest => rest.dirCount
  | dir _ _ _ sub rest => sub.dirCount + 1 + rest.dirCount

def names (c : Contents) : List Bytes := c.entries.map Entry.name

/-- The contents a list of names leads to, if all of them are directories. -/
def dirAt : Contents → List Bytes → Option Contents
  | c, [] => some c
  | c, n :: ns =>
    match c.entries.find? (·.name == n) with
    | some e => match e.sub with
      | some sub => sub.dirAt ns
      | none => none
    | none => none
termination_by structural _ ns => ns

/-- A name a directory entry can have. -/
structure EntryName (n : Bytes) : Prop extends ProperName n where
  no_nul : 0 ∉ n

theorem entryName_iff {n : Bytes} : EntryName n ↔ ProperName n ∧ 0 ∉ n :=
  ⟨fun h => ⟨h.toProperName, h.no_nul⟩, fun h => ⟨h.1, h.2⟩⟩

instance (n : Bytes) : Decidable (EntryName n) := decidable_of_iff _ entryName_iff.symm

/-- Names are possible and distinct within a directory, and exactly the directories have the mode
of one. -/
def WF : Contents → Prop
  | nil => True
  | leaf name _ stat _ rest =>
    EntryName name ∧ modeType stat.stMode ≠ .dir ∧ name ∉ rest.names ∧ rest.WF
  | dir name _ stat sub rest =>
    EntryName name ∧ modeType stat.stMode = .dir ∧ name ∉ rest.names ∧ sub.WF ∧ rest.WF

instance decidableWF : (c : Contents) → Decidable c.WF
  | nil => inferInstanceAs (Decidable True)
  | leaf _ _ _ _ rest =>
    have := rest.decidableWF
    inferInstanceAs (Decidable (_ ∧ _ ∧ _ ∧ _))
  | dir _ _ _ sub rest =>
    have := sub.decidableWF
    have := rest.decidableWF
    inferInstanceAs (Decidable (_ ∧ _ ∧ _ ∧ _ ∧ _))

end Contents

/-- `getdents64` reports an entry by its name and inode, and its type truthfully or not at all. -/
structure Reports (dp : Dirent) (e : Entry) : Prop where
  name : dp.dName = e.name
  ino : dp.dIno = e.ino
  type : dp.dType = .unknown ∨ dp.dType = modeType e.stat.stMode

def isDots (dp : Dirent) : Bool := dp.dName == text "." || dp.dName == text ".."

/-- `dps` lists the entries `es` in some order, with `.` and `..` anywhere between them. -/
def Lists (dps : List Dirent) (es : List Entry) : Prop :=
  ∃ es', es'.Perm es ∧ List.Forall₂ Reports (dps.filter (!isDots ·)) es'

/-- A directory tree, how it is listed, and which calls fail. The predicates on failures take the
names of the entry the call is about; the visit root has none. -/
structure FileSystem where
  tree : Contents
  wf : tree.WF
  listing : List Bytes → List (List Dirent)
  lists : ∀ p c, tree.dirAt p = some c → Lists (listing p).flatten c.entries
  statFails : List Bytes → Bool
  openFails : List Bytes → Bool
  dupFails : List Bytes → Bool
  readlinkFails : List Bytes → Bool

namespace FileSystem

def entryAt (fs : FileSystem) (d : List Bytes) (n : Bytes) : Option Entry :=
  (fs.tree.dirAt d).bind fun c => c.entries.find? (·.name == n)

/-- The kernel with the visit root opened from the tree. -/
def kernel (fs : FileSystem) : Kernel (List Bytes) where
  openat
    | none, _ => if fs.openFails [] then none else some []
    | some d, n =>
      if fs.openFails (d ++ [n]) then none else (fs.tree.dirAt (d ++ [n])).map fun _ => d ++ [n]
  getdents64 := fs.listing
  fstatat d n := if fs.statFails (d ++ [n]) then none else (fs.entryAt d n).map Entry.stat
  readlinkat d n := if fs.readlinkFails (d ++ [n]) then none else (fs.entryAt d n).map Entry.target
  dup d n := if fs.dupFails (d ++ [n]) then none else some d

/-- The object the crawler makes of a node, if its type is one of the three. -/
def objectOf (fs : FileSystem) (root : Bytes) (node : Node) : Option FsObject :=
  (objectType (modeType node.entry.stat.stMode)).map fun type =>
    { type, root, name := node.entry.name,
      path := root ++ Separated.spell slash node.names,
      linkTarget :=
        if type = .symlink ∧ fs.readlinkFails node.names = false then cstr node.entry.target
        else [],
      inode := node.entry.ino, stat := node.entry.stat }

/-- The directory at `q` is crawled when it is found. -/
def crawled (fs : FileSystem) (q : List Bytes) : Bool :=
  !fs.statFails q && !fs.dupFails q && !fs.openFails q

/-- Nothing keeps the crawler from the node `ns`, once the directory `p` above it is open: the
directories strictly between are crawled and its own `fstatat` succeeds. -/
def visible (fs : FileSystem) (p ns : List Bytes) : Bool :=
  !fs.statFails ns &&
    ns.inits.all fun q => !p.isPrefixOf q || q == p || q == ns || fs.crawled q

/-- Nothing keeps the crawler from the node `ns`. -/
def unhindered (fs : FileSystem) (ns : List Bytes) : Bool :=
  !fs.openFails [] && fs.visible [] ns

/-- No call fails. -/
def AllSucceed (fs : FileSystem) : Prop :=
  ∀ q, fs.statFails q = false ∧ fs.openFails q = false ∧ fs.dupFails q = false ∧
    fs.readlinkFails q = false

/-- The nodes the crawler comes to in and below an open directory. -/
def reached (fs : FileSystem) (p : List Bytes) : Contents → List Node
  | .nil => []
  | .leaf name ino stat target rest =>
    (if fs.statFails (p ++ [name]) then [] else [⟨p ++ [name], ⟨name, ino, stat, target, none⟩⟩])
      ++ fs.reached p rest
  | .dir name ino stat sub rest =>
    (if fs.statFails (p ++ [name]) then []
      else [⟨p ++ [name], ⟨name, ino, stat, [], some sub⟩⟩]) ++
    ((if fs.crawled (p ++ [name]) then fs.reached (p ++ [name]) sub else []) ++ fs.reached p rest)

end FileSystem

/-! ## Trees -/

/-- What well-formedness says about one entry. -/
structure Entry.WF (e : Entry) : Prop where
  name : Contents.EntryName e.name
  leaf : e.sub = none → modeType e.stat.stMode ≠ .dir
  dir : ∀ sub, e.sub = some sub → modeType e.stat.stMode = .dir ∧ sub.WF

namespace Contents

theorem WF.entry {c : Contents} (h : c.WF) {e : Entry} (he : e ∈ c.entries) : e.WF := by
  induction c with
  | nil => cases he
  | leaf name ino stat target rest ih =>
    obtain ⟨hname, hmode, -, hrest⟩ := h
    rcases List.mem_cons.1 he with rfl | he
    · exact ⟨hname, fun _ => hmode, fun sub hsub => nomatch hsub⟩
    · exact ih hrest he
  | dir name ino stat sub rest _ ih =>
    obtain ⟨hname, hmode, -, hsub, hrest⟩ := h
    rcases List.mem_cons.1 he with rfl | he
    · refine ⟨hname, fun hnone => (nomatch hnone), fun sub' hsub' => ?_⟩
      obtain rfl : sub = sub' := Option.some.inj hsub'
      exact ⟨hmode, hsub⟩
    · exact ih hrest he

theorem WF.nodup_names {c : Contents} (h : c.WF) : c.names.Nodup := by
  induction c with
  | nil => exact List.nodup_nil
  | leaf name ino stat target rest ih => exact List.nodup_cons.2 ⟨h.2.2.1, ih h.2.2.2⟩
  | dir name ino stat sub rest _ ih => exact List.nodup_cons.2 ⟨h.2.2.1, ih h.2.2.2.2⟩

/-- Looking an entry up by its name finds it. -/
theorem WF.find_name {c : Contents} (h : c.WF) {e : Entry} (he : e ∈ c.entries) :
    c.entries.find? (·.name == e.name) = some e := by
  have hnodup : (c.entries.map Entry.name).Nodup := h.nodup_names
  rw [List.find?_eq_some_iff_append]
  obtain ⟨as, bs, hsplit⟩ := List.append_of_mem he
  refine ⟨by simp, as, bs, hsplit, fun a ha => ?_⟩
  rw [hsplit, List.map_append, List.nodup_append] at hnodup
  have hne : a.name ≠ e.name :=
    hnodup.2.2 _ (List.mem_map_of_mem ha) _ (List.mem_map_of_mem List.mem_cons_self)
  simpa using hne

theorem dirAt_nil (c : Contents) : c.dirAt [] = some c := by
  simp [dirAt]

theorem dirAt_cons (c : Contents) (n : Bytes) (ns : List Bytes) :
    c.dirAt (n :: ns) =
      ((c.entries.find? (·.name == n)).bind Entry.sub).bind fun sub => sub.dirAt ns := by
  rw [dirAt]
  cases h : c.entries.find? (·.name == n) with
  | none => rfl
  | some e => cases h' : e.sub <;> simp [h']

theorem dirAt_concat (c : Contents) (p : List Bytes) (n : Bytes) :
    c.dirAt (p ++ [n]) =
      (c.dirAt p).bind fun c' => (c'.entries.find? (·.name == n)).bind Entry.sub := by
  induction p generalizing c with
  | nil =>
    rw [List.nil_append, dirAt_cons, dirAt_nil]
    simp [dirAt_nil]
  | cons m p ih =>
    rw [List.cons_append, dirAt_cons, dirAt_cons]
    cases (c.entries.find? (·.name == m)).bind Entry.sub with
    | none => rfl
    | some sub => exact ih sub

theorem WF.dirAt {c : Contents} (h : c.WF) {p : List Bytes} {c' : Contents}
    (hp : c.dirAt p = some c') : c'.WF := by
  induction p generalizing c with
  | nil =>
    rw [dirAt_nil] at hp
    exact Option.some.inj hp ▸ h
  | cons n p ih =>
    rw [dirAt_cons] at hp
    obtain ⟨sub, hsub, hp⟩ := Option.bind_eq_some_iff.1 hp
    obtain ⟨e, he, hesub⟩ := Option.bind_eq_some_iff.1 hsub
    exact ih ((h.entry (List.mem_of_find?_eq_some he)).dir sub hesub).2 hp

/-- The directory an entry of `c'` leads to. -/
theorem WF.dirAt_entry {c : Contents} (h : c.WF) {p : List Bytes} {c' : Contents}
    (hp : c.dirAt p = some c') {e : Entry} (he : e ∈ c'.entries) :
    c.dirAt (p ++ [e.name]) = e.sub := by
  rw [dirAt_concat, hp, Option.bind_some, (h.dirAt hp).find_name he, Option.bind_some]

/-- The nodes below a directory have proper names and lie strictly below it. -/
theorem WF.node_names {c : Contents} (h : c.WF) {p : List Bytes} {node : Node}
    (hnode : node ∈ c.nodes p) :
    ∃ ns, ns ≠ [] ∧ node.names = p ++ ns ∧ ∀ n ∈ ns, EntryName n := by
  induction c generalizing p with
  | nil => cases hnode
  | leaf name ino stat target rest ih =>
    rcases List.mem_cons.1 hnode with rfl | hnode
    · exact ⟨[name], by simp, rfl, fun n hn => List.mem_singleton.1 hn ▸ h.1⟩
    · exact ih h.2.2.2 hnode
  | dir name ino stat sub rest ihsub ih =>
    obtain ⟨hname, -, -, hsub, hrest⟩ := h
    rcases List.mem_cons.1 hnode with rfl | hnode
    · exact ⟨[name], by simp, rfl, fun n hn => List.mem_singleton.1 hn ▸ hname⟩
    · rcases List.mem_append.1 hnode with hnode | hnode
      · obtain ⟨ns, -, hns, hnames⟩ := ihsub hsub hnode
        refine ⟨name :: ns, by simp, by simp [hns], fun n hn => ?_⟩
        exact (List.mem_cons.1 hn).elim (fun e => e ▸ hname) (hnames n)
      · exact ih hrest hnode

/-- The first name below `p` of a node is that of an entry of the directory. -/
theorem node_head {c : Contents} {p : List Bytes} {node : Node} (hnode : node ∈ c.nodes p) :
    ∃ n ∈ c.names, p ++ [n] <+: node.names := by
  induction c generalizing p with
  | nil => cases hnode
  | leaf name ino stat target rest ih =>
    rcases List.mem_cons.1 hnode with rfl | hnode
    · exact ⟨name, List.mem_cons_self, List.prefix_refl _⟩
    · obtain ⟨n, hn, hpre⟩ := ih hnode
      exact ⟨n, List.mem_cons_of_mem _ hn, hpre⟩
  | dir name ino stat sub rest ihsub ih =>
    rcases List.mem_cons.1 hnode with rfl | hnode
    · exact ⟨name, List.mem_cons_self, List.prefix_refl _⟩
    · rcases List.mem_append.1 hnode with hnode | hnode
      · obtain ⟨n, -, hpre⟩ := ihsub hnode
        exact ⟨name, List.mem_cons_self, (List.prefix_append _ _).trans hpre⟩
      · obtain ⟨n, hn, hpre⟩ := ih hnode
        exact ⟨n, List.mem_cons_of_mem _ hn, hpre⟩

/-- Nodes below different entries of a directory have different names. -/
theorem names_ne_of_head {p : List Bytes} {n m : Bytes} {ns : List Bytes} (hn : p ++ [n] <+: ns)
    {ms : List Bytes} (hm : p ++ [m] <+: ms) (hne : n ≠ m) : ns ≠ ms := by
  rintro rfl
  obtain ⟨t, rfl⟩ := hn
  rw [List.append_assoc] at hm
  have hm' := (List.prefix_append_right_inj p).1 hm
  simp only [List.cons_append, List.nil_append, List.cons_prefix_cons] at hm'
  exact hne hm'.1.symm

/-- No two nodes have the same names. -/
theorem WF.nodup_nodes {c : Contents} (h : c.WF) (p : List Bytes) :
    ((c.nodes p).map Node.names).Nodup := by
  induction c generalizing p with
  | nil => exact List.nodup_nil
  | leaf name ino stat target rest ih =>
    refine List.nodup_cons.2 ⟨fun hmem => ?_, ih h.2.2.2 p⟩
    obtain ⟨node, hnode, e⟩ := List.mem_map.1 hmem
    obtain ⟨n, hn, hpre⟩ := node_head hnode
    have hne : n ≠ name := fun e => h.2.2.1 (e ▸ hn)
    exact names_ne_of_head hpre (List.prefix_refl _) hne e
  | dir name ino stat sub rest ihsub ih =>
    obtain ⟨-, -, hfresh, hsub, hrest⟩ := h
    have hother : ∀ node ∈ rest.nodes p, ∀ ns, p ++ [name] <+: ns → node.names ≠ ns := by
      intro node hnode ns hns
      obtain ⟨n, hn, hpre⟩ := node_head hnode
      exact names_ne_of_head hpre hns fun e => hfresh (e ▸ hn)
    simp only [nodes, List.map_cons, List.map_append]
    refine List.nodup_cons.2 ⟨fun hmem => ?_, List.nodup_append.2
      ⟨ihsub hsub _, ih hrest p, fun a ha b hb e => ?_⟩⟩
    · rcases List.mem_append.1 hmem with hmem | hmem
      · obtain ⟨node, hnode, e⟩ := List.mem_map.1 hmem
        obtain ⟨ns, hne, hns, -⟩ := hsub.node_names hnode
        rw [hns] at e
        exact hne (List.append_right_eq_self.1 e)
      · obtain ⟨node, hnode, e⟩ := List.mem_map.1 hmem
        exact hother node hnode _ (List.prefix_refl _) e
    · obtain ⟨node, hnode, rfl⟩ := List.mem_map.1 ha
      obtain ⟨node', hnode', rfl⟩ := List.mem_map.1 hb
      obtain ⟨ns, -, hns, -⟩ := hsub.node_names hnode
      exact hother node' hnode' _ (hns ▸ List.prefix_append _ _) e.symm

end Contents

/-! ## The nodes the crawler comes to -/

namespace FileSystem

variable (fs : FileSystem)

theorem visible_iff {p ns : List Bytes} : fs.visible p ns = true ↔ fs.statFails ns = false ∧
    ∀ q, p <+: q → q ≠ p → q <+: ns → q ≠ ns → fs.crawled q = true := by
  simp only [visible, Bool.and_eq_true, Bool.not_eq_true', List.all_eq_true, List.mem_inits,
    Bool.or_eq_true, beq_iff_eq, ← Bool.not_eq_true, List.isPrefixOf_iff_prefix]
  refine and_congr_right fun _ => ⟨fun h q h1 h2 h3 h4 => ?_, fun h q h3 => ?_⟩
  · have := h q h3
    tauto
  · have := h q
    tauto

theorem unhindered_of_allSucceed (h : fs.AllSucceed) (ns : List Bytes) :
    fs.unhindered ns = true := by
  have hvis : fs.visible [] ns = true := by
    rw [visible_iff]
    refine ⟨(h ns).1, fun q _ _ _ _ => ?_⟩
    simp [crawled, (h q).1, (h q).2.1, (h q).2.2.1]
  rw [unhindered, hvis, (h []).2.1]
  rfl

theorem visible_entry (p : List Bytes) (n : Bytes) :
    fs.visible p (p ++ [n]) = !fs.statFails (p ++ [n]) := by
  rw [Bool.eq_iff_iff, visible_iff, Bool.not_eq_true']
  apply and_iff_left
  intro q h1 h2 h3 h4
  rcases List.prefix_concat_iff.1 h3 with h | h
  · exact absurd h h4
  · exact absurd (h1.eq_of_length_le h.length_le).symm h2

/-- Below a subdirectory, a node is visible if the subdirectory is crawled and nothing from there
on is in the way. -/
theorem visible_below (p : List Bytes) (n : Bytes) {ns : List Bytes} (hpre : p ++ [n] <+: ns)
    (hne : ns ≠ p ++ [n]) :
    fs.visible p ns = (fs.crawled (p ++ [n]) && fs.visible (p ++ [n]) ns) := by
  rw [Bool.eq_iff_iff, Bool.and_eq_true, visible_iff, visible_iff]
  constructor
  · rintro ⟨hstat, h⟩
    have hdir := h _ (List.prefix_append p [n]) (by simp) hpre hne.symm
    refine ⟨hdir, hstat, fun q h1 h2 h3 h4 => ?_⟩
    refine h q ((List.prefix_append p [n]).trans h1) (fun e => ?_) h3 h4
    have := h1.length_le
    rw [e, List.length_append, List.length_singleton] at this
    omega
  · rintro ⟨hdir, hstat, h⟩
    refine ⟨hstat, fun q h1 h2 h3 h4 => ?_⟩
    by_cases heq : q = p ++ [n]
    · rw [heq]
      exact hdir
    · refine h q ?_ heq h3 h4
      have hlt : p.length < q.length :=
        Nat.lt_of_le_of_ne h1.length_le fun e => h2 (h1.eq_of_length e).symm
      apply List.prefix_of_prefix_length_le hpre h3
      rw [List.length_append, List.length_singleton]
      omega

/-- The nodes reached from an open directory are the visible ones below it. -/
theorem reached_eq {c : Contents} (h : c.WF) (p : List Bytes) :
    fs.reached p c = (c.nodes p).filter fun node => fs.visible p node.names := by
  induction c generalizing p with
  | nil => rfl
  | leaf name ino stat target rest ih =>
    rw [reached, Contents.nodes, List.filter_cons, ih h.2.2.2, visible_entry]
    cases fs.statFails (p ++ [name]) <;> rfl
  | dir name ino stat sub rest ihsub ih =>
    obtain ⟨-, -, -, hsub, hrest⟩ := h
    have hbelow : (sub.nodes (p ++ [name])).filter (fun node => fs.visible p node.names) =
        if fs.crawled (p ++ [name]) then fs.reached (p ++ [name]) sub else [] := by
      rw [ihsub hsub]
      have hvis : ∀ node ∈ sub.nodes (p ++ [name]), fs.visible p node.names =
          (fs.crawled (p ++ [name]) && fs.visible (p ++ [name]) node.names) := by
        intro node hnode
        obtain ⟨ns, hne, hns, -⟩ := hsub.node_names hnode
        apply fs.visible_below p name (hns ▸ List.prefix_append _ _)
        rw [hns]
        exact fun e => hne (List.append_right_eq_self.1 e)
      rw [List.filter_congr hvis]
      cases fs.crawled (p ++ [name]) <;> simp
    rw [reached, Contents.nodes, List.filter_cons, List.filter_append, ih hrest, hbelow,
      visible_entry]
    cases fs.statFails (p ++ [name]) <;> simp

/-- The file system of a tree whose directories are listed in one buffer in the order of the tree,
without types, and where no call fails. -/
def ofTree (tree : Contents) (wf : tree.WF) : FileSystem where
  tree := tree
  wf := wf
  listing p :=
    [((tree.dirAt p).map fun c => c.entries.map fun e => ⟨e.ino, .unknown, e.name⟩).getD []]
  lists := by
    intro p c hc
    refine ⟨c.entries, .refl _, ?_⟩
    have hnames : ∀ e ∈ c.entries, (!isDots ⟨e.ino, .unknown, e.name⟩) = true := by
      intro e he
      have hname := ((wf.dirAt hc).entry he).name
      simp [isDots, hname.ne_dot, hname.ne_dotdot]
    simp only [hc, Option.map_some, Option.getD_some, List.flatten_singleton]
    rw [List.filter_eq_self.2 (by simpa using hnames), List.forall₂_map_left_iff]
    exact List.forall₂_same.2 fun e _ => ⟨rfl, rfl, .inl rfl⟩
  statFails _ := false
  openFails _ := false
  dupFails _ := false
  readlinkFails _ := false

end FileSystem

end Netpull
