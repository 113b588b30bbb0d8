import Mathlib.Data.List.Induction
import Netpull.Lib.Inodes

/-!
# What grows in an empty directory

Names lead from a directory down through other directories (`descend`). Where a directory was empty
and has only been added to, at places that names lead to, everything below it is new, no inode has
two places in it, and nothing beside it has changed (`Planted`). A path of names is resolved by
descending, if no symlink is on the way (`resolve_names`).

A `Layout` says what belongs where. As long as everything below the directory lies where it belongs
(`Laid`), no symlink is on the way to a place.
-/

namespace Netpull.Inodes

variable {α β τ : Type*}

/-- A node with nothing below it. -/
def Node.Bare : Node α β τ → Prop
  | .dir _ entries => entries = []
  | .file _ | .symlink _ => True

namespace Disk

variable [BEq α]

/-- The inode of an entry. -/
def child (d : Disk α β τ) (i : Nat) (n : α) : Option Nat :=
  match d.nodes[i]? with
  | some (.dir _ entries) => entries.lookup n
  | _ => none

/-- The inode that names lead to, each the entry of a directory. -/
def descend (d : Disk α β τ) (i : Nat) (ns : List α) : Option Nat := ns.foldlM d.child i

/-! ## Children -/

section Child

variable {d : Disk α β τ} {i j : Nat} {n : α}

theorem child_lt (h : d.child i n = some j) : i < d.nodes.length := by
  unfold child at h
  split at h
  · next hi => exact (List.getElem?_eq_some_iff.1 hi).1
  · cases h

theorem dir_of_child (h : d.child i n = some j) :
    ∃ parent entries, d.nodes[i]? = some (.dir parent entries) := by
  unfold child at h
  split at h
  · next parent entries hi => exact ⟨parent, entries, hi⟩
  · cases h

theorem child_of_dir {parent : Nat} {entries : List (α × Nat)}
    (h : d.nodes[i]? = some (.dir parent entries)) (n : α) : d.child i n = entries.lookup n := by
  rw [child, h]

/-- The content of a file is none of its directory's business. -/
theorem child_write {old : β} (h : d.nodes[i]? = some (.file old)) (content : β) :
    (d.write i content).child = d.child := by
  funext j n
  by_cases hij : i = j
  · subst hij
    have hnew : (d.write i content).nodes[i]? = some (.file content) :=
      List.getElem?_set_self (List.getElem?_eq_some_iff.1 h).1
    rw [child, child, hnew, h]
  · have hsame : (d.write i content).nodes[j]? = d.nodes[j]? := List.getElem?_set_ne hij
    rw [child, child, hsame]

/-- A new inode is the one new child. -/
theorem child_create [LawfulBEq α] {dir : Nat} {node : Node α β τ} (hbare : node.Bare) {k : α}
    (h : (d.create dir n node).child i k = some j) :
    d.child i k = some j ∨ i = dir ∧ k = n ∧ j = d.nodes.length := by
  have hlt := child_lt h
  rw [create, List.length_append, List.length_modify, List.length_singleton] at hlt
  rcases Nat.lt_succ_iff_lt_or_eq.1 hlt with hi | rfl
  · obtain ⟨old, hold⟩ : ∃ old, d.nodes[i]? = some old := ⟨_, List.getElem?_eq_getElem hi⟩
    have hnew := d.nodes_create dir n node hold
    cases old with
    | dir parent entries =>
      rw [child_of_dir hold]
      split at hnew
      · next hdir =>
        rw [child_of_dir hnew, List.lookup_append] at h
        cases hentry : entries.lookup k with
        | some j' =>
          rw [hentry] at h
          exact .inl h
        | none =>
          rw [hentry, Option.none_or, List.lookup_cons] at h
          split at h
          · next hk => exact .inr ⟨hdir.symm, eq_of_beq hk, (Option.some.inj h).symm⟩
          · cases h
      · rw [child_of_dir hnew] at h
        exact .inl h
    | file content | symlink target =>
      unfold child at h
      rw [hnew] at h
      split at h
      · next heq => split at heq <;> cases heq
      · cases h
  · unfold child at h
    rw [nodes_create_new] at h
    cases node with
    | dir parent entries =>
      rw [show entries = [] from hbare] at h
      cases h
    | file content | symlink target => cases h

end Child

/-! ## Descending -/

section Descend

variable {d d' : Disk α β τ} {i j : Nat}

theorem descend_cons (d : Disk α β τ) (i : Nat) (n : α) (ns : List α) :
    d.descend i (n :: ns) = (d.child i n).bind (d.descend · ns) := List.foldlM_cons

theorem descend_concat (d : Disk α β τ) (i : Nat) (ns : List α) (n : α) :
    d.descend i (ns ++ [n]) = (d.descend i ns).bind (d.child · n) := by
  rw [descend, List.foldlM_append]
  congr 1
  funext j
  rw [List.foldlM_cons]
  cases d.child j n <;> rfl

theorem descend_congr (h : d'.child = d.child) (i : Nat) (ns : List α) :
    d'.descend i ns = d.descend i ns := by
  rw [descend, descend, h]

theorem child_grows (h : d.Grows d') {n : α} (hchild : d.child i n = some j) :
    d'.child i n = some j := by
  unfold child at hchild
  split at hchild
  · next parent entries hi =>
    obtain ⟨entries', hi', hentries⟩ := h.dir hi
    rw [child_of_dir hi']
    exact hentries n j hchild
  · cases hchild

/-- Names lead to the same inode for good. -/
theorem descend_grows (h : d.Grows d') {ns : List α} (hj : d.descend i ns = some j) :
    d'.descend i ns = some j := by
  induction ns generalizing i with
  | nil => exact hj
  | cons n ns ih =>
    rw [descend_cons] at hj ⊢
    obtain ⟨k, hchild, hrest⟩ := Option.bind_eq_some_iff.1 hj
    rw [child_grows h hchild]
    exact ih hrest

/-- What a path of names is resolved to, and why. -/
inductive Resolves (d : Disk α β τ) (i : Nat) (ns : List α) : Lookup α → Prop
  | inode (j : Nat) (descends : d.descend i ns = some j) : Resolves d i ns (.inode j)
  | missing (dir : Nat) (ms : List α) (n : α) (names : ns = ms ++ [n])
      (descends : d.descend i ms = some dir) {parent : Nat} {entries : List (α × Nat)}
      (node : d.nodes[dir]? = some (.dir parent entries)) (lacks : entries.lookup n = none) :
      Resolves d i ns (.missing dir n)
  | error (gone : ∀ j, d.descend i ns = some j → d.nodes[j]? = none) : Resolves d i ns .error

/-- Names that lead somewhere are resolved to that. -/
theorem Resolves.eq_inode {ns : List α} {l : Lookup α} (h : d.Resolves i ns l)
    (hj : d.descend i ns = some j) {node : Node α β τ} (hnode : d.nodes[j]? = some node) :
    l = .inode j := by
  cases h with
  | inode k hk => rw [Option.some.inj (hk.symm.trans hj)]
  | missing dir ms n hnames hdir hdirnode hlacks =>
    rw [hnames, descend_concat, hdir, Option.bind_some, child_of_dir hdirnode, hlacks] at hj
    cases hj
  | error hgone => cases (hgone j hj).symm.trans hnode

/-- Where the last name is missing, the names lead nowhere. -/
theorem Resolves.descend_missing {ns : List α} {dir : Nat} {n : α}
    (h : d.Resolves i ns (.missing dir n)) : d.descend i ns = none := by
  cases h with
  | missing _ ms _ hnames hdir hdirnode hlacks =>
    rw [hnames, descend_concat, hdir, Option.bind_some, child_of_dir hdirnode, hlacks]

theorem Resolves.cons {n : α} {ns : List α} {l : Lookup α} (hchild : d.child i n = some j)
    (h : d.Resolves j ns l) : d.Resolves i (n :: ns) l := by
  have hcons : ∀ ms, d.descend i (n :: ms) = d.descend j ms := by
    intro ms
    rw [descend_cons, hchild]
    rfl
  cases h with
  | inode k hdescends => exact .inode k ((hcons ns).trans hdescends)
  | missing dir ms k hnames hdescends hnode hlacks =>
    exact .missing dir (n :: ms) k (congrArg (n :: ·) hnames) ((hcons ms).trans hdescends) hnode
      hlacks
  | error hgone => exact .error fun k hk => hgone k ((hcons ns).symm.trans hk)

/-- No symlink lies on the way. -/
def NoLink (d : Disk α β τ) (i : Nat) (ns : List α) : Prop :=
  ∀ ms, ms ≠ [] → ms <+: ns → ms ≠ ns → ∀ j target, d.descend i ms = some j →
    d.nodes[j]? ≠ some (.symlink target)

theorem NoLink.tail {n : α} {ns : List α} (h : d.NoLink i (n :: ns))
    (hchild : d.child i n = some j) : d.NoLink j ns := by
  intro ms _ hms hne k target hk
  refine h (n :: ms) (List.cons_ne_nil n ms) (List.cons_prefix_cons.2 ⟨rfl, hms⟩) ?_ k target ?_
  · exact fun heq => hne (List.cons.inj heq).2
  · rw [descend_cons, hchild]
    exact hk

theorem walk_names {ns : List α} (h : d.NoLink i ns) :
    ∃ l, d.walk false i (ns.map .name) = .ends l ∧ d.Resolves i ns l := by
  induction ns generalizing i with
  | nil =>
    refine ⟨_, rfl, ?_⟩
    split
    · exact .inode i rfl
    · next hgone =>
      refine .error fun j hj => ?_
      obtain rfl := Option.some.inj hj
      exact Option.not_isSome_iff_eq_none.1 hgone
  | cons n ns ih =>
    rw [List.map_cons, walk_cons]
    cases htrip : d.trip i (.name n) with
    | error =>
      cases trip_iff.1 htrip with
      | error hnodir =>
        refine ⟨.error, rfl, .error fun j hj => ?_⟩
        rw [descend_cons] at hj
        obtain ⟨k, hchild, -⟩ := Option.bind_eq_some_iff.1 hj
        obtain ⟨parent, entries, hi⟩ := dir_of_child hchild
        exact absurd hi (hnodir parent entries)
    | missing k =>
      cases trip_iff.1 htrip with
      | missing hi hn =>
        cases ns with
        | nil => exact ⟨_, rfl, .missing i [] n rfl rfl hi hn⟩
        | cons n' ns =>
          refine ⟨.error, rfl, .error fun j hj => ?_⟩
          rw [descend_cons, child_of_dir hi, hn] at hj
          cases hj
    | link j target =>
      cases trip_iff.1 htrip with
      | link hi hn hj =>
        have hchild : d.child i n = some j := (child_of_dir hi n).trans hn
        cases ns with
        | nil =>
          refine ⟨_, rfl, .cons hchild (.inode j rfl)⟩
        | cons n' ns =>
          refine absurd hj (h [n] (List.cons_ne_nil n []) ⟨n' :: ns, rfl⟩ (by simp) j target ?_)
          rw [descend_cons, hchild]
          rfl
    | goes j =>
      cases trip_iff.1 htrip with
      | entry hi hn =>
        have hchild : d.child i n = some j := (child_of_dir hi n).trans hn
        obtain ⟨l, hwalk, hresolves⟩ := ih (h.tail hchild)
        exact ⟨l, hwalk, .cons hchild hresolves⟩

theorem walk_missing {ms : List α} {n : α} {dir parent : Nat} {entries : List (α × Nat)}
    (hdescends : d.descend i ms = some dir) (hnode : d.nodes[dir]? = some (.dir parent entries))
    (hlacks : entries.lookup n = none) :
    d.walk false i ((ms ++ [n]).map .name) = .ends (.missing dir n) := by
  induction ms generalizing i with
  | nil =>
    obtain rfl := Option.some.inj hdescends
    have htrip : d.trip i (.name n) = .missing n := trip_iff.2 (.missing hnode hlacks)
    rw [List.nil_append, List.map_singleton, walk_cons, htrip]
    rfl
  | cons k ms ih =>
    rw [descend_cons] at hdescends
    obtain ⟨j, hchild, hrest⟩ := Option.bind_eq_some_iff.1 hdescends
    -- What is descended into is a directory.
    have hj : ∃ parent' entries', d.nodes[j]? = some (.dir parent' entries') := by
      cases ms with
      | nil =>
        obtain rfl := Option.some.inj hrest
        exact ⟨parent, entries, hnode⟩
      | cons k' ms =>
        rw [descend_cons] at hrest
        obtain ⟨j', hchild', -⟩ := Option.bind_eq_some_iff.1 hrest
        exact dir_of_child hchild'
    obtain ⟨parent', entries', hj⟩ := hj
    obtain ⟨parent'', entries'', hi⟩ := dir_of_child hchild
    rw [child_of_dir hi] at hchild
    have htrip : d.trip i (.name k) = .goes j := by
      refine trip_iff.2 (.entry hi hchild ?_)
      rw [hj]
      rintro target ⟨⟩
    rw [List.cons_append, List.map_cons, walk_cons, htrip]
    exact ih hrest

/-- Where a directory lacks a name, the name is missing there. -/
theorem resolve_missing {ms : List α} {n : α} {dir parent : Nat} {entries : List (α × Nat)}
    (hdescends : d.descend i ms = some dir) (hnode : d.nodes[dir]? = some (.dir parent entries))
    (hlacks : entries.lookup n = none) (targets : Targets α τ) (fuel : Nat) :
    d.resolve targets false fuel i ((ms ++ [n]).map .name) = .missing dir n :=
  resolve_of_ends (walk_missing hdescends hnode hlacks)

/-- **A path of names** is resolved by descending. -/
theorem resolve_names {ns : List α} (h : d.NoLink i ns) (targets : Targets α τ) (fuel : Nat) :
    d.Resolves i ns (d.resolve targets false fuel i (ns.map .name)) := by
  obtain ⟨l, hwalk, hresolves⟩ := walk_names h
  rw [resolve_of_ends hwalk]
  exact hresolves

end Descend

/-! ## Growing in an empty directory -/

/-- Below the directory `r`, which was empty in `d₀`, there are new inodes at known places, each at
one only; beside it everything is as it was. -/
structure Planted (d₀ : Disk α β τ) (r : Nat) (known : List α → Prop) (d : Disk α β τ) : Prop where
  grows : d₀.Grows d
  length : d₀.nodes.length ≤ d.nodes.length
  kept : ∀ i, i < d₀.nodes.length → i ≠ r → d.nodes[i]? = d₀.nodes[i]?
  range : ∀ ns j, d.descend r ns = some j → j < d.nodes.length
  new : ∀ ns j, ns ≠ [] → d.descend r ns = some j → d₀.nodes.length ≤ j
  unique : ∀ ns ms j, d.descend r ns = some j → d.descend r ms = some j → ns = ms
  known : ∀ ns j, ns ≠ [] → d.descend r ns = some j → known ns

namespace Planted

variable {d₀ d : Disk α β τ} {r : Nat} {known known' : List α → Prop}

theorem start {parent : Nat} (h : d₀.nodes[r]? = some (.dir parent [])) (known : List α → Prop) :
    Planted d₀ r known d₀ := by
  have hnone : ∀ n, d₀.child r n = none := fun n => child_of_dir h n
  have hnil : ∀ ns j, d₀.descend r ns = some j → ns = [] ∧ j = r := by
    intro ns j hj
    cases ns with
    | nil => exact ⟨rfl, (Option.some.inj hj).symm⟩
    | cons n ns =>
      rw [descend_cons, hnone] at hj
      cases hj
  refine ⟨.refl d₀, Nat.le_refl _, fun _ _ _ => rfl, ?_, ?_, ?_, ?_⟩
  · intro ns j hj
    rw [(hnil ns j hj).2]
    exact (List.getElem?_eq_some_iff.1 h).1
  · exact fun ns j hne hj => absurd (hnil ns j hj).1 hne
  · intro ns ms j hns hms
    rw [(hnil ns j hns).1, (hnil ms j hms).1]
  · exact fun ns j hne hj => absurd (hnil ns j hj).1 hne

/-- A file below the directory is written. -/
theorem write (h : Planted d₀ r known d) {ns : List α} {i : Nat} {old : β}
    (hi : d.descend r ns = some i) (hne : ns ≠ []) (hold : d.nodes[i]? = some (.file old))
    (content : β) : Planted d₀ r known (d.write i content) := by
  have hdescend := descend_congr (child_write hold content) r
  have hlength : (d.write i content).nodes.length = d.nodes.length := List.length_set
  refine ⟨h.grows.trans (d.grows_write hold content), hlength ▸ h.length, ?_, ?_, ?_, ?_, ?_⟩
  · intro j hj hjr
    have hij : i ≠ j := by
      rintro rfl
      exact absurd hj (Nat.not_lt.2 (h.new ns i hne hi))
    exact (List.getElem?_set_ne hij).trans (h.kept j hj hjr)
  · intro ms j hj
    rw [hlength]
    exact h.range ms j (hdescend ms ▸ hj)
  · exact fun ms j hms hj => h.new ms j hms (hdescend ms ▸ hj)
  · exact fun ms ms' j hms hms' => h.unique ms ms' j (hdescend ms ▸ hms) (hdescend ms' ▸ hms')
  · exact fun ms j hms hj => h.known ms j hms (hdescend ms ▸ hj)

/-- What is new is at one new place. -/
theorem descend_create [LawfulBEq α] (h : Planted d₀ r known d) {ns : List α} {dir : Nat} {n : α}
    {node : Node α β τ} (hdir : d.descend r ns = some dir) (hbare : node.Bare) {ms : List α}
    {j : Nat} (hj : (d.create dir n node).descend r ms = some j) :
    d.descend r ms = some j ∨ ms = ns ++ [n] ∧ j = d.nodes.length := by
  induction ms using List.reverseRecOn generalizing j with
  | nil => exact .inl hj
  | append_singleton ms k ih =>
    rw [descend_concat] at hj
    obtain ⟨i, hi, hchild⟩ := Option.bind_eq_some_iff.1 hj
    rcases ih hi with hold | ⟨-, rfl⟩
    · rcases child_create hbare hchild with hchild | ⟨rfl, rfl, rfl⟩
      · left
        rw [descend_concat, hold]
        exact hchild
      · exact .inr ⟨by rw [h.unique _ _ _ hold hdir], rfl⟩
    · -- A new inode has no children yet.
      rcases child_create hbare hchild with hchild | ⟨hsame, -, -⟩
      · exact absurd (child_lt hchild) (Nat.lt_irrefl _)
      · exact absurd (hsame ▸ h.range ns dir hdir) (Nat.lt_irrefl _)

/-- Something is created below the directory. -/
theorem create [LawfulBEq α] (h : Planted d₀ r known d) {ns : List α} {dir : Nat} {n : α}
    {node : Node α β τ} (hdir : d.descend r ns = some dir) (hbare : node.Bare)
    (hmono : ∀ ms, known ms → known' ms) (hknown : known' (ns ++ [n])) :
    Planted d₀ r known' (d.create dir n node) := by
  have hlength : (d.create dir n node).nodes.length = d.nodes.length + 1 := by
    rw [Disk.create, List.length_append, List.length_modify, List.length_singleton]
  have hlt := h.range ns dir hdir
  refine ⟨h.grows.trans (d.grows_create dir n node), ?_, ?_, ?_, ?_, ?_, ?_⟩
  · rw [hlength]
    exact Nat.le_succ_of_le h.length
  · intro i hi hir
    have hne : dir ≠ i := by
      rintro rfl
      cases ns with
      | nil => exact hir (Option.some.inj hdir).symm
      | cons m ns => exact absurd hi (Nat.not_lt.2 (h.new _ dir (List.cons_ne_nil m ns) hdir))
    obtain ⟨old, hold⟩ : ∃ old, d.nodes[i]? = some old :=
      ⟨_, List.getElem?_eq_getElem (Nat.lt_of_lt_of_le hi h.length)⟩
    rw [d.nodes_create dir n node hold, if_neg hne, ← hold]
    exact h.kept i hi hir
  · intro ms j hj
    rw [hlength]
    rcases h.descend_create hdir hbare hj with hold | ⟨-, rfl⟩
    · exact Nat.lt_succ_of_lt (h.range ms j hold)
    · exact Nat.lt_succ_self _
  · intro ms j hms hj
    rcases h.descend_create hdir hbare hj with hold | ⟨-, rfl⟩
    · exact h.new ms j hms hold
    · exact h.length
  · intro ms ms' j hms hms'
    rcases h.descend_create hdir hbare hms with hold | ⟨rfl, hnew⟩ <;>
      rcases h.descend_create hdir hbare hms' with hold' | ⟨rfl, hnew'⟩
    · exact h.unique ms ms' j hold hold'
    · exact absurd (hnew' ▸ h.range ms j hold) (Nat.lt_irrefl _)
    · exact absurd (hnew ▸ h.range ms' j hold') (Nat.lt_irrefl _)
    · rfl
  · intro ms j hms hj
    rcases h.descend_create hdir hbare hj with hold | ⟨rfl, -⟩
    · exact hmono ms (h.known ms j hms hold)
    · exact hknown

end Planted

end Disk

/-! ## What belongs where -/

/-- The places below a directory with what is right for each. What is above a place is a directory,
and what is right stays so. -/
structure Layout (α β τ : Type*) [BEq α] where
  Place : List α → Prop
  Right : List α → Node α β τ → Prop
  grows : ∀ {ns node node'}, Node.Grows node node' → Right ns node → Right ns node'
  directory : ∀ {ns ms}, Place ns → Place ms → ns ≠ ms → ns <+: ms →
    ∀ {node}, Right ns node → ∃ parent entries, node = .dir parent entries

/-- What was planted below `r` is right for its places. -/
structure Laid [BEq α] (L : Layout α β τ) (d₀ : Disk α β τ) (r : Nat) (d : Disk α β τ) : Prop
    extends d₀.Planted r L.Place d where
  right : ∀ ns j, ns ≠ [] → d.descend r ns = some j →
    ∃ node, d.nodes[j]? = some node ∧ L.Right ns node

namespace Laid

variable [BEq α] {L : Layout α β τ} {d₀ d : Disk α β τ} {r : Nat}

theorem start (L : Layout α β τ) {parent : Nat} (h : d₀.nodes[r]? = some (.dir parent [])) :
    Laid L d₀ r d₀ where
  toPlanted := .start h L.Place
  right := by
    intro ns j hne hj
    cases ns with
    | nil => exact absurd rfl hne
    | cons n ns =>
      rw [Disk.descend_cons, Disk.child_of_dir h] at hj
      cases hj

/-- No symlink is on the way to a place. -/
theorem noLink (h : Laid L d₀ r d) {ns : List α} (hplace : L.Place ns) : d.NoLink r ns := by
  intro ms hms hpre hne j target hj hlink
  obtain ⟨node, hnode, hright⟩ := h.right ms j hms hj
  obtain ⟨parent, entries, rfl⟩ := L.directory (h.known ms j hms hj) hplace hne hpre hright
  cases hlink.symm.trans hnode

/-- What is above a place is a directory. -/
theorem dir_above (h : Laid L d₀ r d) {ns ms : List α} (hplace : L.Place ms) (hne : ns ≠ ms)
    (hpre : ns <+: ms) (hns : ns ≠ []) {j : Nat} (hj : d.descend r ns = some j) :
    ∃ parent entries, d.nodes[j]? = some (.dir parent entries) := by
  obtain ⟨node, hnode, hright⟩ := h.right ns j hns hj
  obtain ⟨parent, entries, rfl⟩ := L.directory (h.known ns j hns hj) hplace hne hpre hright
  exact ⟨parent, entries, hnode⟩

theorem write (h : Laid L d₀ r d) {ns : List α} {i : Nat} {old : β} (hi : d.descend r ns = some i)
    (hne : ns ≠ []) (hold : d.nodes[i]? = some (.file old)) (content : β) :
    Laid L d₀ r (d.write i content) where
  toPlanted := h.toPlanted.write hi hne hold content
  right := by
    intro ms j hms hj
    rw [Disk.descend_congr (Disk.child_write hold content)] at hj
    obtain ⟨node, hnode, hright⟩ := h.right ms j hms hj
    obtain ⟨node', hnode', hgrows⟩ := d.grows_write hold content j node hnode
    exact ⟨node', hnode', L.grows hgrows hright⟩

/-- What is right for a place is created there. -/
theorem create [LawfulBEq α] (h : Laid L d₀ r d) {ns : List α} {dir : Nat} {n : α}
    {node : Node α β τ} (hdir : d.descend r ns = some dir) (hbare : node.Bare)
    (hplace : L.Place (ns ++ [n])) (hright : L.Right (ns ++ [n]) node) :
    Laid L d₀ r (d.create dir n node) where
  toPlanted := h.toPlanted.create hdir hbare (fun _ hknown => hknown) hplace
  right := by
    intro ms j hms hj
    rcases h.descend_create hdir hbare hj with hold | ⟨rfl, rfl⟩
    · obtain ⟨old, hnode, hright'⟩ := h.right ms j hms hold
      obtain ⟨node', hnode', hgrows⟩ := d.grows_create dir n node j old hnode
      exact ⟨node', hnode', L.grows hgrows hright'⟩
    · exact ⟨node, d.nodes_create_new dir n node, hright⟩

end Laid

end Netpull.Inodes
