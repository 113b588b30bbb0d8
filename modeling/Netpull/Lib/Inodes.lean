import Mathlib.Data.List.Basic

/-!
# A file system of inodes

Directories, files and symlinks over arbitrary names, contents and targets, and how a path is
resolved in them: symlinks are followed, up to a limit, and the last name of a path may be missing.

A walk makes a trip for each component (`walk_cons`), `trip_iff` says all that a trip can come to,
and `resolve_induction` goes along the symlinks on the way.

`Grows` says what creating and writing leave: nothing that is there goes away, becomes something
else or leads elsewhere. So what a path was resolved to once, it is resolved to for good
(`Grows.resolve`), and what was created where it was missing is found there (`resolve_create`).
-/

namespace Netpull.Inodes

variable {α β τ : Type*}

inductive Node (α β τ : Type*)
  | dir (parent : Nat) (entries : List (α × Nat))
  | file (content : β)
  | symlink (target : τ)
deriving DecidableEq, Repr

/-- A component of a path; a slash at the end of a path is one that stays where it is. -/
inductive Component (α : Type*)
  | here
  | up
  | name (n : α)
deriving DecidableEq, Repr

/-- What a path leads to: an inode, or a directory in which its last name is missing. -/
inductive Lookup (α : Type*)
  | inode (i : Nat)
  | missing (dir : Nat) (n : α)
  | error
deriving DecidableEq, Repr

def Lookup.inode? : Lookup α → Option Nat
  | .inode i => some i
  | .missing _ _ | .error => none

/-- The directory in which something is missing. -/
def Lookup.dir? : Lookup α → Option Nat
  | .missing dir _ => some dir
  | .inode _ | .error => none

theorem Lookup.mem_inode? {l : Lookup α} {i : Nat} : i ∈ l.inode? ↔ l = .inode i := by
  cases l with
  | inode j =>
    constructor
    · rintro ⟨⟩
      rfl
    · rintro ⟨⟩
      rfl
  | missing dir n => exact ⟨by rintro ⟨⟩, by rintro ⟨⟩⟩
  | error => exact ⟨by rintro ⟨⟩, by rintro ⟨⟩⟩

theorem Lookup.inode_ne_error (i : Nat) : (.inode i : Lookup α) ≠ .error := nofun

theorem Lookup.missing_ne_error (dir : Nat) (n : α) : Lookup.missing dir n ≠ .error := nofun

/-- How a walk ends: for good, or at a symlink in a directory, with what is left of the path. -/
inductive Walk (α τ : Type*)
  | ends (l : Lookup α)
  | link (dir : Nat) (target : τ) (rest : List (Component α))
deriving DecidableEq, Repr

/-- Where one component of a path leads: on to an inode, to a symlink, to a name that a directory
lacks, or nowhere. -/
inductive Trip (α τ : Type*)
  | goes (j : Nat)
  | link (j : Nat) (target : τ)
  | missing (n : α)
  | error
deriving DecidableEq, Repr

/-- The inodes, by their numbers. -/
structure Disk (α β τ : Type*) where
  nodes : List (Node α β τ)
deriving DecidableEq, Repr

/-- Whether a target begins at the root, and its components. -/
structure Targets (α τ : Type*) where
  root : Nat
  parse : τ → Bool × List (Component α)

namespace Disk

section Operations

variable [BEq α]

/-- Goes along a path, up to the first symlink on the way; the last component is followed as well,
if so wanted. -/
def walk (d : Disk α β τ) (follow : Bool) : Nat → List (Component α) → Walk α τ
  | i, [] => .ends (if (d.nodes[i]?).isSome then .inode i else .error)
  | i, c :: cs =>
    match d.nodes[i]? with
    | some (.dir parent entries) =>
      match c with
      | .here => d.walk follow i cs
      | .up => d.walk follow parent cs
      | .name n =>
        match entries.lookup n with
        | none => .ends (if cs.isEmpty then .missing i n else .error)
        | some j =>
          match d.nodes[j]? with
          | some (.symlink target) =>
            if cs.isEmpty && !follow then .ends (.inode j) else .link i target cs
          | _ => d.walk follow j cs
    | _ => .ends .error

/-- Resolves a path, with at most `fuel` symlinks on the way. -/
def resolve (d : Disk α β τ) (targets : Targets α τ) (follow : Bool) :
    Nat → Nat → List (Component α) → Lookup α
  | 0, i, cs =>
    match d.walk follow i cs with
    | .ends l => l
    | .link _ _ _ => .error
  | fuel + 1, i, cs =>
    match d.walk follow i cs with
    | .ends l => l
    | .link dir target rest =>
      d.resolve targets follow fuel (if (targets.parse target).1 then targets.root else dir)
        ((targets.parse target).2 ++ rest)

/-- What one component of a path leads to from an inode. -/
def trip (d : Disk α β τ) (i : Nat) (c : Component α) : Trip α τ :=
  match d.nodes[i]? with
  | some (.dir parent entries) =>
    match c with
    | .here => .goes i
    | .up => .goes parent
    | .name n =>
      match entries.lookup n with
      | none => .missing n
      | some j =>
        match d.nodes[j]? with
        | some (.symlink target) => .link j target
        | _ => .goes j
  | _ => .error

end Operations

/-- A new entry in a directory. -/
def addEntry (n : α) (i : Nat) : Node α β τ → Node α β τ
  | .dir parent entries => .dir parent (entries ++ [(n, i)])
  | node => node

/-- A new inode, and its name in a directory. -/
def create (d : Disk α β τ) (dir : Nat) (n : α) (node : Node α β τ) : Disk α β τ :=
  ⟨d.nodes.modify dir (addEntry n d.nodes.length) ++ [node]⟩

/-- New content for a file. -/
def write (d : Disk α β τ) (i : Nat) (content : β) : Disk α β τ := ⟨d.nodes.set i (.file content)⟩

end Disk

/-! ## Growing -/

variable [BEq α]

/-- A node is still what it was: a directory with its entries and maybe more, a file, or a symlink
with its target. -/
def Node.Grows : Node α β τ → Node α β τ → Prop
  | .dir parent entries, .dir parent' entries' =>
    parent' = parent ∧ ∀ n i, entries.lookup n = some i → entries'.lookup n = some i
  | .file _, .file _ => True
  | .symlink target, .symlink target' => target' = target
  | _, _ => False

theorem Node.Grows.refl (node : Node α β τ) : node.Grows node := by
  cases node with
  | dir parent entries => exact ⟨rfl, fun _ _ h => h⟩
  | file content => trivial
  | symlink target => rfl

theorem Node.Grows.trans {a b c : Node α β τ} (h : a.Grows b) (h' : b.Grows c) : a.Grows c := by
  cases a <;> cases b <;> cases c <;> try exact h.elim
  all_goals try exact h'.elim
  · exact ⟨h'.1.trans h.1, fun n i hi => h'.2 n i (h.2 n i hi)⟩
  · trivial
  · exact Eq.trans h' h

theorem Node.grows_addEntry (n : α) (i : Nat) (node : Node α β τ) :
    node.Grows (Disk.addEntry n i node) := by
  cases node with
  | dir parent entries =>
    refine ⟨rfl, fun m j hj => ?_⟩
    rw [List.lookup_append, hj]
    rfl
  | file content => trivial
  | symlink target => rfl

namespace Disk

variable {d d' : Disk α β τ} {targets : Targets α τ} {follow : Bool}

/-- Everything is still there. -/
def Grows (d d' : Disk α β τ) : Prop :=
  ∀ (i : Nat) (node : Node α β τ), d.nodes[i]? = some node →
    ∃ node', d'.nodes[i]? = some node' ∧ node.Grows node'

theorem Grows.refl (d : Disk α β τ) : d.Grows d := fun _ node h => ⟨node, h, .refl node⟩

theorem Grows.trans {d'' : Disk α β τ} (h : d.Grows d') (h' : d'.Grows d'') : d.Grows d'' := by
  intro i node hi
  obtain ⟨node', hi', hnode⟩ := h i node hi
  obtain ⟨node'', hi'', hnode'⟩ := h' i node' hi'
  exact ⟨node'', hi'', hnode.trans hnode'⟩

omit [BEq α] in
theorem nodes_create (d : Disk α β τ) (dir : Nat) (n : α) (node : Node α β τ) {i : Nat}
    {old : Node α β τ} (h : d.nodes[i]? = some old) :
    (d.create dir n node).nodes[i]? =
      some (if dir = i then addEntry n d.nodes.length old else old) := by
  obtain ⟨hi, -⟩ := List.getElem?_eq_some_iff.1 h
  rw [create, List.getElem?_append_left (by rwa [List.length_modify]), List.getElem?_modify, h]
  split <;> rfl

omit [BEq α] in
theorem nodes_create_new (d : Disk α β τ) (dir : Nat) (n : α) (node : Node α β τ) :
    (d.create dir n node).nodes[d.nodes.length]? = some node := by
  rw [create, List.getElem?_append_right (Nat.le_of_eq (List.length_modify _ _ _)),
    List.length_modify, Nat.sub_self]
  rfl

theorem grows_create (d : Disk α β τ) (dir : Nat) (n : α) (node : Node α β τ) :
    d.Grows (d.create dir n node) := by
  intro i old hi
  refine ⟨_, d.nodes_create dir n node hi, ?_⟩
  split
  · exact Node.grows_addEntry n _ old
  · exact .refl old

theorem grows_write (d : Disk α β τ) {i : Nat} {old : β} (h : d.nodes[i]? = some (.file old))
    (content : β) : d.Grows (d.write i content) := by
  intro j node hj
  by_cases hij : i = j
  · subst hij
    obtain rfl := Option.some.inj (h.symm.trans hj)
    exact ⟨.file content, List.getElem?_set_self (List.getElem?_eq_some_iff.1 h).1, trivial⟩
  · exact ⟨node, (List.getElem?_set_ne hij).trans hj, .refl node⟩

omit [BEq α] in
theorem create_file {dir i : Nat} {n : α} {node : Node α β τ} {content : β}
    (h : d.nodes[i]? = some (.file content)) :
    (d.create dir n node).nodes[i]? = some (.file content) := by
  rw [d.nodes_create dir n node h]
  split <;> rfl

/-! ## Trips -/

/-- A walk makes a trip for each component. -/
theorem walk_cons (d : Disk α β τ) (follow : Bool) (i : Nat) (c : Component α)
    (cs : List (Component α)) :
    d.walk follow i (c :: cs) =
      match d.trip i c with
      | .goes j => d.walk follow j cs
      | .link j target =>
        if cs.isEmpty && !follow then .ends (.inode j) else .link i target cs
      | .missing n => .ends (if cs.isEmpty then .missing i n else .error)
      | .error => .ends .error := by
  rw [walk, trip]
  split
  · cases c with
    | here => rfl
    | up => rfl
    | name n =>
      simp only
      split
      · rfl
      · split <;> rfl
  · rfl

/-- All that a trip can come to, and why. -/
inductive Trips (d : Disk α β τ) (i : Nat) : Component α → Trip α τ → Prop
  | here {parent : Nat} {entries : List (α × Nat)} :
      d.nodes[i]? = some (.dir parent entries) → Trips d i .here (.goes i)
  | up {parent : Nat} {entries : List (α × Nat)} :
      d.nodes[i]? = some (.dir parent entries) → Trips d i .up (.goes parent)
  | entry {parent j : Nat} {entries : List (α × Nat)} {n : α} :
      d.nodes[i]? = some (.dir parent entries) → entries.lookup n = some j →
      (∀ target, d.nodes[j]? ≠ some (.symlink target)) → Trips d i (.name n) (.goes j)
  | link {parent j : Nat} {entries : List (α × Nat)} {n : α} {target : τ} :
      d.nodes[i]? = some (.dir parent entries) → entries.lookup n = some j →
      d.nodes[j]? = some (.symlink target) → Trips d i (.name n) (.link j target)
  | missing {parent : Nat} {entries : List (α × Nat)} {n : α} :
      d.nodes[i]? = some (.dir parent entries) → entries.lookup n = none →
      Trips d i (.name n) (.missing n)
  | error {c : Component α} :
      (∀ parent entries, d.nodes[i]? ≠ some (.dir parent entries)) → Trips d i c .error

theorem trips_trip (d : Disk α β τ) (i : Nat) (c : Component α) : Trips d i c (d.trip i c) := by
  unfold trip
  split
  · next parent entries hi =>
    cases c with
    | here => exact .here hi
    | up => exact .up hi
    | name n =>
      simp only
      split
      · next hn => exact .missing hi hn
      · next j hn =>
        split
        · next target hj => exact .link hi hn hj
        · next hj => exact .entry hi hn hj
  · next hi => exact .error hi

theorem Trips.trip_eq {i : Nat} {c : Component α} {t : Trip α τ} (h : Trips d i c t) :
    d.trip i c = t := by
  unfold trip
  cases h with
  | here hi => rw [hi]
  | up hi => rw [hi]
  | entry hi hn hj =>
    simp only [hi, hn]
  | link hi hn hj => simp only [hi, hn, hj]
  | missing hi hn => simp only [hi, hn]
  | error hi =>
    split
    · next parent entries hdir => exact absurd hdir (hi parent entries)
    · rfl

theorem trip_iff {i : Nat} {c : Component α} {t : Trip α τ} :
    d.trip i c = t ↔ Trips d i c t :=
  ⟨fun h => h ▸ d.trips_trip i c, Trips.trip_eq⟩

/-! ## Links -/

theorem resolve_of_ends {fuel i : Nat} {cs : List (Component α)} {l : Lookup α}
    (h : d.walk follow i cs = .ends l) : d.resolve targets follow fuel i cs = l := by
  cases fuel with
  | zero => rw [resolve, h]
  | succ fuel => rw [resolve, h]

theorem resolve_of_link {fuel i dir : Nat} {cs rest : List (Component α)} {target : τ}
    (h : d.walk follow i cs = .link dir target rest) :
    d.resolve targets follow (fuel + 1) i cs =
      d.resolve targets follow fuel (if (targets.parse target).1 then targets.root else dir)
        ((targets.parse target).2 ++ rest) := by
  rw [resolve, h]

/-- The induction along the symlinks on the way to what a path is resolved to. -/
theorem resolve_induction {l : Lookup α} (hl : l ≠ .error)
    {motive : ∀ fuel i cs, d.resolve targets follow fuel i cs = l → Prop}
    (ends : ∀ fuel i cs (hwalk : d.walk follow i cs = .ends l),
      motive fuel i cs (resolve_of_ends hwalk))
    (link : ∀ fuel i cs dir target rest (hwalk : d.walk follow i cs = .link dir target rest)
      (h : d.resolve targets follow fuel (if (targets.parse target).1 then targets.root else dir)
        ((targets.parse target).2 ++ rest) = l),
      motive fuel _ _ h → motive (fuel + 1) i cs ((resolve_of_link hwalk).trans h))
    (fuel i : Nat) (cs : List (Component α)) (h : d.resolve targets follow fuel i cs = l) :
    motive fuel i cs h := by
  induction fuel generalizing i cs with
  | zero =>
    cases hwalk : d.walk follow i cs with
    | ends l' =>
      obtain rfl : l' = l := (resolve_of_ends hwalk).symm.trans h
      exact ends 0 i cs hwalk
    | link dir target rest =>
      rw [resolve, hwalk] at h
      exact absurd h.symm hl
  | succ fuel ih =>
    cases hwalk : d.walk follow i cs with
    | ends l' =>
      obtain rfl : l' = l := (resolve_of_ends hwalk).symm.trans h
      exact ends (fuel + 1) i cs hwalk
    | link dir target rest =>
      have hrest := (resolve_of_link hwalk).symm.trans h
      exact link fuel i cs dir target rest hwalk hrest (ih _ _ hrest)

/-! ## Resolution in a disk that grows -/

/-- A walk that ends at an inode or at a symlink. -/
def Stable : Walk α τ → Prop
  | .ends (.inode _) | .link _ _ _ => True
  | .ends (.missing _ _) | .ends .error => False

theorem walk_none {i : Nat} (h : d.nodes[i]? = none) (cs : List (Component α)) :
    d.walk follow i cs = .ends .error := by
  cases cs with
  | nil =>
    rw [walk, h]
    rfl
  | cons c cs => rw [walk, h]

/-- A walk goes on from what is there. -/
theorem isSome_of_walk {i : Nat} {cs : List (Component α)}
    (h : d.walk follow i cs ≠ .ends .error) : (d.nodes[i]?).isSome := by
  cases hi : d.nodes[i]? with
  | none => exact absurd (walk_none hi cs) h
  | some node => rfl

theorem Grows.dir (h : d.Grows d') {i parent : Nat} {entries : List (α × Nat)}
    (hi : d.nodes[i]? = some (.dir parent entries)) :
    ∃ entries', d'.nodes[i]? = some (.dir parent entries') ∧
      ∀ n j, entries.lookup n = some j → entries'.lookup n = some j := by
  obtain ⟨node', hi', hnode⟩ := h i _ hi
  cases node' with
  | dir parent' entries' =>
    obtain ⟨rfl, hentries⟩ := hnode
    exact ⟨entries', hi', hentries⟩
  | file content => exact hnode.elim
  | symlink target => exact hnode.elim

theorem Grows.symlink (h : d.Grows d') {i : Nat} {target : τ}
    (hi : d.nodes[i]? = some (.symlink target)) : d'.nodes[i]? = some (.symlink target) := by
  obtain ⟨node', hi', hnode⟩ := h i _ hi
  cases node' with
  | dir parent entries => exact hnode.elim
  | file content => exact hnode.elim
  | symlink target' =>
    obtain rfl := hnode
    exact hi'

theorem Grows.no_symlink (h : d.Grows d') {i : Nat} (hsome : (d.nodes[i]?).isSome)
    (hi : ∀ target, d.nodes[i]? ≠ some (.symlink target)) (target : τ) :
    d'.nodes[i]? ≠ some (.symlink target) := by
  obtain ⟨node, hnode⟩ := Option.isSome_iff_exists.1 hsome
  obtain ⟨node', hi', hgrows⟩ := h i node hnode
  intro htarget
  obtain rfl := Option.some.inj (hi'.symm.trans htarget)
  cases node with
  | dir parent entries => exact hgrows
  | file content => exact hgrows
  | symlink target' => exact hi target' hnode

/-- A trip to what is there comes to it for good. -/
theorem Grows.trip_goes (h : d.Grows d') {i j : Nat} {c : Component α}
    (htrip : d.trip i c = .goes j) (hj : (d.nodes[j]?).isSome) : d'.trip i c = .goes j := by
  rw [trip_iff] at htrip ⊢
  cases htrip with
  | here hi =>
    obtain ⟨entries', hi', -⟩ := h.dir hi
    exact .here hi'
  | up hi =>
    obtain ⟨entries', hi', -⟩ := h.dir hi
    exact .up hi'
  | entry hi hn hnolink =>
    obtain ⟨entries', hi', hentries⟩ := h.dir hi
    exact .entry hi' (hentries _ _ hn) (h.no_symlink hj hnolink)

theorem Grows.trip_link (h : d.Grows d') {i j : Nat} {target : τ} {c : Component α}
    (htrip : d.trip i c = .link j target) : d'.trip i c = .link j target := by
  rw [trip_iff] at htrip ⊢
  cases htrip with
  | link hi hn hj =>
    obtain ⟨entries', hi', hentries⟩ := h.dir hi
    exact .link hi' (hentries _ _ hn) (h.symlink hj)

theorem Grows.walk (h : d.Grows d') {cs : List (Component α)} {i : Nat}
    (hstable : Stable (d.walk follow i cs)) : d'.walk follow i cs = d.walk follow i cs := by
  have hwalk : d.walk follow i cs ≠ .ends .error := fun herror => by
    rw [herror] at hstable
    exact hstable
  induction cs generalizing i with
  | nil =>
    obtain ⟨node, hi⟩ := Option.isSome_iff_exists.1 (isSome_of_walk hwalk)
    obtain ⟨node', hi', -⟩ := h i node hi
    rw [Disk.walk, Disk.walk, hi, hi']
    rfl
  | cons c cs ih =>
    rw [walk_cons] at hstable hwalk
    rw [walk_cons, walk_cons]
    cases htrip : d.trip i c with
    | goes j =>
      rw [htrip] at hstable hwalk
      rw [h.trip_goes htrip (isSome_of_walk hwalk)]
      exact ih hstable hwalk
    | link j target => rw [h.trip_link htrip]
    | missing n =>
      rw [htrip] at hstable
      simp only at hstable
      split at hstable <;> exact hstable.elim
    | error =>
      rw [htrip] at hwalk
      exact absurd rfl hwalk

/-- What a path is resolved to, it is resolved to for good. -/
theorem Grows.resolve (h : d.Grows d') {fuel i j : Nat} {cs : List (Component α)}
    (hresolve : d.resolve targets follow fuel i cs = .inode j) :
    d'.resolve targets follow fuel i cs = .inode j := by
  induction fuel, i, cs, hresolve using resolve_induction (Lookup.inode_ne_error j) with
  | ends fuel i cs hwalk => exact resolve_of_ends ((h.walk (by rw [hwalk]; trivial)).trans hwalk)
  | link fuel i cs dir target rest hwalk hrest ih =>
    rw [resolve_of_link ((h.walk (by rw [hwalk]; trivial)).trans hwalk)]
    exact ih

/-- What a path is resolved to is there. -/
theorem walk_isSome {i j : Nat} {cs : List (Component α)}
    (h : d.walk follow i cs = .ends (.inode j)) : (d.nodes[j]?).isSome := by
  induction cs generalizing i with
  | nil =>
    rw [walk] at h
    split at h
    · next hi =>
      cases h
      exact hi
    · cases h
  | cons c cs ih =>
    rw [walk_cons] at h
    cases htrip : d.trip i c with
    | goes k =>
      rw [htrip] at h
      exact ih h
    | link k target =>
      rw [htrip] at h
      simp only at h
      split at h
      · cases h
        cases trip_iff.1 htrip with
        | link hi hn hj => rw [hj, Option.isSome_some]
      · cases h
    | missing n =>
      rw [htrip] at h
      simp only at h
      split at h <;> cases h
    | error =>
      rw [htrip] at h
      cases h

theorem resolve_isSome {fuel i j : Nat} {cs : List (Component α)}
    (h : d.resolve targets follow fuel i cs = .inode j) : (d.nodes[j]?).isSome := by
  induction fuel, i, cs, h using resolve_induction (Lookup.inode_ne_error j) with
  | ends fuel i cs hwalk => exact walk_isSome hwalk
  | link fuel i cs dir target rest hwalk hrest ih => exact ih

/-! ## What is created is found -/

theorem dir_create [LawfulBEq α] {i : Nat} {n : α} (node : Node α β τ) {parent : Nat}
    {entries : List (α × Nat)} (h : d.nodes[i]? = some (.dir parent entries))
    (hn : entries.lookup n = none) :
    ∃ entries', (d.create i n node).nodes[i]? = some (.dir parent entries') ∧
      entries'.lookup n = some d.nodes.length := by
  have hcreate := d.nodes_create i n node h
  rw [if_pos rfl] at hcreate
  refine ⟨_, hcreate, ?_⟩
  rw [List.lookup_append, hn, List.lookup_cons_self]
  rfl

theorem trip_create [LawfulBEq α] {i : Nat} {n : α} {node : Node α β τ} {c : Component α}
    (hnode : ∀ target, node ≠ .symlink target) (h : d.trip i c = .missing n) :
    (d.create i n node).trip i c = .goes d.nodes.length := by
  rw [trip_iff] at h ⊢
  cases h with
  | missing hi hn =>
    obtain ⟨entries', hi', hn'⟩ := dir_create node hi hn
    refine .entry hi' hn' fun target htarget => ?_
    rw [nodes_create_new] at htarget
    exact hnode target (Option.some.inj htarget)

theorem trip_create_symlink [LawfulBEq α] {i : Nat} {n : α} {target : τ} {c : Component α}
    (h : d.trip i c = .missing n) :
    (d.create i n (.symlink target)).trip i c = .link d.nodes.length target := by
  rw [trip_iff] at h ⊢
  cases h with
  | missing hi hn =>
    obtain ⟨entries', hi', hn'⟩ := dir_create (.symlink target) hi hn
    exact .link hi' hn' (nodes_create_new _ _ _ _)

/-- A walk along a name that is there no longer misses it. -/
theorem walk_last_create [LawfulBEq α] {i : Nat} {n : α} {node : Node α β τ} {c : Component α}
    (hnode : follow = true → ∀ target, node ≠ .symlink target) (h : d.trip i c = .missing n) :
    (d.create i n node).walk follow i [c] = .ends (.inode d.nodes.length) := by
  rw [walk_cons]
  by_cases hsymlink : ∃ target, node = .symlink target
  · obtain ⟨target, rfl⟩ := hsymlink
    rw [trip_create_symlink h]
    cases follow with
    | true => exact absurd rfl (hnode rfl target)
    | false => rfl
  · rw [trip_create (fun target htarget => hsymlink ⟨target, htarget⟩) h]
    simp only
    rw [walk, nodes_create_new]
    rfl

theorem walk_create [LawfulBEq α] {dir i : Nat} {n : α} {node : Node α β τ}
    (hnode : follow = true → ∀ target, node ≠ .symlink target) {cs : List (Component α)}
    (h : d.walk follow i cs = .ends (.missing dir n)) :
    (d.create dir n node).walk follow i cs = .ends (.inode d.nodes.length) := by
  induction cs generalizing i with
  | nil =>
    rw [walk] at h
    split at h <;> cases h
  | cons c cs ih =>
    rw [walk_cons] at h
    cases htrip : d.trip i c with
    | goes j =>
      rw [htrip] at h
      have hj := isSome_of_walk fun herror => Lookup.missing_ne_error dir n
        (Walk.ends.inj (h.symm.trans herror))
      rw [walk_cons, (d.grows_create dir n node).trip_goes htrip hj]
      exact ih h
    | link j target =>
      rw [htrip] at h
      simp only at h
      split at h <;> cases h
    | missing m =>
      rw [htrip] at h
      simp only at h
      split at h
      · next hlast =>
        cases h
        obtain rfl := List.isEmpty_iff.1 hlast
        exact walk_last_create hnode htrip
      · cases h
    | error =>
      rw [htrip] at h
      cases h

/-- What is created where a path leads and nothing is, is what the path leads to. -/
theorem resolve_create [LawfulBEq α] {dir fuel i : Nat} {n : α} {node : Node α β τ}
    (hnode : follow = true → ∀ target, node ≠ .symlink target) {cs : List (Component α)}
    (h : d.resolve targets follow fuel i cs = .missing dir n) :
    (d.create dir n node).resolve targets follow fuel i cs = .inode d.nodes.length := by
  induction fuel, i, cs, h using resolve_induction (Lookup.missing_ne_error dir n) with
  | ends fuel i cs hwalk => exact resolve_of_ends (walk_create hnode hwalk)
  | link fuel i cs dir' target rest hwalk hrest ih =>
    have hgrows := d.grows_create dir n node
    rw [resolve_of_link ((hgrows.walk (by rw [hwalk]; trivial)).trans hwalk)]
    exact ih

/-! ## The last component -/

/-- Following the last component as well makes no difference where it is no symlink. -/
theorem walk_follow {i : Nat} {cs : List (Component α)}
    (h : ∀ j target, d.walk false i cs = .ends (.inode j) →
      d.nodes[j]? ≠ some (.symlink target)) :
    d.walk true i cs = d.walk false i cs := by
  induction cs generalizing i with
  | nil => rfl
  | cons c cs ih =>
    rw [walk_cons] at h
    rw [walk_cons, walk_cons]
    cases htrip : d.trip i c with
    | goes j =>
      rw [htrip] at h
      exact ih h
    | link j target =>
      rw [htrip] at h
      simp only at h ⊢
      split at h
      · cases trip_iff.1 htrip with
        | link hi hn hj => exact absurd hj (h j target rfl)
      · next hlast => rw [if_neg hlast, if_neg (by simp)]
    | missing n => rfl
    | error => rfl

theorem resolve_follow {fuel i : Nat} {cs : List (Component α)}
    (h : ∀ j target, d.resolve targets false fuel i cs = .inode j →
      d.nodes[j]? ≠ some (.symlink target)) :
    d.resolve targets true fuel i cs = d.resolve targets false fuel i cs := by
  induction fuel generalizing i cs with
  | zero =>
    have hwalk : d.walk true i cs = d.walk false i cs :=
      walk_follow fun j target hj => h j target (resolve_of_ends hj)
    rw [resolve, resolve, hwalk]
  | succ fuel ih =>
    have hwalk : d.walk true i cs = d.walk false i cs :=
      walk_follow fun j target hj => h j target (resolve_of_ends hj)
    cases hfalse : d.walk false i cs with
    | ends l => rw [resolve_of_ends (hwalk.trans hfalse), resolve_of_ends hfalse]
    | link dir target rest =>
      rw [resolve_of_link hfalse] at h ⊢
      rw [resolve_of_link (hwalk.trans hfalse)]
      exact ih h

/-! ## A slash at the end -/

theorem trip_here {i parent : Nat} {entries : List (α × Nat)}
    (h : d.nodes[i]? = some (.dir parent entries)) : d.trip i .here = .goes i :=
  trip_iff.2 (.here h)

/-- A slash after a directory leads to itself. -/
theorem walk_append_here {i j parent : Nat} {entries : List (α × Nat)} {cs : List (Component α)}
    (h : d.walk true i cs = .ends (.inode j)) (hdir : d.nodes[j]? = some (.dir parent entries)) :
    d.walk true i (cs ++ [.here]) = .ends (.inode j) := by
  induction cs generalizing i with
  | nil =>
    have hwalk := h
    rw [walk] at hwalk
    split at hwalk
    · cases hwalk
      rw [List.nil_append, walk_cons, trip_here hdir]
      exact h
    · cases hwalk
  | cons c cs ih =>
    rw [walk_cons] at h
    rw [List.cons_append, walk_cons]
    cases htrip : d.trip i c with
    | goes k =>
      rw [htrip] at h
      exact ih h
    | link k target =>
      rw [htrip] at h
      simp at h
    | missing n =>
      rw [htrip] at h
      simp only at h
      split at h <;> cases h
    | error =>
      rw [htrip] at h
      cases h

/-- What is appended to a path is left of it at a symlink. -/
theorem walk_append_link {i dir : Nat} {target : τ} {cs rest : List (Component α)}
    (h : d.walk true i cs = .link dir target rest) (more : List (Component α)) :
    d.walk true i (cs ++ more) = .link dir target (rest ++ more) := by
  induction cs generalizing i with
  | nil =>
    rw [walk] at h
    cases h
  | cons c cs ih =>
    rw [walk_cons] at h
    rw [List.cons_append, walk_cons]
    cases htrip : d.trip i c with
    | goes k =>
      rw [htrip] at h
      exact ih h
    | link k target' =>
      rw [htrip] at h
      simp only [Bool.not_true, Bool.and_false, Bool.false_eq_true, if_false] at h ⊢
      cases h
      rfl
    | missing n =>
      rw [htrip] at h
      cases h
    | error =>
      rw [htrip] at h
      cases h

/-- A slash at the end of the path of a directory changes nothing. -/
theorem resolve_append_here {fuel i j parent : Nat} {entries : List (α × Nat)}
    {cs : List (Component α)} (h : d.resolve targets true fuel i cs = .inode j)
    (hdir : d.nodes[j]? = some (.dir parent entries)) :
    d.resolve targets true fuel i (cs ++ [.here]) = .inode j := by
  induction fuel, i, cs, h using resolve_induction (Lookup.inode_ne_error j) with
  | ends fuel i cs hwalk => exact resolve_of_ends (walk_append_here hwalk hdir)
  | link fuel i cs dir target rest hwalk hrest ih =>
    rw [resolve_of_link (walk_append_link hwalk [.here]), ← List.append_assoc]
    exact ih

/-- A slash leads to a directory if anywhere. -/
theorem walk_here {i j : Nat} {cs : List (Component α)}
    (h : d.walk follow i (cs ++ [.here]) = .ends (.inode j)) :
    ∃ parent entries, d.nodes[j]? = some (.dir parent entries) := by
  induction cs generalizing i with
  | nil =>
    rw [List.nil_append, walk_cons] at h
    have htrips := d.trips_trip i .here
    generalize d.trip i .here = t at h htrips
    cases htrips with
    | here hi =>
      simp only at h
      rw [walk, hi] at h
      cases h
      exact ⟨_, _, hi⟩
    | error hi => cases h
  | cons c cs ih =>
    rw [List.cons_append, walk_cons] at h
    cases htrip : d.trip i c with
    | goes k =>
      rw [htrip] at h
      exact ih h
    | link k target =>
      rw [htrip] at h
      simp at h
    | missing n =>
      rw [htrip] at h
      simp at h
    | error =>
      rw [htrip] at h
      cases h

theorem link_here {i dir : Nat} {target : τ} {cs rest : List (Component α)}
    (h : d.walk follow i (cs ++ [.here]) = .link dir target rest) :
    ∃ rest', rest = rest' ++ [.here] := by
  induction cs generalizing i with
  | nil =>
    rw [List.nil_append, walk_cons] at h
    have htrips := d.trips_trip i .here
    generalize d.trip i .here = t at h htrips
    cases htrips with
    | here hi =>
      simp only at h
      rw [walk] at h
      cases h
    | error hi => cases h
  | cons c cs ih =>
    rw [List.cons_append, walk_cons] at h
    cases htrip : d.trip i c with
    | goes k =>
      rw [htrip] at h
      exact ih h
    | link k target' =>
      rw [htrip] at h
      simp only at h
      split at h
      · cases h
      · cases h
        exact ⟨cs, rfl⟩
    | missing n =>
      rw [htrip] at h
      cases h
    | error =>
      rw [htrip] at h
      cases h

/-- What lies behind a slash at the end of a path is a directory. -/
theorem resolve_here {fuel i j : Nat} {cs : List (Component α)}
    (h : d.resolve targets follow fuel i (cs ++ [.here]) = .inode j) :
    ∃ parent entries, d.nodes[j]? = some (.dir parent entries) := by
  generalize hpath : cs ++ [.here] = path at h
  induction fuel, i, path, h using resolve_induction (Lookup.inode_ne_error j)
    generalizing cs with
  | ends fuel i path hwalk =>
    subst hpath
    exact walk_here hwalk
  | link fuel i path dir target rest hwalk hrest ih =>
    subst hpath
    obtain ⟨rest', rfl⟩ := link_here hwalk
    exact ih (List.append_assoc _ _ _)

end Disk

end Netpull.Inodes
