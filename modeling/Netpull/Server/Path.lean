import Netpull.Bytes
import Netpull.Lib.Separated

/-!
# Paths

`path_internal` and `PathBase` of the server. A `Path` and a `PathView` are the string they wrap,
so both are `Bytes` here. `isChildOf` and `relativeTo` assert what their comments demand of their
arguments, and `relativeTo` cuts its string with `substr`, so both can bring the server down.

A path that is absolute and resolved is either `/` or the spelling of a non-empty list of proper
component names (`exists_location`); `Location` is such a list.
-/

namespace Netpull

open Separated

/-- `path_internal::Join`. -/
def join (self other : Bytes) : Bytes :=
  let weHaveSlash := endsWith self [slash]
  let otherHasSlash := startsWith other [slash]
  let p :=
    if weHaveSlash && otherHasSlash then self ++ other.drop 1
    else if !weHaveSlash && !otherHasSlash then self ++ [slash] ++ other
    else self ++ other
  if endsWith p [slash] then p.dropLast else p

/-- `path_internal::IsAbsolute`. -/
def isAbsolute (self : Bytes) : Bool := startsWith self [slash]

/-- The test `IsResolved` makes of each part. -/
def isProperPart (part : Bytes) : Bool :=
  !(part == [] || part == text "." || part == text "..")

/-- `path_internal::IsResolved`. -/
def isResolved (self : Bytes) : Bool :=
  if isAbsolute self then
    if self == [slash] then true
    else ((self.drop 1).splitOn slash).all isProperPart
  else (self.splitOn slash).all isProperPart

/-- `path_internal::IsChildOf`. -/
def isChildOf (self other : Bytes) : Except Fault Bool := do
  netpullAssert (isAbsolute self) (self ++ text " is not absolute")
  netpullAssert (isResolved self) (self ++ text " is not resolved")
  netpullAssert (isAbsolute other) (other ++ text " is not absolute")
  netpullAssert (isResolved other) (other ++ text " is not resolved")
  return startsWith self other

/-- `PathBase::RelativeTo`. -/
def relativeTo (self other : Bytes) : Except Fault Bytes := do
  let child ← isChildOf self other
  netpullAssert child (self ++ text " is not a child of " ++ other)
  substr self (other.length + 1)

/-! ## Component names -/

/-- A name that can stand between the slashes of a resolved path. -/
structure ProperName (n : Bytes) : Prop where
  ne_nil : n ≠ []
  ne_dot : n ≠ text "."
  ne_dotdot : n ≠ text ".."
  no_slash : slash ∉ n

theorem properName_iff {n : Bytes} :
    ProperName n ↔ n ≠ [] ∧ n ≠ text "." ∧ n ≠ text ".." ∧ slash ∉ n :=
  ⟨fun h => ⟨h.ne_nil, h.ne_dot, h.ne_dotdot, h.no_slash⟩,
    fun ⟨h1, h2, h3, h4⟩ => ⟨h1, h2, h3, h4⟩⟩

instance (n : Bytes) : Decidable (ProperName n) := decidable_of_iff _ properName_iff.symm

theorem isProperPart_iff {n : Bytes} :
    isProperPart n = true ↔ n ≠ [] ∧ n ≠ text "." ∧ n ≠ text ".." := by
  simp [isProperPart, and_assoc]

theorem ProperName.isProperPart {n : Bytes} (h : ProperName n) : isProperPart n = true :=
  isProperPart_iff.2 ⟨h.ne_nil, h.ne_dot, h.ne_dotdot⟩

theorem properName_of_mem_splitOn {s n : Bytes} (h : (s.splitOn slash).all isProperPart = true)
    (hn : n ∈ s.splitOn slash) : ProperName n := by
  obtain ⟨h1, h2, h3⟩ := isProperPart_iff.1 (List.all_eq_true.1 h n hn)
  exact ⟨h1, h2, h3, not_mem_of_mem_splitOn hn⟩

/-- The component names of a place in a file system other than its root. -/
structure Location where
  names : List Bytes
  ne_nil : names ≠ []
  proper : ∀ n ∈ names, ProperName n

namespace Location

/-- The one absolute and resolved path of a location. -/
def path (l : Location) : Bytes := spell slash l.names

/-- The location of `names` below `l`. -/
def below (l : Location) (names : List Bytes) (h : ∀ n ∈ names, ProperName n) : Location where
  names := l.names ++ names
  ne_nil := by simp [l.ne_nil]
  proper n hn := (List.mem_append.1 hn).elim (l.proper n) (h n)

end Location

theorem isAbsolute_spell {ns : List Bytes} (h : ns ≠ []) : isAbsolute (spell slash ns) = true := by
  rw [spell_eq h]
  exact startsWith_append [slash] _

/-- A spelled path is resolved exactly when its names are proper. -/
theorem isResolved_spell {ns : List Bytes} (hne : ns ≠ []) (h : ∀ n ∈ ns, ProperName n) :
    isResolved (spell slash ns) = true := by
  have habs := isAbsolute_spell hne
  have hsplit : ((spell slash ns).drop 1).splitOn slash = ns := by
    rw [List.drop_one, splitOn_tail_spell hne fun n hn => (h n hn).no_slash]
  rw [isResolved, if_pos habs, hsplit]
  split
  · rfl
  · exact List.all_eq_true.2 fun n hn => (h n hn).isProperPart

namespace Location

@[simp] theorem isAbsolute_path (l : Location) : isAbsolute l.path = true := isAbsolute_spell l.ne_nil

@[simp] theorem isResolved_path (l : Location) : isResolved l.path = true :=
  isResolved_spell l.ne_nil l.proper

theorem path_ne_root (l : Location) : l.path ≠ [slash] := by
  obtain ⟨n, ns, e⟩ := List.exists_cons_of_ne_nil l.ne_nil
  have hn : n ≠ [] := (l.proper n (e ▸ List.mem_cons_self)).ne_nil
  intro h
  rw [path, e, spell_cons, List.cons.injEq] at h
  simp [hn] at h

theorem not_prefix_root (l : Location) : ¬ l.path <+: [slash] := by
  intro hpre
  have hlen := hpre.length_le
  have hne : l.path ≠ [] := spell_ne_nil l.ne_nil
  have hpos := List.length_pos_iff.2 hne
  exact l.path_ne_root (hpre.eq_of_length (Nat.le_antisymm hlen hpos))

end Location

/-- Absolute and resolved paths other than `/` are the paths of locations. -/
theorem exists_location {p : Bytes} (habs : isAbsolute p = true) (hres : isResolved p = true)
    (hroot : p ≠ [slash]) : ∃ l : Location, l.path = p := by
  obtain ⟨s, rfl⟩ := startsWith_iff.1 habs
  rw [isResolved, if_pos habs, if_neg (by simpa using hroot)] at hres
  have hproper : ∀ n ∈ s.splitOn slash, ProperName n :=
    fun n hn => properName_of_mem_splitOn hres hn
  exact ⟨⟨s.splitOn slash, List.splitOn_ne_nil slash s, hproper⟩, spell_splitOn s⟩

/-! ## Join -/

/-- The spelling of proper names does not end in a slash. -/
theorem endsWith_spell {ns : List Bytes} (hne : ns ≠ []) (h : ∀ n ∈ ns, ProperName n) :
    endsWith (spell slash ns) [slash] = false := by
  obtain ⟨init, last, rfl⟩ := List.eq_nil_or_concat' ns |>.resolve_left hne
  have hlast := h last (by simp)
  have hlen : [slash].length ≤ last.length := List.length_pos_iff.2 hlast.ne_nil
  have e : spell slash (init ++ [last]) = (spell slash init ++ [slash]) ++ last := by
    simp [spell_append]
  rw [e, endsWith_append hlen]
  exact endsWith_singleton_of_not_mem hlast.no_slash

/-- Names joined by slashes do not begin with a slash. -/
theorem startsWith_intercalate {ns : List Bytes} (h : ∀ n ∈ ns, ProperName n) :
    startsWith ([slash].intercalate ns) [slash] = false := by
  cases ns with
  | nil => rfl
  | cons n ns =>
    have hn := h n List.mem_cons_self
    obtain ⟨b, bs, rfl⟩ := List.exists_cons_of_ne_nil hn.ne_nil
    have hb : b ≠ slash := fun e => hn.no_slash (e ▸ List.mem_cons_self)
    rw [intercalate_cons_append, Bool.eq_false_iff, ne_eq, startsWith_iff, List.cons_prefix_cons]
    exact fun hpre => hb hpre.1.symm

/-- Joining some names to the path of a location goes down by these names. -/
theorem join_names {ns ms : List Bytes} (hne : ns ≠ []) (h : ∀ n ∈ ns, ProperName n)
    (hne' : ms ≠ []) (h' : ∀ n ∈ ms, ProperName n) :
    join (spell slash ns) ([slash].intercalate ms) = spell slash (ns ++ ms) := by
  have hself := endsWith_spell hne h
  have hother := startsWith_intercalate h'
  have hp : spell slash ns ++ [slash] ++ [slash].intercalate ms = spell slash (ns ++ ms) := by
    rw [spell_append, spell_eq hne', List.append_assoc, List.singleton_append]
  have hend : endsWith (spell slash (ns ++ ms)) [slash] = false :=
    endsWith_spell (List.append_ne_nil_of_left_ne_nil hne ms)
      fun n hn => (List.mem_append.1 hn).elim (h n) (h' n)
  simp only [join, hself, hother, Bool.and_self, Bool.false_eq_true, ↓reduceIte, Bool.not_false,
    hp, hend]

/-- Joining a name to the path of a location adds the name as its last component. -/
theorem join_name {ns : List Bytes} {n : Bytes} (hne : ns ≠ []) (h : ∀ m ∈ ns, ProperName m)
    (hn : ProperName n) : join (spell slash ns) n = spell slash (ns ++ [n]) := by
  have hall : ∀ m ∈ [n], ProperName m := fun m hm => List.mem_singleton.1 hm ▸ hn
  have hjoin := join_names hne h (List.cons_ne_nil n []) hall
  rwa [List.intercalate_singleton] at hjoin

/-- Joining the path of a location to the empty string leaves it as it is. -/
theorem join_nil_left (l : Location) : join [] l.path = l.path := by
  have hself : endsWith [] [slash] = false := rfl
  have hother : startsWith l.path [slash] = true := l.isAbsolute_path
  have hend : endsWith l.path [slash] = false := endsWith_spell l.ne_nil l.proper
  simp only [join, hself, hother, Bool.and_true, Bool.not_true, Bool.and_false,
    Bool.false_eq_true, ↓reduceIte, List.nil_append, hend]

/-- Joining `/` to the path of a location leaves the path as it is. -/
theorem join_root_left (l : Location) : join [slash] l.path = l.path := by
  have hself : endsWith [slash] [slash] = true := rfl
  have hother : startsWith l.path [slash] = true := l.isAbsolute_path
  have hend : endsWith l.path [slash] = false := endsWith_spell l.ne_nil l.proper
  have hdrop : [slash] ++ l.path.drop 1 = l.path := by
    rw [Location.path, spell_eq l.ne_nil]
    rfl
  simp only [join, hself, hother, Bool.and_self, ↓reduceIte, hdrop, hend, Bool.false_eq_true]

theorem join_root_right (l : Location) : join l.path [slash] = l.path := by
  have hself : endsWith l.path [slash] = false := endsWith_spell l.ne_nil l.proper
  have hother : startsWith [slash] [slash] = true := rfl
  have hend : endsWith (l.path ++ [slash]) [slash] = true := endsWith_iff.2 (List.suffix_append ..)
  simp only [join, hself, hother, Bool.false_and, Bool.false_eq_true, ↓reduceIte, Bool.not_false,
    Bool.not_true, Bool.and_false, hend, List.dropLast_concat]

theorem join_paths (l m : Location) : join l.path m.path = (l.below m.names m.proper).path := by
  have hself : endsWith l.path [slash] = false := endsWith_spell l.ne_nil l.proper
  have hother : startsWith m.path [slash] = true := m.isAbsolute_path
  have happend : l.path ++ m.path = (l.below m.names m.proper).path :=
    (spell_append l.names m.names).symm
  have hend : endsWith (l.below m.names m.proper).path [slash] = false :=
    endsWith_spell (l.below m.names m.proper).ne_nil (l.below m.names m.proper).proper
  simp only [join, hself, hother, Bool.false_and, Bool.false_eq_true, ↓reduceIte, Bool.not_false,
    Bool.not_true, Bool.and_false, happend, hend]

/-- Joining two absolute and resolved paths gives the path of a location, or nothing at all if both
are `/`. -/
theorem join_cases {p q : Bytes} (hp : isAbsolute p = true) (hp' : isResolved p = true)
    (hq : isAbsolute q = true) (hq' : isResolved q = true) :
    join p q = [] ∨ ∃ l : Location, l.path = join p q := by
  by_cases hproot : p = [slash]
  · by_cases hqroot : q = [slash]
    · subst hproot hqroot
      exact .inl rfl
    · obtain ⟨m, rfl⟩ := exists_location hq hq' hqroot
      exact .inr ⟨m, by rw [hproot, join_root_left]⟩
  · obtain ⟨l, rfl⟩ := exists_location hp hp' hproot
    by_cases hqroot : q = [slash]
    · exact .inr ⟨l, by rw [hqroot, join_root_right]⟩
    · obtain ⟨m, rfl⟩ := exists_location hq hq' hqroot
      exact .inr ⟨l.below m.names m.proper, (join_paths l m).symm⟩

/-! ## IsChildOf and RelativeTo on locations -/

theorem isChildOf_location (l m : Location) :
    isChildOf l.path m.path = .ok (startsWith l.path m.path) := by
  simp [isChildOf, pure, Except.pure]

theorem isChildOf_below (l : Location) {names : List Bytes} (h : ∀ n ∈ names, ProperName n) :
    isChildOf (l.below names h).path l.path = .ok true := by
  rw [isChildOf_location]
  simp [Location.path, Location.below, spell_append]

/-- The path of a place strictly below `l` relative to `l` is the remaining names, joined by
slashes. -/
theorem relativeTo_below (l : Location) {names : List Bytes} (hne : names ≠ [])
    (h : ∀ n ∈ names, ProperName n) :
    relativeTo (l.below names h).path l.path = .ok ([slash].intercalate names) := by
  have hlen : l.path.length + 1 ≤ (l.below names h).path.length := by
    have hpos : 0 < (spell slash names).length := List.length_pos_iff.2 (spell_ne_nil hne)
    simp only [Location.path, Location.below, spell_append, List.length_append]
    omega
  simp only [relativeTo, isChildOf_below, netpullAssert_true, ok_bind]
  rw [substr_eq_ok hlen]
  exact congrArg Except.ok (drop_spell_append l.names names)

/-! ## Components -/

/-- The components a path goes through: its parts, without those that stay where they are. -/
def components (p : Bytes) : List Bytes :=
  (p.splitOn slash).filter fun n => n ≠ [] ∧ n ≠ text "."

/-- The path a name stands for in a directory. -/
def resolveFrom (dir p : Bytes) : Bytes := if isAbsolute p then p else dir ++ slash :: p

theorem components_append (p q : Bytes) :
    components (p ++ slash :: q) = components p ++ components q := by
  unfold components
  rw [splitOn_append_cons, List.filter_append]

theorem components_intercalate {ns : List Bytes} (h : ∀ n ∈ ns, ProperName n) :
    components ([slash].intercalate ns) = ns := by
  by_cases hne : ns = []
  · subst hne
    rfl
  · unfold components
    rw [List.splitOn_intercalate slash (fun n hn => (h n hn).no_slash) hne]
    apply List.filter_eq_self.2
    intro n hn
    simp [(h n hn).ne_nil, (h n hn).ne_dot]

theorem components_spell {ns : List Bytes} (h : ∀ n ∈ ns, ProperName n) :
    components (spell slash ns) = ns := by
  by_cases hne : ns = []
  · subst hne
    rfl
  · rw [spell_eq hne]
    exact (components_append [] _).trans (components_intercalate h)

theorem components_append_spell (p : Bytes) {ns : List Bytes} (h : ∀ n ∈ ns, ProperName n) :
    components (p ++ spell slash ns) = components p ++ ns := by
  by_cases hne : ns = []
  · simp [hne]
  · rw [spell_eq hne, components_append, components_intercalate h]

theorem Location.components_path (l : Location) : components l.path = l.names :=
  components_spell l.proper

/-- Absolute and resolved paths are the spellings of their components, but for `/`. -/
theorem spell_components {p : Bytes} (habs : isAbsolute p = true) (hres : isResolved p = true)
    (hroot : p ≠ [slash]) : spell slash (components p) = p := by
  obtain ⟨l, rfl⟩ := exists_location habs hres hroot
  rw [l.components_path, Location.path]

end Netpull
