import Mathlib.Data.List.Nodup
import Mathlib.Logic.Function.Basic

/-!
# Tables that keep their values in slots

A hash table without pointers to its values: each value lies in a slot, and an insertion for which
there is no room grows the table, which moves every value to a new slot. A reference is a slot as
it was when the reference was taken.

What a table holds under its keys is a map (`lookup`), and an insertion or a change in place does to
it what it does to a map. References are another matter: an insertion that does not grow the table
leaves each of them with its value (`find_emplace`), one that grows it leaves none
(`find_emplace_of_grows`).
-/

namespace Netpull

/-- How a table grows: how many values a capacity has room for, and the next capacity. -/
structure Growth where
  limit : Nat → Nat
  next : Nat → Nat

/-- A slot: how often the table had grown when the slot was laid out, and its position there. -/
structure Slot where
  generation : Nat
  index : Nat
deriving DecidableEq, Repr

/-- The values with their keys, slot by slot. -/
structure SlotMap (κ α : Type*) where
  slots : List (κ × α)
  generation : Nat
  capacity : Nat
  distinct : (slots.map Prod.fst).Nodup

namespace SlotMap

variable {κ α : Type*}

def empty : SlotMap κ α := ⟨[], 0, 0, List.nodup_nil⟩

def keys (m : SlotMap κ α) : List κ := m.slots.map Prod.fst

instance : Membership κ (SlotMap κ α) := ⟨fun m k => k ∈ m.keys⟩

/-- What is read through a reference, if its slot is still there. -/
def read (m : SlotMap κ α) (r : Slot) : Option (κ × α) :=
  if r.generation = m.generation then m.slots[r.index]? else none

/-- The values are moved to new slots if there is no room for one more. -/
def makeRoom (g : Growth) (m : SlotMap κ α) : SlotMap κ α :=
  if m.slots.length < g.limit m.capacity then m
  else { m with generation := m.generation + 1, capacity := g.next m.capacity }

theorem distinct_push {m : SlotMap κ α} {k : κ} (h : k ∉ m) (a : α) :
    ((m.slots ++ [(k, a)]).map Prod.fst).Nodup := by
  rw [List.map_append, List.nodup_append]
  refine ⟨m.distinct, List.nodup_singleton _, ?_⟩
  rintro k' hk' _ hk rfl
  obtain rfl : k' = k := List.mem_singleton.1 hk
  exact h hk'

theorem mem_of_mem_slots {m : SlotMap κ α} {k : κ} {a : α} (h : (k, a) ∈ m.slots) : k ∈ m :=
  List.mem_map.2 ⟨_, h, rfl⟩

/-- No key is there twice. -/
theorem eq_of_mem_slots {m : SlotMap κ α} {k : κ} {a b : α} (ha : (k, a) ∈ m.slots)
    (hb : (k, b) ∈ m.slots) : a = b := by
  have hinj := List.inj_on_of_nodup_map m.distinct ha hb rfl
  exact congrArg Prod.snd hinj

variable [DecidableEq κ]

instance (m : SlotMap κ α) (k : κ) : Decidable (k ∈ m) := inferInstanceAs (Decidable (k ∈ m.keys))

/-- The slot of a key that is there. -/
def slot (m : SlotMap κ α) (k : κ) : Slot := ⟨m.generation, m.keys.idxOf k⟩

def find (m : SlotMap κ α) (k : κ) : Option Slot := if k ∈ m then some (m.slot k) else none

/-- What is held under a key. -/
def lookup (m : SlotMap κ α) (k : κ) : Option α := ((m.find k).bind m.read).map Prod.snd

/-- Inserts a value under a key, if there is none yet. -/
def emplace (g : Growth) (m : SlotMap κ α) (k : κ) (a : α) : SlotMap κ α :=
  if h : k ∈ m then m
  else
    { m.makeRoom g with
      slots := m.slots ++ [(k, a)]
      distinct := distinct_push h a }

/-- The slot of a key, under which a default is inserted if there is nothing. -/
def subscript (g : Growth) (m : SlotMap κ α) (k : κ) (default : α) : SlotMap κ α × Slot :=
  (m.emplace g k default, (m.emplace g k default).slot k)

/-- Changes the value under a key where it lies. -/
def modify (m : SlotMap κ α) (k : κ) (f : α → α) : SlotMap κ α where
  slots := m.slots.map fun v => if v.1 = k then (v.1, f v.2) else v
  generation := m.generation
  capacity := m.capacity
  distinct := by
    rw [List.map_map]
    have hfst : Prod.fst ∘ (fun v : κ × α => if v.1 = k then (v.1, f v.2) else v) = Prod.fst := by
      funext v
      rw [Function.comp_apply]
      split <;> rfl
    rw [hfst]
    exact m.distinct

/-- The insertion of a value under the key grows the table. -/
def Grows (g : Growth) (m : SlotMap κ α) (k : κ) : Prop :=
  k ∉ m ∧ g.limit m.capacity ≤ m.slots.length

instance (g : Growth) (m : SlotMap κ α) (k : κ) : Decidable (m.Grows g k) :=
  inferInstanceAs (Decidable (_ ∧ _))

/-! ## The map -/

theorem read_slot {m : SlotMap κ α} {k : κ} (h : k ∈ m) :
    ∃ a, m.read (m.slot k) = some (k, a) ∧ (k, a) ∈ m.slots := by
  have hlt : m.keys.idxOf k < m.slots.length := by
    have hidx := List.idxOf_lt_length_iff.2 h
    rwa [keys, List.length_map] at hidx
  have hkey : (m.slots[m.keys.idxOf k]).1 = k := by
    have hidx : (m.slots.map Prod.fst)[m.keys.idxOf k]? = some k := List.getElem?_idxOf h
    rw [List.getElem?_map, List.getElem?_eq_getElem hlt] at hidx
    exact Option.some.inj hidx
  have hvalue : m.slots[m.keys.idxOf k] = (k, (m.slots[m.keys.idxOf k]).2) := Prod.ext hkey rfl
  refine ⟨(m.slots[m.keys.idxOf k]).2, ?_, ?_⟩
  · rw [← hvalue, ← List.getElem?_eq_getElem hlt]
    exact if_pos rfl
  · rw [← hvalue]
    exact List.getElem_mem hlt

theorem lookup_eq_some_iff {m : SlotMap κ α} {k : κ} {a : α} :
    m.lookup k = some a ↔ (k, a) ∈ m.slots := by
  unfold lookup find
  by_cases hk : k ∈ m
  · obtain ⟨b, hread, hmem⟩ := read_slot hk
    rw [if_pos hk, Option.bind_some, hread, Option.map_some, Option.some.injEq]
    constructor
    · rintro rfl
      exact hmem
    · intro ha
      exact eq_of_mem_slots hmem ha
  · rw [if_neg hk]
    constructor
    · rintro ⟨⟩
    · intro ha
      exact absurd (mem_of_mem_slots ha) hk

theorem lookup_eq_none_iff {m : SlotMap κ α} {k : κ} : m.lookup k = none ↔ k ∉ m := by
  rw [Option.eq_none_iff_forall_ne_some]
  constructor
  · rintro h hk
    obtain ⟨a, -, ha⟩ := read_slot hk
    exact h a (lookup_eq_some_iff.2 ha)
  · intro hk a ha
    exact hk (mem_of_mem_slots (lookup_eq_some_iff.1 ha))

theorem emplace_of_mem (g : Growth) {m : SlotMap κ α} {k : κ} (h : k ∈ m) (a : α) :
    m.emplace g k a = m := by
  rw [emplace, dif_pos h]

theorem slots_emplace (g : Growth) {m : SlotMap κ α} {k : κ} (h : k ∉ m) (a : α) :
    (m.emplace g k a).slots = m.slots ++ [(k, a)] := by
  rw [emplace, dif_neg h]

theorem lookup_emplace (g : Growth) {m : SlotMap κ α} {k : κ} (h : k ∉ m) (a : α) :
    (m.emplace g k a).lookup = Function.update m.lookup k (some a) := by
  funext k'
  ext b
  rw [lookup_eq_some_iff, slots_emplace g h, List.mem_append, List.mem_singleton]
  by_cases hk : k' = k
  · subst hk
    have hnot : (k', b) ∉ m.slots := fun hb => h (mem_of_mem_slots hb)
    rw [Function.update_self, or_iff_right hnot, Prod.mk.injEq, Option.some.injEq]
    exact ⟨fun e => e.2.symm, fun e => ⟨rfl, e.symm⟩⟩
  · have hne : (k', b) ≠ (k, a) := fun e => hk (congrArg Prod.fst e)
    rw [Function.update_of_ne hk, or_iff_left hne, lookup_eq_some_iff]

theorem mem_emplace (g : Growth) (m : SlotMap κ α) (k : κ) (a : α) : k ∈ m.emplace g k a := by
  by_cases h : k ∈ m
  · rwa [emplace_of_mem g h]
  · apply mem_of_mem_slots (a := a)
    rw [slots_emplace g h]
    exact List.mem_append_right _ (List.mem_singleton_self _)

theorem lookup_modify {m : SlotMap κ α} {k : κ} {a : α} (h : m.lookup k = some a) (f : α → α) :
    (m.modify k f).lookup = Function.update m.lookup k (some (f a)) := by
  have ha := lookup_eq_some_iff.1 h
  funext k'
  ext b
  rw [lookup_eq_some_iff, modify, List.mem_map]
  by_cases hk : k' = k
  · subst hk
    rw [Function.update_self, Option.some.injEq]
    constructor
    · rintro ⟨⟨k₁, c⟩, hc, he⟩
      by_cases hk₁ : k₁ = k'
      · subst hk₁
        rw [if_pos rfl, Prod.mk.injEq, eq_of_mem_slots hc ha] at he
        exact he.2
      · rw [if_neg hk₁] at he
        exact absurd (congrArg Prod.fst he) hk₁
    · rintro rfl
      exact ⟨(k', a), ha, if_pos rfl⟩
  · rw [Function.update_of_ne hk, lookup_eq_some_iff]
    constructor
    · rintro ⟨⟨k₁, c⟩, hc, he⟩
      by_cases hk₁ : k₁ = k
      · rw [if_pos hk₁] at he
        exact absurd ((congrArg Prod.fst he).symm.trans hk₁) hk
      · rw [if_neg hk₁] at he
        exact he ▸ hc
    · intro hb
      exact ⟨(k', b), hb, if_neg hk⟩

/-! ## References -/

/-- A slot that is found holds what is under its key. -/
theorem read_of_find {m : SlotMap κ α} {k : κ} {r : Slot} (h : m.find k = some r) :
    ∃ a, m.read r = some (k, a) ∧ m.lookup k = some a := by
  unfold find at h
  split at h
  · next hk =>
    obtain rfl := Option.some.inj h
    obtain ⟨a, hread, ha⟩ := read_slot hk
    exact ⟨a, hread, lookup_eq_some_iff.2 ha⟩
  · cases h

theorem generation_of_find {m : SlotMap κ α} {k : κ} {r : Slot} (h : m.find k = some r) :
    r.generation = m.generation := by
  unfold find at h
  split at h
  · obtain rfl := Option.some.inj h
    rfl
  · cases h

theorem find_of_mem {m : SlotMap κ α} {k : κ} (h : k ∈ m) : m.find k = some (m.slot k) := if_pos h

/-- A table that has not grown has its values where they were. -/
theorem find_emplace {g : Growth} {m : SlotMap κ α} {k k' : κ} {r : Slot} {a : α}
    (hgrows : ¬ m.Grows g k) (h : m.find k' = some r) : (m.emplace g k a).find k' = some r := by
  by_cases hk : k ∈ m
  · rwa [emplace_of_mem g hk]
  · have hroom : m.makeRoom g = m := by
      rw [makeRoom, if_pos]
      exact Nat.not_le.1 fun hle => hgrows ⟨hk, hle⟩
    unfold find at h
    split at h
    · next hk' =>
      have hkeys : (m.emplace g k a).keys = m.keys ++ [k] := by
        rw [keys, slots_emplace g hk, List.map_append]
        rfl
      have hmem : k' ∈ m.emplace g k a := by
        change k' ∈ (m.emplace g k a).keys
        rw [hkeys]
        exact List.mem_append_left _ hk'
      have hgeneration : (m.emplace g k a).generation = m.generation := by
        rw [emplace, dif_neg hk, hroom]
      rw [find_of_mem hmem, ← h, slot, slot, hgeneration, hkeys, List.idxOf_append_of_mem hk']
    · cases h

theorem generation_emplace {g : Growth} {m : SlotMap κ α} {k : κ} (h : m.Grows g k) (a : α) :
    (m.emplace g k a).generation = m.generation + 1 := by
  rw [emplace, dif_neg h.1, makeRoom, if_neg (Nat.not_lt.2 h.2)]

theorem generation_emplace_of_not_grows {g : Growth} {m : SlotMap κ α} {k : κ}
    (h : ¬ m.Grows g k) (a : α) : (m.emplace g k a).generation = m.generation := by
  by_cases hk : k ∈ m
  · rw [emplace_of_mem g hk]
  · have hroom : m.slots.length < g.limit m.capacity := Nat.not_le.1 fun hle => h ⟨hk, hle⟩
    rw [emplace, dif_neg hk, makeRoom, if_pos hroom]

/-- A table that has grown has nothing where it was. -/
theorem find_emplace_of_grows {g : Growth} {m : SlotMap κ α} {k k' k'' : κ} {r : Slot} {a : α}
    (hgrows : m.Grows g k) (h : m.find k' = some r) : (m.emplace g k a).find k'' ≠ some r := by
  intro h'
  have hgeneration := generation_of_find h'
  rw [generation_emplace hgrows, generation_of_find h] at hgeneration
  exact absurd hgeneration (Nat.ne_of_lt (Nat.lt_succ_self _))

/-- The slot that `subscript` gives after `emplace`. -/
theorem subscript_emplace (g : Growth) (m : SlotMap κ α) (k : κ) (a default : α) :
    (m.emplace g k a).subscript g k default = (m.emplace g k a, (m.emplace g k a).slot k) := by
  rw [subscript, emplace_of_mem g (mem_emplace g m k a)]

@[simp] theorem keys_modify (m : SlotMap κ α) (k : κ) (f : α → α) :
    (m.modify k f).keys = m.keys := by
  rw [keys, keys, modify, List.map_map]
  apply List.map_congr_left
  intro v _
  rw [Function.comp_apply]
  split <;> rfl

/-- A change in place moves nothing. -/
@[simp] theorem find_modify (m : SlotMap κ α) (k : κ) (f : α → α) :
    (m.modify k f).find = m.find := by
  funext k'
  have hmem : k' ∈ m.modify k f ↔ k' ∈ m := by
    change k' ∈ (m.modify k f).keys ↔ k' ∈ m.keys
    rw [keys_modify]
  simp only [find, hmem, slot, keys_modify]
  rfl

end SlotMap

end Netpull
