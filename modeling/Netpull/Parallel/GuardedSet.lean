import Mathlib.Data.Finset.Insert
import Mathlib.Data.Finset.Erase

/-!
# GuardedSet

A set behind a mutex, and what each operation does to it when no other thread is inside one.

`Insert` and `Contains` take the lock, so they are atomic steps. `Erase` takes none, and its
callers do not either. The models of the client let it be a step nevertheless, so that they say
something about the runs in which no erasure overlaps another operation; `Client/Races` is about
the others.
-/

namespace Netpull

/-- `GuardedSet<T>`. -/
structure GuardedSet (α : Type) where
  data : Finset α
deriving DecidableEq

namespace GuardedSet

variable {α : Type} [DecidableEq α]

def empty : GuardedSet α := ⟨∅⟩

/-- `GuardedSet::Insert`. -/
def insert (s : GuardedSet α) (value : α) : GuardedSet α := ⟨Insert.insert value s.data⟩

/-- `GuardedSet::Contains`. -/
def contains (s : GuardedSet α) (value : α) : Bool := value ∈ s.data

/-- `GuardedSet::Erase`, by itself: it does not take the lock. -/
def erase (s : GuardedSet α) (value : α) : GuardedSet α := ⟨s.data.erase value⟩

/-- `GuardedSet::Pull`. -/
def pull (s : GuardedSet α) : Finset α := s.data

instance : Membership α (GuardedSet α) := ⟨fun s value => value ∈ s.data⟩

instance (s : GuardedSet α) (value : α) : Decidable (value ∈ s) :=
  inferInstanceAs (Decidable (value ∈ s.data))

omit [DecidableEq α] in
@[simp] theorem not_mem_empty (value : α) : value ∉ (empty : GuardedSet α) :=
  Finset.notMem_empty value

@[simp] theorem mem_insert {s : GuardedSet α} {value v : α} :
    v ∈ s.insert value ↔ v = value ∨ v ∈ s :=
  Finset.mem_insert

@[simp] theorem mem_erase {s : GuardedSet α} {value v : α} :
    v ∈ s.erase value ↔ v ≠ value ∧ v ∈ s :=
  Finset.mem_erase

@[simp] theorem contains_iff {s : GuardedSet α} {value : α} :
    s.contains value = true ↔ value ∈ s :=
  decide_eq_true_iff

end GuardedSet

end Netpull
