import Mathlib.Logic.Function.Basic

/-!
# GuardedMap

A map behind a mutex. Every operation is one atomic step on the map.
-/

namespace Netpull

/-- `GuardedMap<K, V>`. -/
structure GuardedMap (K V : Type) where
  data : K → Option V

namespace GuardedMap

variable {K V : Type} [DecidableEq K]

def empty : GuardedMap K V := ⟨fun _ => none⟩

/-- `GuardedMap::Put`: what is there already stays. -/
def put (m : GuardedMap K V) (k : K) (v : V) : GuardedMap K V :=
  match m.data k with
  | none => ⟨Function.update m.data k (some v)⟩
  | some _ => m

/-- `GuardedMap::GetAndPopIf`. -/
def getAndPopIf (m : GuardedMap K V) (k : K) (decider : V → Bool) : Option V × GuardedMap K V :=
  match m.data k with
  | some v => if decider v then (some v, ⟨Function.update m.data k none⟩) else (none, m)
  | none => (none, m)

/-- Nothing is popped, and the map stays as it is, unless the decider accepts the value. -/
theorem getAndPopIf_none {m : GuardedMap K V} {k : K} {decider : V → Bool}
    (h : ∀ v, m.data k = some v → decider v = false) : m.getAndPopIf k decider = (none, m) := by
  unfold getAndPopIf
  split
  · next v hv => rw [h v hv, if_neg Bool.false_ne_true]
  · rfl

/-- The value of a key comes out, and with it the key, if the decider accepts it. -/
theorem getAndPopIf_some {m : GuardedMap K V} {k : K} {v : V} {decider : V → Bool}
    (h : m.data k = some v) (hv : decider v = true) :
    m.getAndPopIf k decider = (some v, ⟨Function.update m.data k none⟩) := by
  simp only [getAndPopIf, h, hv, if_true]

theorem put_data_of_none {m : GuardedMap K V} {k : K} (h : m.data k = none) (v : V) :
    (m.put k v).data = Function.update m.data k (some v) := by
  simp only [put, h]

end GuardedMap

end Netpull
