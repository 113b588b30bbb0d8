import Mathlib.Data.List.Nodup
import Netpull.Lib.Transition
import Netpull.Parallel.WorkerPool

/-!
# ScopedResource

Objects that own a resource each, or none, and the operations on them. What the deleter is called
with and what `steal` returns is recorded, so that it can be counted: a resource that was handed in
is held by one object, was stolen once or was released once, whatever was done to the objects
(`scopedResource_released`). `execute_released` is about the `ScopedDefer` of `Task::Execute`.
-/

namespace Netpull

open Transition
open scoped List

/-! ## The class -/

/-- `ScopedResource<Type, Deleter>`. -/
structure ScopedResource (α : Type) where
  value : Option α
deriving DecidableEq, Repr

namespace ScopedResource

variable {α : Type}

def isEmpty (r : ScopedResource α) : Bool := r.value.isNone

/-- The default constructor. -/
def default : ScopedResource α := ⟨none⟩

def ofValue (value : α) : ScopedResource α := ⟨some value⟩

/-- The move constructor: the new object, and `other` after it. -/
def ofMove (other : ScopedResource α) : ScopedResource α × ScopedResource α :=
  if !other.isEmpty then (⟨other.value⟩, ⟨none⟩) else (⟨none⟩, other)

/-- `reset()`, with what the deleter is called with. -/
def reset (r : ScopedResource α) : ScopedResource α × List α :=
  if !r.isEmpty then (⟨none⟩, r.value.toList) else (⟨none⟩, [])

/-- `reset(value)`. -/
def resetTo (r : ScopedResource α) (value : α) : ScopedResource α × List α :=
  (⟨some value⟩, r.reset.2)

/-- `steal`, which has no outcome for an object that is empty. -/
def steal (r : ScopedResource α) : Option (α × ScopedResource α) :=
  r.value.map fun copy => (copy, ⟨none⟩)

/-- The destructor. -/
def destroy (r : ScopedResource α) : List α := r.reset.2

theorem reset_eq (r : ScopedResource α) : r.reset = (⟨none⟩, r.value.toList) := by
  obtain ⟨_ | value⟩ := r <;> rfl

theorem ofMove_eq (other : ScopedResource α) : ofMove other = (⟨other.value⟩, ⟨none⟩) := by
  obtain ⟨_ | value⟩ := other <;> rfl

end ScopedResource

/-! ## Many objects -/

/-- The operations. An object has the number of its construction. -/
inductive ScopedOp (α : Type)
  | construct
  | constructWith (value : α)
  | moveConstruct (other : Nat)
  | reset (i : Nat)
  | resetTo (i : Nat) (value : α)
  | steal (i : Nat)
  | destroy (i : Nat)

/-- The resource that an operation hands in. -/
def ScopedOp.value {α : Type} : ScopedOp α → Option α
  | .constructWith value | .resetTo _ value => some value
  | _ => none

/-- The object that an operation is applied to. -/
def ScopedOp.target {α : Type} : ScopedOp α → Option Nat
  | .moveConstruct i | .reset i | .resetTo i _ | .steal i | .destroy i => some i
  | .construct | .constructWith _ => none

/-- The objects constructed so far, those destroyed being `none`, with the resources handed in,
stolen and released, in this order. -/
structure ScopedWorld (α : Type) where
  objects : List (Option (ScopedResource α))
  handed : List α
  stolen : List α
  released : List α

namespace ScopedWorld

variable {α : Type}

def start : ScopedWorld α := ⟨[], [], [], []⟩

/-- An object that is not destroyed yet. -/
def live (w : ScopedWorld α) (i : Nat) : Option (ScopedResource α) := w.objects[i]?.join

/-- What a live object holds. -/
def heldBy (o : Option (ScopedResource α)) : Option α := o.bind ScopedResource.value

/-- How many objects hold a resource. -/
def holders [DecidableEq α] (w : ScopedWorld α) (r : α) : Nat :=
  w.objects.countP fun o => heldBy o == some r

/-- Exactly one of: held by exactly one object, stolen exactly once, released exactly once. -/
def InOnePlace [DecidableEq α] (w : ScopedWorld α) (r : α) : Prop :=
  (w.holders r = 1 ∧ w.stolen.count r = 0 ∧ w.released.count r = 0) ∨
  (w.holders r = 0 ∧ w.stolen.count r = 1 ∧ w.released.count r = 0) ∨
  (w.holders r = 0 ∧ w.stolen.count r = 0 ∧ w.released.count r = 1)

end ScopedWorld

open ScopedResource in
/-- An operation, if the object that it is applied to is live. -/
def scopedStep {α : Type} (w : ScopedWorld α) : ScopedOp α → Option (ScopedWorld α)
  | .construct => some { w with objects := w.objects ++ [some .default] }
  | .constructWith value =>
    some { w with objects := w.objects ++ [some (ofValue value)], handed := w.handed ++ [value] }
  | .moveConstruct other =>
    (w.live other).map fun r =>
      let (this, r) := ofMove r
      { w with objects := w.objects.set other (some r) ++ [some this] }
  | .reset i =>
    (w.live i).map fun r =>
      let (r, out) := r.reset
      { w with objects := w.objects.set i (some r), released := w.released ++ out }
  | .resetTo i value =>
    (w.live i).map fun r =>
      let (r, out) := r.resetTo value
      { w with
        objects := w.objects.set i (some r)
        handed := w.handed ++ [value]
        released := w.released ++ out }
  | .steal i =>
    (w.live i).bind fun r =>
      r.steal.map fun (copy, r) =>
        { w with objects := w.objects.set i (some r), stolen := w.stolen ++ [copy] }
  | .destroy i =>
    (w.live i).map fun r =>
      { w with objects := w.objects.set i none, released := w.released ++ r.destroy }

/-! ## Every resource is accounted for -/

namespace ScopedWorld

variable {α : Type} [DecidableEq α] {w w' : ScopedWorld α}

/-- What the live objects hold. -/
def held (w : ScopedWorld α) : List α := w.objects.filterMap heldBy

theorem holders_eq (w : ScopedWorld α) (r : α) : w.holders r = w.held.count r :=
  List.count_filterMap.symm

/-- A resource is as often somewhere as it was handed in. -/
def Accounted (w : ScopedWorld α) : Prop :=
  ∀ r, w.handed.count r = w.held.count r + w.stolen.count r + w.released.count r

theorem count_set {i : Nat} {x : ScopedResource α} (hlive : w.live i = some x)
    (o : Option (ScopedResource α)) (r : α) :
    x.value.toList.count r + ((w.objects.set i o).filterMap heldBy).count r =
      (heldBy o).toList.count r + w.held.count r := by
  have hi : w.objects[i]? = some (some x) := Option.join_eq_some_iff.1 hlive
  have hperm := WorkerPool.filterMap_perm_set (f := heldBy) hi o
  have hcount := hperm.count_eq r
  rwa [List.count_append, List.count_append] at hcount

theorem count_snoc (objects : List (Option (ScopedResource α))) (o : Option (ScopedResource α))
    (r : α) : ((objects ++ [o]).filterMap heldBy).count r =
      (objects.filterMap heldBy).count r + (heldBy o).toList.count r := by
  rw [List.filterMap_append, List.count_append]
  cases h : heldBy o <;> simp [h]

theorem Accounted.step (h : w.Accounted) {op : ScopedOp α} (hs : scopedStep w op = some w') :
    w'.Accounted := by
  intro r
  have hr := h r
  cases op with
  | construct =>
    obtain rfl := Option.some.inj hs
    rw [held, count_snoc]
    exact hr
  | constructWith value =>
    obtain rfl := Option.some.inj hs
    rw [held, count_snoc, List.count_append, hr]
    simp only [held, heldBy, ScopedResource.ofValue, Option.bind_some, Option.toList_some]
    omega
  | moveConstruct other =>
    obtain ⟨x, hlive, rfl⟩ := Option.map_eq_some_iff.1 hs
    have hset := count_set hlive (some ⟨none⟩) r
    rw [ScopedResource.ofMove_eq, held, count_snoc]
    simp only [heldBy, Option.bind_some, Option.toList_none, List.count_nil] at hset ⊢
    omega
  | reset i =>
    obtain ⟨x, hlive, rfl⟩ := Option.map_eq_some_iff.1 hs
    have hset := count_set hlive (some ⟨none⟩) r
    rw [ScopedResource.reset_eq, held, List.count_append]
    simp only [heldBy, Option.bind_some, Option.toList_none, List.count_nil] at hset ⊢
    omega
  | resetTo i value =>
    obtain ⟨x, hlive, rfl⟩ := Option.map_eq_some_iff.1 hs
    have hset := count_set hlive (some ⟨some value⟩) r
    rw [ScopedResource.resetTo, ScopedResource.reset_eq, held, List.count_append, List.count_append]
    simp only [heldBy, Option.bind_some, Option.toList_some] at hset ⊢
    omega
  | steal i =>
    obtain ⟨x, hlive, hsteal⟩ := Option.bind_eq_some_iff.1 hs
    obtain ⟨⟨copy, x'⟩, hcopy, rfl⟩ := Option.map_eq_some_iff.1 hsteal
    obtain ⟨value, hvalue, hpair⟩ := Option.map_eq_some_iff.1 hcopy
    obtain ⟨rfl, rfl⟩ := Prod.mk.inj hpair
    have hset := count_set hlive (some ⟨none⟩) r
    rw [held, List.count_append]
    simp only [heldBy, Option.bind_some, Option.toList_none, List.count_nil, hvalue,
      Option.toList_some] at hset ⊢
    omega
  | destroy i =>
    obtain ⟨x, hlive, rfl⟩ := Option.map_eq_some_iff.1 hs
    have hset := count_set hlive none r
    rw [ScopedResource.destroy, ScopedResource.reset_eq, held, List.count_append]
    simp only [heldBy, Option.bind_none, Option.toList_none, List.count_nil] at hset ⊢
    omega

omit [DecidableEq α] in
theorem handed_step {op : ScopedOp α} (hs : scopedStep w op = some w') :
    w'.handed = w.handed ++ op.value.toList := by
  cases op with
  | construct | constructWith value =>
    obtain rfl := Option.some.inj hs
    simp [ScopedOp.value]
  | moveConstruct i | reset i | resetTo i value | destroy i =>
    obtain ⟨x, -, rfl⟩ := Option.map_eq_some_iff.1 hs
    simp [ScopedOp.value]
  | steal i =>
    obtain ⟨x, -, hsteal⟩ := Option.bind_eq_some_iff.1 hs
    obtain ⟨copy, -, rfl⟩ := Option.map_eq_some_iff.1 hsteal
    simp [ScopedOp.value]

omit [DecidableEq α] in
theorem handed_script {ops : List (ScopedOp α)} (hrun : script scopedStep w ops = some w') :
    w'.handed = w.handed ++ ops.filterMap ScopedOp.value := by
  induction ops generalizing w with
  | nil =>
    obtain rfl := Option.some.inj hrun
    exact (List.append_nil _).symm
  | cons op ops ih =>
    obtain ⟨w₁, hs, hrest⟩ := Option.bind_eq_some_iff.1 hrun
    rw [ih hrest, handed_step hs, List.append_assoc, List.filterMap_cons]
    cases op.value <;> rfl

/-- A resource that was handed in once is in one place. -/
theorem Accounted.inOnePlace (h : w.Accounted) (hfresh : w.handed.Nodup) {r : α}
    (hr : r ∈ w.handed) : w.InOnePlace r := by
  have hsum := h r
  rw [List.count_eq_one_of_mem hfresh hr, ← holders_eq] at hsum
  unfold InOnePlace
  omega

theorem holders_eq_zero (hgone : ∀ o ∈ w.objects, o = none) (r : α) : w.holders r = 0 := by
  refine List.countP_eq_zero.2 fun o ho => ?_
  rw [hgone o ho]
  exact Bool.false_ne_true

end ScopedWorld

open ScopedWorld in
/-- **Every resource is released exactly once**, unless it is stolen. If the resources handed in are
different, each is in one place at every point of the sequence, and released once the objects are
destroyed. -/
theorem scopedResource_released {α : Type} [DecidableEq α] (ops : List (ScopedOp α))
    (hfresh : (ops.filterMap ScopedOp.value).Nodup) :
    EachState scopedStep (fun w : ScopedWorld α => ∀ r ∈ w.handed, w.InOnePlace r) .start ops ∧
    ∀ w, script scopedStep .start ops = some w → (∀ o ∈ w.objects, o = none) →
      ∀ r ∈ w.handed, r ∉ w.stolen → w.released.count r = 1 := by
  have haccounted : ∀ {before : List (ScopedOp α)} {w : ScopedWorld α},
      script scopedStep .start before = some w → w.Accounted :=
    script_invariant (fun _ _ _ h hs => Accounted.step h hs) (fun _ => rfl)
  have hplace : EachState scopedStep (fun w : ScopedWorld α => ∀ r ∈ w.handed, w.InOnePlace r)
      .start ops := by
    intro before after w hops hrun r hr
    refine (haccounted hrun).inOnePlace ?_ hr
    rw [handed_script hrun]
    exact hfresh.sublist (hops ▸ (List.sublist_append_left before after).filterMap _)
  refine ⟨hplace, fun w hrun hgone r hr hnot => ?_⟩
  have hone := hplace ops [] w (List.append_nil ops).symm hrun r hr
  have hnone := holders_eq_zero hgone r
  have hkept := List.count_eq_zero_of_not_mem hnot
  unfold InOnePlace at hone
  omega

/-- Two descriptors: one is moved and then stolen, the other gives way to a third. -/
def threeDescriptors : List (ScopedOp Nat) :=
  [.constructWith 3, .moveConstruct 0, .constructWith 4, .resetTo 2 5, .steal 1, .destroy 2,
    .destroy 1, .destroy 0]

theorem scopedResource_released_three :
    ∃ w, script scopedStep .start threeDescriptors = some w ∧ w.stolen = [3] ∧
      w.released = [4, 5] ∧
      (∀ r ∈ w.handed, w.InOnePlace r) ∧
      ∀ r ∈ w.handed, r ∉ w.stolen → w.released.count r = 1 := by
  obtain ⟨w, hrun, hstolen, hreleased, hgone⟩ :
      ∃ w, script scopedStep .start threeDescriptors = some w ∧ w.stolen = [3] ∧
        w.released = [4, 5] ∧ w.objects = [none, none, none] := ⟨_, rfl, rfl, rfl, rfl⟩
  obtain ⟨hplace, hreleases⟩ := scopedResource_released threeDescriptors (by decide)
  refine ⟨w, hrun, hstolen, hreleased, hplace threeDescriptors [] w rfl hrun,
    hreleases w hrun ?_⟩
  simp [hgone]

/-! ## Task::Execute -/

namespace ScopedWorld

variable {α : Type} {w w' : ScopedWorld α}

/-- An operation leaves every object as it is but the one it is applied to. -/
theorem step_objects {op : ScopedOp α} (hs : scopedStep w op = some w') {n : Nat}
    (hn : n < w.objects.length) (hother : op.target ≠ some n) :
    w'.objects[n]? = w.objects[n]? ∧ n < w'.objects.length := by
  have hset : ∀ {i : Nat} (o : Option (ScopedResource α)), some i ≠ some n →
      (w.objects.set i o)[n]? = w.objects[n]? :=
    fun o hne => List.getElem?_set_ne fun heq => hne (congrArg some heq)
  cases op with
  | construct | constructWith value =>
    obtain rfl := Option.some.inj hs
    refine ⟨List.getElem?_append_left hn, ?_⟩
    simp only [List.length_append]
    omega
  | moveConstruct i =>
    obtain ⟨x, -, rfl⟩ := Option.map_eq_some_iff.1 hs
    constructor
    · rw [List.getElem?_append_left (by rwa [List.length_set])]
      exact hset _ hother
    · simp only [List.length_append, List.length_set]
      omega
  | reset i | resetTo i value | destroy i =>
    obtain ⟨x, -, rfl⟩ := Option.map_eq_some_iff.1 hs
    exact ⟨hset _ hother, by simpa using hn⟩
  | steal i =>
    obtain ⟨x, -, hsteal⟩ := Option.bind_eq_some_iff.1 hs
    obtain ⟨copy, -, rfl⟩ := Option.map_eq_some_iff.1 hsteal
    exact ⟨hset _ hother, by simpa using hn⟩

theorem script_objects {ops : List (ScopedOp α)} (hrun : script scopedStep w ops = some w')
    {n : Nat} (hn : n < w.objects.length) (hother : ∀ op ∈ ops, op.target ≠ some n) :
    w'.objects[n]? = w.objects[n]? := by
  induction ops generalizing w with
  | nil => rw [Option.some.inj hrun]
  | cons op ops ih =>
    obtain ⟨w₁, hs, hrest⟩ := Option.bind_eq_some_iff.1 hrun
    obtain ⟨hsame, hn₁⟩ := step_objects hs hn (hother op List.mem_cons_self)
    rw [ih hrest hn₁ fun op' hop' => hother op' (List.mem_cons_of_mem op hop'), hsame]

/-- `Task::Execute`: a `ScopedDefer` is constructed, `run` is done, and it is destroyed. -/
def execute (key : α) (run : List (ScopedOp α)) (w : ScopedWorld α) : Option (ScopedWorld α) :=
  script scopedStep w (.constructWith key :: run ++ [.destroy w.objects.length])

/-- Whatever `run` does to other objects, the function of the `ScopedDefer` is called after it. -/
theorem execute_released {key : α} {run : List (ScopedOp α)} (h : execute key run w = some w')
    (hlocal : ∀ op ∈ run, op.target ≠ some w.objects.length) :
    ∃ w₁, script scopedStep w (.constructWith key :: run) = some w₁ ∧
      w'.released = w₁.released ++ [key] := by
  obtain ⟨w₁, hrun, hlast⟩ := script_snoc h
  refine ⟨w₁, hrun, ?_⟩
  obtain ⟨w₀, hs, hrest⟩ := Option.bind_eq_some_iff.1 hrun
  obtain rfl := Option.some.inj hs
  have hkey : w₁.objects[w.objects.length]? = some (some ⟨some key⟩) := by
    rw [script_objects hrest (by simp) hlocal]
    exact List.getElem?_concat_length
  obtain ⟨x, hlive, rfl⟩ := Option.map_eq_some_iff.1 hlast
  rw [live, hkey] at hlive
  obtain rfl := Option.some.inj hlive
  rfl

end ScopedWorld

end Netpull
