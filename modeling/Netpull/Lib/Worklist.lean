import Mathlib.Algebra.BigOperators.Group.List.Basic
import Mathlib.Algebra.GroupWithZero.Nat
import Mathlib.Data.List.Perm.Basic

/-!
# First-in first-out worklists

`run expand fuel q` takes items from the front of the queue `q`, collects what each gives out and
puts what it spawns at the back. The three laws are proved once for any `expand`, on the items
that satisfy a predicate `P` every expansion keeps:

* a size that strictly drops from an item to all it spawns bounds the rounds (`run_queue_nil`);
* an output that obeys the recursion of `expand` is given out completely and once (`run_perm`);
* outputs come in the order of their depth (`run_sorted`).
-/

namespace Netpull.Worklist

open scoped List

variable {ι ω : Type*} (expand : ι → List ω × List ι)

/-- Work off the queue for at most `fuel` rounds: what was given out, and what is left. -/
def run : Nat → List ι → List ω × List ι
  | 0, q => ([], q)
  | _ + 1, [] => ([], [])
  | fuel + 1, i :: q =>
    let r := run fuel (q ++ (expand i).2)
    ((expand i).1 ++ r.1, r.2)

@[simp] theorem run_nil (fuel : Nat) : run expand fuel [] = ([], []) := by
  cases fuel <;> rfl

theorem run_cons (fuel : Nat) (i : ι) (q : List ι) :
    run expand (fuel + 1) (i :: q) =
      ((expand i).1 ++ (run expand fuel (q ++ (expand i).2)).1,
        (run expand fuel (q ++ (expand i).2)).2) := rfl

variable {expand}

section Laws

variable {P : ι → Prop} (hP : ∀ i, P i → ∀ j ∈ (expand i).2, P j)

include hP

/-- If the spawned items are together smaller than the item they come from, as many rounds as the
queue is large empty it. -/
theorem run_queue_nil {size : ι → Nat}
    (hsize : ∀ i, P i → ((expand i).2.map size).sum < size i) (fuel : Nat) (q : List ι)
    (hq : ∀ i ∈ q, P i) (hfuel : (q.map size).sum ≤ fuel) : (run expand fuel q).2 = [] := by
  induction fuel generalizing q with
  | zero =>
    cases q with
    | nil => rfl
    | cons i q =>
      have hpos := hsize i (hq i List.mem_cons_self)
      simp only [List.map_cons, List.sum_cons] at hfuel
      omega
  | succ fuel ih =>
    cases q with
    | nil => rfl
    | cons i q =>
      have hi := hq i List.mem_cons_self
      have hq' : ∀ j ∈ q, P j := fun j hj => hq j (List.mem_cons_of_mem i hj)
      rw [run_cons]
      apply ih _ (List.forall_mem_append.2 ⟨hq', hP i hi⟩)
      have hdrop := hsize i hi
      simp only [List.map_cons, List.sum_cons] at hfuel
      rw [List.map_append, List.sum_append]
      omega

/-- If `below i` is what `i` gives out together with what lies below the items it spawns, a run
that empties its queue gives out what lies below the queue, each as often as it occurs there. -/
theorem run_perm {below : ι → List ω}
    (hbelow : ∀ i, P i → below i ~ (expand i).1 ++ (expand i).2.flatMap below)
    (fuel : Nat) (q : List ι) (hq : ∀ i ∈ q, P i) (hdone : (run expand fuel q).2 = []) :
    (run expand fuel q).1 ~ q.flatMap below := by
  induction fuel generalizing q with
  | zero =>
    obtain rfl : q = [] := hdone
    exact List.Perm.refl _
  | succ fuel ih =>
    cases q with
    | nil => exact List.Perm.refl _
    | cons i q =>
      have hi := hq i List.mem_cons_self
      have hq' : ∀ j ∈ q, P j := fun j hj => hq j (List.mem_cons_of_mem i hj)
      rw [run_cons] at hdone ⊢
      have hrest := ih _ (List.forall_mem_append.2 ⟨hq', hP i hi⟩) hdone
      rw [List.flatMap_append] at hrest
      calc (expand i).1 ++ (run expand fuel (q ++ (expand i).2)).1
        _ ~ (expand i).1 ++ (q.flatMap below ++ (expand i).2.flatMap below) :=
          hrest.append_left _
        _ ~ (expand i).1 ++ ((expand i).2.flatMap below ++ q.flatMap below) :=
          List.perm_append_comm.append_left _
        _ = ((expand i).1 ++ (expand i).2.flatMap below) ++ q.flatMap below := by
          rw [List.append_assoc]
        _ ~ below i ++ q.flatMap below := (hbelow i hi).symm.append_right _

end Laws

/-! ## Breadth first -/

/-- The levels of a breadth-first queue: first some items of level `n`, then some of the next. -/
def Layered (level : ι → Nat) (n : Nat) (q : List ι) : Prop :=
  ∃ a b, q = a ++ b ∧ (∀ i ∈ a, level i = n) ∧ ∀ i ∈ b, level i = n + 1

/-- The front of a layered queue has some level `m` from `n` on, and what stays layered at `m` when
the front is replaced by items of the next level at the back. -/
theorem Layered.rotate {level : ι → Nat} {n : Nat} {i : ι} {q r : List ι}
    (h : Layered level n (i :: q)) (hr : ∀ j ∈ r, level j = level i + 1) :
    n ≤ level i ∧ Layered level (level i) (q ++ r) := by
  obtain ⟨a, b, e, ha, hb⟩ := h
  cases a with
  | nil =>
    obtain rfl : i :: q = b := e
    have hi := hb i List.mem_cons_self
    refine ⟨by omega, q, r, rfl, fun j hj => ?_, hr⟩
    rw [hb j (List.mem_cons_of_mem i hj), hi]
  | cons a as =>
    obtain ⟨rfl, rfl⟩ := List.cons.inj e
    have hi := ha i List.mem_cons_self
    refine ⟨by omega, as, b ++ r, List.append_assoc .., fun j hj => ?_, fun j hj => ?_⟩
    · rw [ha j (List.mem_cons_of_mem i hj), hi]
    · rcases List.mem_append.1 hj with hj | hj
      · rw [hb j hj, hi]
      · exact hr j hj

/-- Outputs come out in the order of their depth. -/
theorem run_sorted (level : ι → Nat) (depth : ω → Nat) {P : ι → Prop}
    (hP : ∀ i, P i → ∀ j ∈ (expand i).2, P j)
    (hout : ∀ i, P i → ∀ o ∈ (expand i).1, depth o = level i + 1)
    (hspawn : ∀ i, P i → ∀ j ∈ (expand i).2, level j = level i + 1) (fuel : Nat) (n : Nat)
    (q : List ι) (hq : ∀ i ∈ q, P i) (hl : Layered level n q) :
    (run expand fuel q).1.Pairwise (fun o o' => depth o ≤ depth o') ∧
      ∀ o ∈ (run expand fuel q).1, n + 1 ≤ depth o := by
  induction fuel generalizing n q with
  | zero => exact ⟨List.Pairwise.nil, fun o ho => absurd ho List.not_mem_nil⟩
  | succ fuel ih =>
    cases q with
    | nil => exact ⟨List.Pairwise.nil, fun o ho => absurd ho List.not_mem_nil⟩
    | cons i q =>
      have hi := hq i List.mem_cons_self
      have hq' : ∀ j ∈ q, P j := fun j hj => hq j (List.mem_cons_of_mem i hj)
      obtain ⟨hn, hl'⟩ := hl.rotate (hspawn i hi)
      obtain ⟨hsorted, hdeep⟩ := ih _ _ (List.forall_mem_append.2 ⟨hq', hP i hi⟩) hl'
      rw [run_cons]
      refine ⟨List.pairwise_append.2 ⟨?_, hsorted, fun o ho o' ho' => ?_⟩, fun o ho => ?_⟩
      · apply List.pairwise_of_forall_mem_list
        intro o ho o' ho'
        exact Nat.le_of_eq ((hout i hi o ho).trans (hout i hi o' ho').symm)
      · rw [hout i hi o ho]
        exact hdeep o' ho'
      · rcases List.mem_append.1 ho with ho | ho
        · rw [hout i hi o ho]
          omega
        · have := hdeep o ho
          omega

end Netpull.Worklist
