import Mathlib.Data.List.Basic
import Mathlib.Data.List.Induction

/-!
# Lexical resolution

A path as a list of steps, each up to the parent or down to a name, over arbitrary names. `walk`
takes the steps from a place without looking at any file system: going up undoes the last step
down, above a root there is nothing, and above the place where a relative path begins there is one
more parent. `reduce` is the shortest list of steps with the same effect (`walk_reduce`). Steps
that `Stays` never lead above the place they begin at, which is a matter of counting (`stays_iff`).
-/

namespace Netpull.Lexical

variable {α : Type*}

inductive Step (α : Type*)
  | up
  | down (name : α)
deriving DecidableEq, Repr

/-- A place: `ups` levels above the beginning of a relative path, and `names` down from there. -/
structure Place (α : Type*) where
  rooted : Bool
  ups : Nat
  names : List α
deriving DecidableEq, Repr

/-- The place of a path without any step. -/
def Place.origin (rooted : Bool) : Place α := ⟨rooted, 0, []⟩

def Place.go (p : Place α) : Step α → Place α
  | .down name => { p with names := p.names ++ [name] }
  | .up =>
    if p.names.isEmpty then if p.rooted then p else { p with ups := p.ups + 1 }
    else { p with names := p.names.dropLast }

def Place.walk (p : Place α) (steps : List (Step α)) : Place α := steps.foldl Place.go p

@[simp] theorem Place.walk_nil (p : Place α) : p.walk [] = p := rfl

@[simp] theorem Place.walk_cons (p : Place α) (s : Step α) (steps : List (Step α)) :
    p.walk (s :: steps) = (p.go s).walk steps := rfl

theorem Place.walk_append (p : Place α) (xs ys : List (Step α)) :
    p.walk (xs ++ ys) = (p.walk xs).walk ys := List.foldl_append

@[simp] theorem Place.go_rooted (p : Place α) (s : Step α) : (p.go s).rooted = p.rooted := by
  cases s with
  | down name => rfl
  | up =>
    simp only [Place.go]
    split
    · split <;> rfl
    · rfl

theorem Place.go_down_up (p : Place α) (name : α) : (p.go (.down name)).go .up = p := by
  simp [Place.go]

theorem Place.walk_down (p : Place α) (names : List α) :
    p.walk (names.map .down) = { p with names := p.names ++ names } := by
  induction names generalizing p with
  | nil => simp
  | cons n names ih =>
    rw [List.map_cons, Place.walk_cons, ih]
    simp [Place.go]

/-- Going up once for each of the last names. -/
theorem Place.walk_up (p : Place α) {names tail : List α} {n : Nat}
    (h : p.names = names ++ tail) (hn : tail.length = n) :
    p.walk (List.replicate n .up) = { p with names } := by
  subst hn
  induction tail using List.reverseRecOn generalizing p with
  | nil =>
    obtain ⟨rooted, ups, ns⟩ := p
    rw [List.append_nil] at h
    subst h
    rfl
  | append_singleton tail n ih =>
    have hgo : p.go .up = { p with names := names ++ tail } := by
      unfold Place.go
      simp [h, ← List.append_assoc]
    rw [List.length_append, List.length_singleton, List.replicate_succ, Place.walk_cons, hgo,
      ih { p with names := names ++ tail } rfl]

/-! ## Reduced steps -/

/-- The steps to a place from the origin. -/
def Place.steps (p : Place α) : List (Step α) :=
  List.replicate p.ups .up ++ p.names.map .down

/-- What the steps come to, from the beginning of a relative path. -/
def reduce (steps : List (Step α)) : Place α := (Place.origin false).walk steps

theorem reduce_rooted (steps : List (Step α)) : (reduce steps).rooted = false := by
  induction steps using List.reverseRecOn with
  | nil => rfl
  | append_singleton steps s ih =>
    rw [reduce, Place.walk_append, Place.walk_cons, Place.walk_nil, Place.go_rooted]
    exact ih

/-- Steps have the effect of their reduced form, from wherever they are taken. -/
theorem walk_reduce (p : Place α) (steps : List (Step α)) :
    p.walk (reduce steps).steps = p.walk steps := by
  induction steps using List.reverseRecOn with
  | nil => rfl
  | append_singleton steps s ih =>
    have hstep : reduce (steps ++ [s]) = (reduce steps).go s := Place.walk_append _ _ _
    rw [hstep, Place.walk_append, ← ih, Place.walk_cons, Place.walk_nil]
    have hroot := reduce_rooted steps
    generalize reduce steps = q at hroot
    cases s with
    | down n =>
      have hsteps : (q.go (.down n)).steps = q.steps ++ [.down n] := by
        simp [Place.steps, Place.go]
      rw [hsteps, Place.walk_append]
      rfl
    | up =>
      rcases List.eq_nil_or_concat' q.names with hnames | ⟨init, n, hnames⟩
      · have hsteps : (q.go .up).steps = q.steps ++ [.up] := by
          simp [Place.steps, Place.go, hnames, hroot, List.replicate_succ']
        rw [hsteps, Place.walk_append]
        rfl
      · have hsteps : q.steps = (q.go .up).steps ++ [.down n] := by
          simp [Place.steps, Place.go, hnames]
        rw [hsteps, Place.walk_append, Place.walk_cons, Place.walk_nil, Place.go_down_up]

/-! ## Staying inside -/

/-- No prefix of the steps leads above the place where they begin. -/
def Stays (steps : List (Step α)) : Prop := ∀ pre, pre <+: steps → (reduce pre).ups = 0

/-! ## Counting steps -/

def Step.isUp : Step α → Bool
  | .up => true
  | .down _ => false

/-- How many steps lead up. -/
def ups (steps : List (Step α)) : Nat := steps.countP Step.isUp

/-- How many steps lead down. -/
def downs (steps : List (Step α)) : Nat := steps.countP fun s => !s.isUp

@[simp] theorem ups_append_down (steps : List (Step α)) (name : α) :
    ups (steps ++ [.down name]) = ups steps :=
  List.countP_append

@[simp] theorem ups_append_up (steps : List (Step α)) : ups (steps ++ [.up]) = ups steps + 1 :=
  List.countP_append

@[simp] theorem downs_append_down (steps : List (Step α)) (name : α) :
    downs (steps ++ [.down name]) = downs steps + 1 :=
  List.countP_append

@[simp] theorem downs_append_up (steps : List (Step α)) : downs (steps ++ [.up]) = downs steps :=
  List.countP_append

/-- In no prefix do the steps up outnumber those down. -/
def Ballot (steps : List (Step α)) : Prop := ∀ pre, pre <+: steps → ups pre ≤ downs pre

theorem Stays.of_prefix {steps pre : List (Step α)} (h : Stays steps) (hpre : pre <+: steps) :
    Stays pre :=
  fun pre' hpre' => h pre' (hpre'.trans hpre)

theorem reduce_append_singleton (steps : List (Step α)) (s : Step α) :
    reduce (steps ++ [s]) = (reduce steps).go s :=
  Place.walk_append _ _ _

/-- Inside, every step down is a name or was undone by a step up. -/
theorem Stays.length_names {steps : List (Step α)} (h : Stays steps) :
    (reduce steps).names.length + ups steps = downs steps := by
  induction steps using List.reverseRecOn with
  | nil => rfl
  | append_singleton steps s ih =>
    have hsteps := ih (h.of_prefix (List.prefix_append _ _))
    have hups := h _ List.prefix_rfl
    rw [reduce_append_singleton] at hups ⊢
    cases s with
    | down name =>
      simp only [Place.go, List.length_append, List.length_singleton, ups_append_down,
        downs_append_down]
      omega
    | up =>
      rw [ups_append_up, downs_append_up]
      simp only [Place.go, reduce_rooted] at hups ⊢
      split at hups
      · cases hups
      · next hnames =>
        rw [if_neg hnames, List.length_dropLast]
        have hpos := List.length_pos_iff.2 (mt List.isEmpty_iff.2 hnames)
        omega

/-- **Steps stay inside** exactly if they win the ballot. -/
theorem stays_iff {steps : List (Step α)} : Stays steps ↔ Ballot steps := by
  constructor
  · intro h pre hpre
    have hnames := (h.of_prefix hpre).length_names
    omega
  · intro h
    induction steps using List.reverseRecOn with
    | nil =>
      intro pre hpre
      rw [List.prefix_nil.1 hpre]
      rfl
    | append_singleton steps s ih =>
      have hsteps : Stays steps := ih fun pre hpre => h pre (hpre.trans (List.prefix_append _ _))
      intro pre hpre
      rcases List.prefix_concat_iff.1 hpre with rfl | hpre
      · have hups := hsteps _ List.prefix_rfl
        rw [reduce_append_singleton]
        cases s with
        | down name => exact hups
        | up =>
          have hlast := h _ List.prefix_rfl
          have hnames := hsteps.length_names
          rw [ups_append_up, downs_append_up] at hlast
          have hpos : 0 < (reduce steps).names.length := by omega
          have hne : ¬ (reduce steps).names.isEmpty = true :=
            mt List.isEmpty_iff.1 (List.length_pos_iff.1 hpos)
          simp only [Place.go, hne]
          exact hups
      · exact hsteps pre hpre

end Netpull.Lexical
