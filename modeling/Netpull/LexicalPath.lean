import Netpull.Lib.Lexical
import Netpull.Server.Path

/-!
# Paths as steps

What a path string says, without a look at any file system: its steps, and the place they lead to.
-/

namespace Netpull

open Lexical Separated

/-- The steps a path stands for. -/
def lexicalSteps (p : Bytes) : List (Step Bytes) :=
  (components p).map fun n => if n = text ".." then .up else .down n

/-- The place a path names, with `.` and `..` resolved lexically. -/
def lexicalPlace (p : Bytes) : Place Bytes := (Place.origin (isAbsolute p)).walk (lexicalSteps p)

theorem lexicalSteps_append (p q : Bytes) :
    lexicalSteps (p ++ slash :: q) = lexicalSteps p ++ lexicalSteps q := by
  rw [lexicalSteps, components_append, List.map_append]
  rfl

theorem isAbsolute_append {p : Bytes} (h : p ≠ []) (q : Bytes) :
    isAbsolute (p ++ q) = isAbsolute p := by
  obtain ⟨b, p, rfl⟩ := List.exists_cons_of_ne_nil h
  rfl

/-- What follows a slash is resolved from the place before it. -/
theorem lexicalPlace_append {p : Bytes} (h : p ≠ []) (q : Bytes) :
    lexicalPlace (p ++ slash :: q) = (lexicalPlace p).walk (lexicalSteps q) := by
  rw [lexicalPlace, isAbsolute_append h, lexicalSteps_append, Place.walk_append]
  rfl

theorem components_slash (p : Bytes) : components (slash :: p) = components p :=
  components_append [] p

theorem lexicalPlace_spell {ns : List Bytes} (hne : ns ≠ []) (h : ∀ n ∈ ns, ProperName n) :
    lexicalPlace (spell slash ns) = ⟨true, 0, ns⟩ := by
  have hsteps : lexicalSteps (spell slash ns) = ns.map .down := by
    rw [lexicalSteps, components_spell h]
    apply List.map_congr_left
    intro n hn
    rw [if_neg (h n hn).ne_dotdot]
  rw [lexicalPlace, isAbsolute_spell hne, hsteps, Place.walk_down]
  rfl

/-! ## C strings -/

theorem cstr_append {p : Bytes} (h : 0 ∉ p) (q : Bytes) : cstr (p ++ q) = p ++ cstr q := by
  unfold cstr
  apply List.takeWhile_append_of_pos
  intro b hb
  have hne : b ≠ 0 := fun e => h (e ▸ hb)
  simpa using hne

theorem cstr_append_of_mem {p : Bytes} (h : 0 ∈ p) (q : Bytes) : cstr (p ++ q) = cstr p := by
  induction p with
  | nil => cases h
  | cons b p ih =>
    by_cases hb : b = 0
    · simp [cstr, hb]
    · have hmem : 0 ∈ p := by simpa [Ne.symm hb] using h
      have hcons : ∀ r, cstr (b :: r) = b :: cstr r :=
        fun r => List.takeWhile_cons_of_pos (by simpa using hb)
      rw [List.cons_append, hcons, hcons, ih hmem]

/-- A slash at the end of a path adds no component. -/
theorem components_cstr_slash (p : Bytes) :
    components (cstr (p ++ [slash])) = components (cstr p) := by
  by_cases h : 0 ∈ p
  · rw [cstr_append_of_mem h]
  · rw [cstr_append h, cstr_eq_self h]
    have hslash : cstr [slash] = [slash] := rfl
    rw [hslash, components_append]
    exact List.append_nil _

theorem isAbsolute_cstr (p : Bytes) : isAbsolute (cstr p) = isAbsolute p := by
  cases p with
  | nil => rfl
  | cons b p =>
    by_cases hb : b = 0
    · subst hb
      rfl
    · have hcons : cstr (b :: p) = b :: cstr p :=
        List.takeWhile_cons_of_pos (by simpa using hb)
      rw [hcons]
      rfl

/-! ## Paths that stay inside -/

/-- A path that is relative, and of which no prefix leads above the place where it begins. -/
def StaysInside (p : Bytes) : Prop := isAbsolute p = false ∧ Stays (lexicalSteps p)

/-- In no prefix of its components has the path more `..` than others. -/
def NeverAbove (p : Bytes) : Prop :=
  ∀ pre, pre <+: components p → pre.count (text "..") ≤ pre.countP (· ≠ text "..")

theorem stays_lexicalSteps (p : Bytes) : Stays (lexicalSteps p) ↔ NeverAbove p := by
  have hups : ∀ ns : List Bytes,
      ups (ns.map fun n => if n = text ".." then Step.up else .down n) = ns.count (text "..") := by
    intro ns
    rw [ups, List.countP_map, List.count]
    apply List.countP_congr
    intro n _
    by_cases h : n = text ".." <;> simp [h, Step.isUp]
  have hdowns : ∀ ns : List Bytes,
      downs (ns.map fun n => if n = text ".." then Step.up else .down n) =
        ns.countP (· ≠ text "..") := by
    intro ns
    rw [downs, List.countP_map]
    apply List.countP_congr
    intro n _
    by_cases h : n = text ".." <;> simp [h, Step.isUp]
  rw [stays_iff]
  constructor
  · intro h pre hpre
    rw [← hups, ← hdowns]
    exact h _ (hpre.map _)
  · intro h pre hpre
    obtain ⟨ns, hns, rfl⟩ := List.prefix_map_iff.1 hpre
    rw [hups, hdowns]
    exact h ns hns

end Netpull
