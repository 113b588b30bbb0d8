import Mathlib.Data.List.Infix

/-!
# Frames

Values written one after the other, each as a frame, and a reader that takes frames off a source. A
source has states `σ`, of which `text` is what can still be read. The reader is `Exact` if it takes
exactly one frame where there is a whole one, and fails where there is only a part of one. Reading a
text that was cut anywhere then gives exactly the values whose frames are whole (`calls_prefix`).
-/

namespace Netpull.Framing

variable {α σ M : Type*}

/-- The reader takes off exactly one whole frame, if there is one, and otherwise everything. -/
structure Exact (encode : M → List α) (text : σ → List α) (Ok : σ → Prop) (Fits : M → Prop)
    (next : σ → Option M × σ) : Prop where
  whole : ∀ s m rest, Ok s → Fits m → text s = encode m ++ rest →
    (next s).1 = some m ∧ text (next s).2 = rest ∧ Ok (next s).2
  part : ∀ s m, Ok s → Fits m → text s <+: encode m → text s ≠ encode m →
    (next s).1 = none ∧ text (next s).2 = [] ∧ Ok (next s).2
  empty : ∀ s, Ok s → text s = [] → (next s).1 = none ∧ text (next s).2 = [] ∧ Ok (next s).2

/-- What `n` calls of the reader return. -/
def calls (next : σ → Option M × σ) : Nat → σ → List (Option M) × σ
  | 0, s => ([], s)
  | n + 1, s => ((next s).1 :: (calls next n (next s).2).1, (calls next n (next s).2).2)

variable {encode : M → List α} {text : σ → List α} {Ok : σ → Prop} {Fits : M → Prop}
  {next : σ → Option M × σ}

/-- At the end of the text all further calls fail. -/
theorem calls_empty (hexact : Exact encode text Ok Fits next) (n : Nat) {s : σ} (hok : Ok s)
    (hs : text s = []) : (calls next n s).1 = List.replicate n none := by
  induction n generalizing s with
  | zero => rfl
  | succ n ih =>
    obtain ⟨hfail, htext, hok'⟩ := hexact.empty s hok hs
    rw [calls, hfail, ih hok' htext, List.replicate_succ]

/-- A call that fails and leaves nothing is followed by failing calls only. -/
theorem calls_failed (hexact : Exact encode text Ok Fits next) (n : Nat) {s : σ}
    (h : (next s).1 = none ∧ text (next s).2 = [] ∧ Ok (next s).2) :
    (calls next n s).1 = List.replicate n none := by
  cases n with
  | zero => rfl
  | succ n => rw [calls, h.1, calls_empty hexact n h.2.2 h.2.1, List.replicate_succ]

/-- The first `k` values are those whose frames are whole in the text `p`. -/
def Whole (encode : M → List α) (ms : List M) (p : List α) (k : Nat) : Prop :=
  k ≤ ms.length ∧ ∀ j ≤ ms.length, (ms.take j).flatMap encode <+: p ↔ j ≤ k

theorem whole_zero {ms : List M} {m : M} {p : List α} (h : p <+: encode m) (hne : p ≠ encode m) :
    Whole encode (m :: ms) p 0 := by
  refine ⟨Nat.zero_le _, fun j _ => ?_⟩
  cases j with
  | zero => simp
  | succ j =>
    simp only [List.take_succ_cons, List.flatMap_cons]
    constructor
    · intro hpre
      exact absurd (h.eq_of_length_le ((List.prefix_append _ _).trans hpre).length_le) hne
    · intro hj
      omega

theorem whole_succ {ms : List M} {p : List α} {k : Nat} (h : Whole encode ms p k) (m : M) :
    Whole encode (m :: ms) (encode m ++ p) (k + 1) := by
  refine ⟨Nat.succ_le_succ h.1, fun j hj => ?_⟩
  cases j with
  | zero => simp
  | succ j =>
    rw [List.take_succ_cons, List.flatMap_cons, List.prefix_append_right_inj,
      h.2 j (Nat.le_of_succ_le_succ hj)]
    omega

/-- Reading a text that was cut returns the values whose frames are whole, in their order, and then
fails; before each of them the reader stands exactly at the start of its frame. -/
theorem calls_prefix (hexact : Exact encode text Ok Fits next) {ms : List M}
    (hms : ∀ m ∈ ms, Fits m) {s : σ} (hok : Ok s) (hp : text s <+: ms.flatMap encode) :
    ∃ k, Whole encode ms (text s) k ∧
      (∀ n, (calls next n s).1 =
        ((ms.take k).take n).map some ++ List.replicate (n - k) none) ∧
      ∀ n ≤ k, text (calls next n s).2 =
        (text s).drop ((ms.take n).flatMap encode).length := by
  induction ms generalizing s with
  | nil =>
    have hnil := List.prefix_nil.1 hp
    refine ⟨0, ⟨Nat.le_refl _, fun j hj => ?_⟩, fun n => ?_, fun n hn => ?_⟩
    · simpa using hj
    · rw [calls_empty hexact n hok hnil]
      simp
    · obtain rfl := Nat.le_zero.1 hn
      rfl
  | cons m ms ih =>
    have hm := hms m List.mem_cons_self
    rw [List.flatMap_cons] at hp
    by_cases hwhole : encode m <+: text s
    · obtain ⟨p, hs⟩ := hwhole
      obtain ⟨hnext, htext, hok'⟩ := hexact.whole s m p hok hm hs.symm
      have hp' : text (next s).2 <+: ms.flatMap encode := by
        rw [htext, ← List.prefix_append_right_inj (encode m), hs]
        exact hp
      obtain ⟨k, hk, hread, hrest⟩ :=
        ih (fun m' hm' => hms m' (List.mem_cons_of_mem m hm')) hok' hp'
      rw [htext] at hk hrest
      refine ⟨k + 1, hs ▸ whole_succ hk m, fun n => ?_, fun n hn => ?_⟩
      · cases n with
        | zero => simp [calls]
        | succ n =>
          rw [calls, hnext, hread, List.take_succ_cons, List.take_succ_cons, List.map_cons,
            List.cons_append, Nat.add_sub_add_right]
      · cases n with
        | zero => simp [calls]
        | succ n =>
          rw [calls, hrest n (Nat.le_of_succ_le_succ hn), ← hs, List.take_succ_cons,
            List.flatMap_cons, List.length_append, ← List.drop_drop, List.drop_left]
    · have hpart : text s <+: encode m :=
        (List.prefix_or_prefix_of_prefix hp (List.prefix_append _ _)).resolve_right hwhole
      have hne : text s ≠ encode m := fun e => hwhole (e ▸ List.prefix_refl _)
      refine ⟨0, whole_zero hpart hne, fun n => ?_, fun n hn => ?_⟩
      · rw [calls_failed hexact n (hexact.part s m hok hm hpart hne)]
        simp
      · obtain rfl := Nat.le_zero.1 hn
        rfl

end Netpull.Framing
