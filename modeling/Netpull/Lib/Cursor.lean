import Mathlib.Data.List.GetD

/-!
# Output iterators

An iterator that writes into a buffer of a fixed size. A write needs a position inside the buffer;
stepping over a position needs none. `Advances f n` says how far such an iterator gets: `f` takes it
on by `n`, and finds no obstacle if `n` positions are left. `Writes pad f l` says what is there then.
-/

namespace Netpull

/-- An iterator at the position `it` of a buffer. -/
structure Cursor (α : Type*) where
  buffer : List α
  it : Nat
deriving DecidableEq, Repr

namespace Cursor

variable {α : Type*}

/-- `*it++ = a`. -/
def put (a : α) (c : Cursor α) : Option (Cursor α) :=
  if c.it < c.buffer.length then some ⟨c.buffer.set c.it a, c.it + 1⟩ else none

/-- `it += n`. -/
def skip (n : Nat) (c : Cursor α) : Cursor α := { c with it := c.it + n }

/-- `it = std::copy(l.begin(), l.end(), it)`. -/
def copy (l : List α) (c : Cursor α) : Option (Cursor α) := l.foldlM (fun c a => put a c) c

/-- Going on from a cursor, `f` takes it on by `n` positions. -/
structure Advances (f : Cursor α → Option (Cursor α)) (n : Nat) : Prop where
  exists_of_le : ∀ c, c.it + n ≤ c.buffer.length → ∃ c', f c = some c'
  it_eq : ∀ c c', f c = some c' → c'.it = c.it + n
  length_eq : ∀ c c', f c = some c' → c'.buffer.length = c.buffer.length

theorem put_eq_some_iff {a : α} {c c' : Cursor α} :
    put a c = some c' ↔ c.it < c.buffer.length ∧ c' = ⟨c.buffer.set c.it a, c.it + 1⟩ := by
  unfold put
  split
  · next h => simp [h, eq_comm]
  · next h => simp [h]

theorem advances_put (a : α) : Advances (put a) 1 where
  exists_of_le c h := ⟨_, put_eq_some_iff.2 ⟨h, rfl⟩⟩
  it_eq c c' h := by rw [(put_eq_some_iff.1 h).2]
  length_eq c c' h := by rw [(put_eq_some_iff.1 h).2, List.length_set]

theorem advances_skip (n : Nat) : Advances (fun c : Cursor α => some (skip n c)) n where
  exists_of_le c _ := ⟨skip n c, rfl⟩
  it_eq _ _ h := by rw [← Option.some.inj h, skip]
  length_eq _ _ h := by rw [← Option.some.inj h, skip]

theorem Advances.bind {f g : Cursor α → Option (Cursor α)} {m n : Nat} (hf : Advances f m)
    (hg : Advances g n) : Advances (fun c => f c >>= g) (m + n) where
  exists_of_le c h := by
    obtain ⟨c₁, hc₁⟩ := hf.exists_of_le c (by omega)
    have hit := hf.it_eq c c₁ hc₁
    have hlen := hf.length_eq c c₁ hc₁
    obtain ⟨c₂, hc₂⟩ := hg.exists_of_le c₁ (by omega)
    exact ⟨c₂, by rw [hc₁]; exact hc₂⟩
  it_eq c c' h := by
    obtain ⟨c₁, hc₁, hc₂⟩ := Option.bind_eq_some_iff.1 h
    rw [hg.it_eq c₁ c' hc₂, hf.it_eq c c₁ hc₁, Nat.add_assoc]
  length_eq c c' h := by
    obtain ⟨c₁, hc₁, hc₂⟩ := Option.bind_eq_some_iff.1 h
    rw [hg.length_eq c₁ c' hc₂, hf.length_eq c c₁ hc₁]

theorem advances_id : Advances (some : Cursor α → Option (Cursor α)) 0 where
  exists_of_le c _ := ⟨c, rfl⟩
  it_eq c _ h := by rw [← Option.some.inj h, Nat.add_zero]
  length_eq _ _ h := by rw [Option.some.inj h]

/-- A loop whose trips write one position each. -/
theorem advances_foldlM {β : Type*} {f : β → Cursor α → Option (Cursor α)}
    (hf : ∀ b, Advances (f b) 1) (l : List β) :
    Advances (fun c => l.foldlM (fun c b => f b c) c) l.length := by
  induction l with
  | nil => exact advances_id
  | cons b l ih =>
    rw [List.length_cons, Nat.add_comm]
    exact (hf b).bind ih

theorem advances_copy (l : List α) : Advances (copy l) l.length := advances_foldlM advances_put l

/-- What `f` ends with is a position inside the buffer, or its end. -/
def Ends (f : Cursor α → Option (Cursor α)) : Prop :=
  ∀ c c', f c = some c' → c'.it ≤ c'.buffer.length

theorem ends_put (a : α) : Ends (put a) := by
  intro c c' h
  obtain ⟨hlt, rfl⟩ := put_eq_some_iff.1 h
  exact Nat.lt_of_lt_of_eq hlt List.length_set.symm

theorem Ends.bind {g : Cursor α → Option (Cursor α)} (hg : Ends g)
    (f : Cursor α → Option (Cursor α)) : Ends fun c => f c >>= g := by
  intro c c' h
  obtain ⟨c₁, _, hc'⟩ := Option.bind_eq_some_iff.1 h
  exact hg c₁ c' hc'

/-- What ends with a write finds no obstacle exactly where the buffer is long enough. -/
theorem Advances.exists_iff {f : Cursor α → Option (Cursor α)} {n : Nat} (hf : Advances f n)
    (hends : Ends f) (c : Cursor α) : (∃ c', f c = some c') ↔ c.it + n ≤ c.buffer.length := by
  constructor
  · rintro ⟨c', hc'⟩
    have hle := hends c c' hc'
    rwa [hf.it_eq c c' hc', hf.length_eq c c' hc'] at hle
  · exact hf.exists_of_le c

/-! ## What is written -/

/-- A buffer with `out` at its front. A position that was stepped over shows the padding that the
buffer was filled with. -/
structure Shows (pad : α) (out : List α) (c : Cursor α) : Prop where
  it_eq : c.it = out.length
  getElem?_eq : ∀ i, i < c.buffer.length → c.buffer[i]? = some (out.getD i pad)

/-- Going on from a cursor, `f` writes `l`. -/
def Writes (pad : α) (f : Cursor α → Option (Cursor α)) (l : List α) : Prop :=
  ∀ out c c', Shows pad out c → f c = some c' → Shows pad (out ++ l) c'

variable {pad : α}

theorem shows_replicate (pad : α) (n : Nat) : Shows pad [] ⟨List.replicate n pad, 0⟩ where
  it_eq := rfl
  getElem?_eq i hi := by
    rw [List.length_replicate] at hi
    rw [List.getElem?_replicate, if_pos hi]
    rfl

theorem Shows.take_eq {out : List α} {c : Cursor α} (h : Shows pad out c)
    (hle : c.it ≤ c.buffer.length) : c.buffer.take c.it = out := by
  refine List.ext_getElem? fun i => ?_
  rw [List.getElem?_take, h.it_eq]
  by_cases hi : i < out.length
  · have hbuffer : i < c.buffer.length := Nat.lt_of_lt_of_le (h.it_eq ▸ hi) hle
    rw [if_pos hi, h.getElem?_eq i hbuffer, List.getD_eq_getElem?_getD,
      List.getElem?_eq_getElem hi, Option.getD_some]
  · rw [if_neg hi, List.getElem?_eq_none (Nat.le_of_not_lt hi)]

theorem writes_put (a : α) : Writes pad (put a) [a] := by
  intro out c c' h hc
  obtain ⟨hlt, rfl⟩ := put_eq_some_iff.1 hc
  refine ⟨by rw [h.it_eq, List.length_append, List.length_singleton], fun i hi => ?_⟩
  rw [List.length_set] at hi
  by_cases hnew : c.it = i
  · subst hnew
    rw [List.getElem?_set_self hlt, h.it_eq, List.getD_append_right _ _ _ _ (Nat.le_refl _),
      Nat.sub_self]
    rfl
  · rw [List.getElem?_set_ne hnew, h.getElem?_eq i hi]
    rw [h.it_eq] at hnew
    by_cases hold : i < out.length
    · rw [List.getD_append _ _ _ _ hold]
    · rw [List.getD_append_right _ _ _ _ (by omega), List.getD_eq_default _ _ (by omega),
        List.getD_eq_default _ _ (by rw [List.length_singleton]; omega)]

theorem writes_skip (n : Nat) :
    Writes pad (fun c => some (skip n c)) (List.replicate n pad) := by
  intro out c c' h hc
  obtain rfl := Option.some.inj hc
  refine ⟨by rw [skip, h.it_eq, List.length_append, List.length_replicate], fun i hi => ?_⟩
  rw [skip] at hi ⊢
  rw [h.getElem?_eq i hi]
  by_cases hold : i < out.length
  · rw [List.getD_append _ _ _ _ hold]
  · rw [List.getD_append_right _ _ _ _ (by omega), List.getD_eq_default _ _ (by omega)]
    rw [List.getD_eq_getElem?_getD, List.getElem?_replicate]
    split <;> rfl

theorem Writes.bind {f g : Cursor α → Option (Cursor α)} {l l' : List α} (hf : Writes pad f l)
    (hg : Writes pad g l') : Writes pad (fun c => f c >>= g) (l ++ l') := by
  intro out c c' h hc
  obtain ⟨c₁, hc₁, hc'⟩ := Option.bind_eq_some_iff.1 hc
  rw [← List.append_assoc]
  exact hg (out ++ l) c₁ c' (hf out c c₁ h hc₁) hc'

theorem writes_id : Writes pad some [] := by
  intro out c c' h hc
  obtain rfl := Option.some.inj hc
  rwa [List.append_nil]

/-- A loop whose trips write one position each. -/
theorem writes_foldlM {β : Type*} {f : β → Cursor α → Option (Cursor α)} {a : β → α}
    (hf : ∀ b, Writes pad (f b) [a b]) (l : List β) :
    Writes pad (fun c => l.foldlM (fun c b => f b c) c) (l.map a) := by
  induction l with
  | nil => exact writes_id
  | cons b l ih => exact (hf b).bind ih

theorem writes_copy (l : List α) : Writes pad (copy l) l := by
  have hput : ∀ b : α, Writes pad (put b) [id b] := writes_put
  have h := writes_foldlM hput l
  rwa [List.map_id] at h

end Cursor

end Netpull
