import Mathlib.Data.List.Basic

/-!
# Lists of names written with a separator

A list of names over an arbitrary alphabet is written in two ways: `spell sep ns` puts the
separator in front of every name (`/a/b`), `List.intercalate` puts it between them (`a/b`).
`spell` is a homomorphism for append, so statements about prefixes and remainders of written
names are proved for it, and carried to the other form by `spell_cons_eq`. Names without the
separator are read back by `List.splitOn`.
-/

namespace Netpull.Separated

variable {α : Type*} {sep : α}

/-- The names one after the other, each with the separator in front. -/
def spell (sep : α) (ns : List (List α)) : List α :=
  ns.flatMap (sep :: ·)

@[simp] theorem spell_nil : spell sep ([] : List (List α)) = [] := rfl

@[simp] theorem spell_cons (n : List α) (ns : List (List α)) :
    spell sep (n :: ns) = sep :: (n ++ spell sep ns) := rfl

theorem spell_append (ns ms : List (List α)) :
    spell sep (ns ++ ms) = spell sep ns ++ spell sep ms :=
  List.flatMap_append

/-- A non-empty list of names spells a separator followed by its other written form. -/
theorem spell_cons_eq (n : List α) (ns : List (List α)) :
    spell sep (n :: ns) = sep :: [sep].intercalate (n :: ns) := by
  induction ns generalizing n with
  | nil => simp
  | cons m ms ih =>
    rw [List.intercalate_cons_cons, spell_cons, ih m]
    simp

theorem spell_eq {ns : List (List α)} (h : ns ≠ []) :
    spell sep ns = sep :: [sep].intercalate ns := by
  obtain ⟨n, ms, rfl⟩ := List.exists_cons_of_ne_nil h
  exact spell_cons_eq n ms

theorem tail_spell (ns : List (List α)) : (spell sep ns).tail = [sep].intercalate ns := by
  cases ns with
  | nil => rfl
  | cons n ns => rw [spell_cons_eq, List.tail_cons]

theorem spell_ne_nil {ns : List (List α)} (h : ns ≠ []) : spell sep ns ≠ [] := by
  rw [spell_eq h]
  exact List.cons_ne_nil _ _

/-- What follows a written list of names and one more separator is the rest, written without a
leading separator. -/
theorem drop_spell_append (ns ms : List (List α)) :
    (spell sep (ns ++ ms)).drop ((spell sep ns).length + 1) = [sep].intercalate ms := by
  rw [spell_append, ← List.drop_drop, List.drop_left, List.drop_one, tail_spell]

theorem intercalate_cons_append (b : α) (n : List α) (ns : List (List α)) (sep : List α) :
    sep.intercalate ((b :: n) :: ns) = b :: sep.intercalate (n :: ns) := by
  cases ns with
  | nil => rw [List.intercalate_singleton, List.intercalate_singleton]
  | cons m ns =>
    rw [List.intercalate_cons_cons, List.intercalate_cons_cons, List.cons_append, List.cons_append]

/-- A separator of two elements is the first of them, with the second before each part but the
first. -/
theorem intercalate_pair (a b : α) (n : List α) (ns : List (List α)) :
    [a, b].intercalate (n :: ns) = [a].intercalate (n :: ns.map (b :: ·)) := by
  induction ns generalizing n with
  | nil => rw [List.map_nil, List.intercalate_singleton, List.intercalate_singleton]
  | cons m ns ih =>
    rw [List.map_cons, List.intercalate_cons_cons, List.intercalate_cons_cons, ih m,
      intercalate_cons_append, List.append_assoc, List.append_assoc]
    rfl

section Split

variable [BEq α] [LawfulBEq α]

/-- No piece of a split contains the separator. -/
theorem not_mem_of_mem_splitOn {s p : List α} (h : p ∈ s.splitOn sep) : sep ∉ p := by
  induction s generalizing p with
  | nil =>
    rw [List.splitOn_nil, List.mem_singleton] at h
    simp [h]
  | cons x xs ih =>
    rw [List.splitOn_cons_eq_if_modifyHead] at h
    split at h
    · rcases List.mem_cons.1 h with rfl | h
      · simp
      · exact ih h
    · next hx =>
      obtain ⟨q, qs, hq⟩ := List.exists_cons_of_ne_nil (List.splitOn_ne_nil sep xs)
      rw [hq] at ih h
      rw [List.modifyHead_cons] at h
      rcases List.mem_cons.1 h with rfl | h
      · have hne : sep ≠ x := fun e => hx (by simp [e])
        simp [hne, ih List.mem_cons_self]
      · exact ih (List.mem_cons_of_mem _ h)

/-- Splitting two texts with a separator between them splits each. -/
theorem splitOn_append_cons (s t : List α) :
    (s ++ sep :: t).splitOn sep = s.splitOn sep ++ t.splitOn sep := by
  induction s with
  | nil => simp [List.splitOn_cons_eq_if_modifyHead]
  | cons x xs ih =>
    rw [List.cons_append, List.splitOn_cons_eq_if_modifyHead,
      List.splitOn_cons_eq_if_modifyHead, ih]
    split
    · rfl
    · obtain ⟨p, ps, hp⟩ := List.exists_cons_of_ne_nil (List.splitOn_ne_nil sep xs)
      rw [hp]
      rfl

/-- Any text after a separator is the spelling of the pieces it splits into. -/
theorem spell_splitOn (s : List α) : spell sep (s.splitOn sep) = sep :: s := by
  rw [spell_eq (List.splitOn_ne_nil sep s), List.intercalate_splitOn]

theorem subset_of_mem_splitOn {s p : List α} (h : p ∈ s.splitOn sep) : p ⊆ s := by
  intro x hx
  have hspell : x ∈ spell sep (s.splitOn sep) :=
    List.mem_flatMap.2 ⟨p, h, List.mem_cons_of_mem sep hx⟩
  rw [spell_splitOn] at hspell
  rcases List.mem_cons.1 hspell with rfl | hs
  · exact absurd hx (not_mem_of_mem_splitOn h)
  · exact hs

theorem splitOn_tail_spell {ns : List (List α)} (hne : ns ≠ []) (hns : ∀ n ∈ ns, sep ∉ n) :
    (spell sep ns).tail.splitOn sep = ns := by
  rw [tail_spell, List.splitOn_intercalate sep hns hne]

/-- Names without the separator are determined by their spelling. -/
theorem spell_injective {ns ms : List (List α)} (hns : ∀ n ∈ ns, sep ∉ n)
    (hms : ∀ m ∈ ms, sep ∉ m) (h : spell sep ns = spell sep ms) : ns = ms := by
  by_cases h1 : ns = []
  · subst h1
    by_contra h2
    exact spell_ne_nil (Ne.symm h2) h.symm
  · by_cases h2 : ms = []
    · subst h2
      exact absurd h (spell_ne_nil h1)
    · rw [← splitOn_tail_spell h1 hns, h, splitOn_tail_spell h2 hms]

theorem intercalate_injective {ns ms : List (List α)} (h1 : ns ≠ []) (h2 : ms ≠ [])
    (hns : ∀ n ∈ ns, sep ∉ n) (hms : ∀ m ∈ ms, sep ∉ m)
    (h : [sep].intercalate ns = [sep].intercalate ms) : ns = ms :=
  spell_injective hns hms (by rw [spell_eq h1, spell_eq h2, h])

/-- What is written in front of a text without the separator belongs to its first piece. -/
theorem splitOn_append_left {pre s p : List α} {ps : List (List α)} (hpre : sep ∉ pre)
    (h : s.splitOn sep = p :: ps) : (pre ++ s).splitOn sep = (pre ++ p) :: ps := by
  have hmem : ∀ q ∈ p :: ps, sep ∉ q := by
    intro q hq
    rw [← h] at hq
    exact not_mem_of_mem_splitOn hq
  have hs : s = [sep].intercalate (p :: ps) := by rw [← h, List.intercalate_splitOn]
  have happend : pre ++ s = [sep].intercalate ((pre ++ p) :: ps) := by
    rw [hs]
    cases ps <;> simp
  rw [happend, List.splitOn_intercalate sep _ (List.cons_ne_nil _ _)]
  intro q hq
  rcases List.mem_cons.1 hq with rfl | hq
  · rw [List.mem_append, not_or]
    exact ⟨hpre, hmem p List.mem_cons_self⟩
  · exact hmem q (List.mem_cons_of_mem p hq)

/-- What is written behind a text without the separator belongs to its last piece. -/
theorem splitOn_append_right {post s p : List α} {ps : List (List α)} (hpost : sep ∉ post)
    (h : s.splitOn sep = ps ++ [p]) : (s ++ post).splitOn sep = ps ++ [p ++ post] := by
  have hmem : ∀ q ∈ ps ++ [p], sep ∉ q := by
    intro q hq
    rw [← h] at hq
    exact not_mem_of_mem_splitOn hq
  have hs : s = [sep].intercalate (ps ++ [p]) := by rw [← h, List.intercalate_splitOn]
  have happend : s ++ post = [sep].intercalate (ps ++ [p ++ post]) := by
    rw [hs, ← tail_spell, ← tail_spell, spell_append, spell_append]
    cases ps <;> simp
  rw [happend, List.splitOn_intercalate sep _ (by simp)]
  intro q hq
  rcases List.mem_append.1 hq with hq | hq
  · exact hmem q (List.mem_append_left [p] hq)
  · rw [List.mem_singleton.1 hq, List.mem_append, not_or]
    exact ⟨hmem p (List.mem_append_right ps List.mem_cons_self), hpost⟩

theorem splitOn_append_append {pre s post p q : List α} {ps : List (List α)} (hpre : sep ∉ pre)
    (hpost : sep ∉ post) (h : s.splitOn sep = p :: (ps ++ [q])) :
    (pre ++ s ++ post).splitOn sep = (pre ++ p) :: (ps ++ [q ++ post]) := by
  have hleft : (pre ++ s).splitOn sep = (pre ++ p) :: ps ++ [q] := splitOn_append_left hpre h
  exact splitOn_append_right hpost hleft

/-- The separators of a spelling count its names. -/
theorem count_spell {ns : List (List α)} (h : ∀ n ∈ ns, sep ∉ n) :
    (spell sep ns).count sep = ns.length := by
  induction ns with
  | nil => rfl
  | cons n ns ih =>
    have hn : n.count sep = 0 := List.count_eq_zero.2 (h n List.mem_cons_self)
    rw [spell_cons, List.count_cons_self, List.count_append, hn,
      ih fun m hm => h m (List.mem_cons_of_mem n hm), List.length_cons]
    omega

theorem length_splitOn (s : List α) : (s.splitOn sep).length = s.count sep + 1 := by
  have hpieces : ∀ p ∈ s.splitOn sep, sep ∉ p := fun p hp => not_mem_of_mem_splitOn hp
  rw [← count_spell hpieces, spell_splitOn, List.count_cons_self]

end Split

end Netpull.Separated
