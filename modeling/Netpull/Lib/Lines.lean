import Mathlib.Data.List.DropRight

/-!
# Text as lines

`lines eol t` is what repeated `std::getline` calls return: every line is taken without its end, and
an unfinished last line counts if it is not empty. `unlines` writes lines with their ends. What
follows the last end of a line is `unfinished`; cutting a text leaves its lines as they were but for
the unfinished one (`mem_lines_prefix`).
-/

namespace Netpull.Lines

variable {α : Type*} [DecidableEq α] {eol : α}

/-- The lines of a text. -/
def lines (eol : α) : List α → List (List α)
  | [] => []
  | b :: bs =>
    if b = eol then [] :: lines eol bs
    else match lines eol bs with
      | [] => [[b]]
      | l :: ls => (b :: l) :: ls

/-- Lines written out, each with its end. -/
def unlines (eol : α) (ls : List (List α)) : List α :=
  ls.flatMap (· ++ [eol])

omit [DecidableEq α] in
@[simp] theorem unlines_nil : unlines eol [] = [] := rfl

omit [DecidableEq α] in
@[simp] theorem unlines_cons (l : List α) (ls : List (List α)) :
    unlines eol (l :: ls) = l ++ eol :: unlines eol ls := by
  simp [unlines]

omit [DecidableEq α] in
theorem unlines_append (ls ms : List (List α)) :
    unlines eol (ls ++ ms) = unlines eol ls ++ unlines eol ms :=
  List.flatMap_append

/-- `std::getline` on the rest of a text: the next line and what follows it. -/
def getline (eol : α) (t : List α) : Option (List α × List α) :=
  if t = [] then none else some (t.takeWhile (· ≠ eol), (t.dropWhile (· ≠ eol)).tail)

/-- The lines of a text are what `getline` returns until it fails. -/
theorem lines_eq_getline (t : List α) :
    lines eol t = match getline eol t with
      | none => []
      | some (l, rest) => l :: lines eol rest := by
  induction t with
  | nil => rfl
  | cons b bs ih =>
    rw [lines]
    by_cases hb : b = eol
    · simp [getline, hb]
    · rw [if_neg hb, ih]
      cases bs with
      | nil => simp [getline, hb, lines]
      | cons c cs => simp [getline, hb]

theorem lines_line {l : List α} (h : eol ∉ l) (t : List α) :
    lines eol (l ++ eol :: t) = l :: lines eol t := by
  induction l with
  | nil => simp [lines]
  | cons b l ih =>
    have hb : b ≠ eol := fun e => h (by simp [e])
    rw [List.cons_append, lines, if_neg hb, ih fun hl => h (List.mem_cons_of_mem b hl)]

theorem lines_tail {l : List α} (h : eol ∉ l) : lines eol l = if l = [] then [] else [l] := by
  induction l with
  | nil => rfl
  | cons b l ih =>
    have hb : b ≠ eol := fun e => h (by simp [e])
    rw [lines, if_neg hb, ih fun hl => h (List.mem_cons_of_mem b hl)]
    by_cases hl : l = [] <;> simp [hl]

/-- Finished lines read back as they were written, whatever follows them. -/
theorem lines_unlines {ls : List (List α)} (h : ∀ l ∈ ls, eol ∉ l) (t : List α) :
    lines eol (unlines eol ls ++ t) = ls ++ lines eol t := by
  induction ls with
  | nil => rfl
  | cons l ls ih =>
    rw [unlines_cons, List.append_assoc, List.cons_append, lines_line (h l List.mem_cons_self),
      ih fun m hm => h m (List.mem_cons_of_mem l hm), List.cons_append]

theorem not_mem_of_mem_lines {t l : List α} (h : l ∈ lines eol t) : eol ∉ l := by
  induction t generalizing l with
  | nil => cases h
  | cons b bs ih =>
    rw [lines] at h
    split at h
    · rcases List.mem_cons.1 h with rfl | h
      · exact List.not_mem_nil
      · exact ih h
    · next hb =>
      have hne : eol ≠ b := fun e => hb e.symm
      cases hlines : lines eol bs with
      | nil =>
        rw [hlines, List.mem_singleton] at h
        simp [h, hne]
      | cons m ms =>
        rw [hlines] at h ih
        rcases List.mem_cons.1 h with rfl | h
        · simp [hne, ih List.mem_cons_self]
        · exact ih (List.mem_cons_of_mem m h)

/-! ## The unfinished line -/

/-- What follows the last end of a line. -/
def unfinished (eol : α) (t : List α) : List α := t.rtakeWhile (· ≠ eol)

theorem not_mem_unfinished (t : List α) : eol ∉ unfinished eol t := by
  intro h
  simpa using List.mem_rtakeWhile_imp h

@[simp] theorem unfinished_line (t : List α) : unfinished eol (t ++ [eol]) = [] :=
  List.rtakeWhile_concat_neg _ _ _ (by simp)

theorem unfinished_append {s : List α} (h : unfinished eol s = []) (t : List α) :
    unfinished eol (s ++ t) = unfinished eol t := by
  unfold unfinished at h ⊢
  induction t using List.reverseRecOn with
  | nil => rw [List.append_nil, h, List.rtakeWhile_nil]
  | append_singleton t b ih =>
    rw [← List.append_assoc, List.rtakeWhile_concat, List.rtakeWhile_concat, ih]

/-- A text without an unfinished line is a list of lines. -/
theorem exists_unlines (eol : α) (t : List α) :
    ∃ ls, (∀ l ∈ ls, eol ∉ l) ∧ t = unlines eol ls ++ unfinished eol t := by
  induction t using List.reverseRecOn with
  | nil => exact ⟨[], by simp, rfl⟩
  | append_singleton t b ih =>
    obtain ⟨ls, hls, ht⟩ := ih
    unfold unfinished at ht ⊢
    by_cases hb : b = eol
    · refine ⟨ls ++ [t.rtakeWhile (· ≠ eol)], ?_, ?_⟩
      · intro l hl
        rcases List.mem_append.1 hl with hl | hl
        · exact hls l hl
        · rw [List.mem_singleton.1 hl]
          exact not_mem_unfinished t
      · rw [List.rtakeWhile_concat_neg _ _ _ (by simp [hb]), unlines_append, unlines_cons,
          unlines_nil, List.append_nil, hb, ← List.append_assoc, ← ht]
    · refine ⟨ls, hls, ?_⟩
      rw [List.rtakeWhile_concat_pos _ _ _ (by simp [hb]), ← List.append_assoc, ← ht]

theorem lines_eq (eol : α) (t : List α) :
    ∃ ls, t = unlines eol ls ++ unfinished eol t ∧ (∀ l ∈ ls, eol ∉ l) ∧
      lines eol t = ls ++ lines eol (unfinished eol t) := by
  obtain ⟨ls, hls, ht⟩ := exists_unlines eol t
  refine ⟨ls, ht, hls, ?_⟩
  rw [← lines_unlines hls, ← ht]

/-- A text that grows after a finished line keeps its lines. -/
theorem lines_append {s : List α} (h : unfinished eol s = []) (t : List α) :
    lines eol (s ++ t) = lines eol s ++ lines eol t := by
  obtain ⟨ls, hs, hls, hlines⟩ := lines_eq eol s
  rw [h, List.append_nil] at hs
  rw [hlines, h, hs, lines_unlines hls, lines, List.append_nil]

theorem lines_unfinished (t : List α) :
    lines eol (unfinished eol t) = if unfinished eol t = [] then [] else [unfinished eol t] :=
  lines_tail (not_mem_unfinished t)

theorem unfinished_mem_lines {t : List α} (h : unfinished eol t ≠ []) :
    unfinished eol t ∈ lines eol t := by
  obtain ⟨ls, -, -, hlines⟩ := lines_eq eol t
  rw [hlines, lines_unfinished, if_neg h]
  exact List.mem_append_right _ List.mem_cons_self

/-- A line of a text that was cut is a line of the whole text or the unfinished one. -/
theorem mem_lines_prefix {s t l : List α} (hst : s <+: t) (h : l ∈ lines eol s) :
    l ∈ lines eol t ∨ l = unfinished eol s := by
  obtain ⟨u, rfl⟩ := hst
  obtain ⟨ls, hs, hls, hlines⟩ := lines_eq eol s
  rw [hlines, List.mem_append] at h
  rcases h with h | h
  · left
    rw [hs, List.append_assoc, lines_unlines hls]
    exact List.mem_append_left _ h
  · right
    rw [lines_unfinished] at h
    split at h
    · cases h
    · exact List.mem_singleton.1 h

theorem exists_line_of_not_mem {l : List α} (h : eol ∉ l) (hne : l ≠ []) (t : List α) :
    ∃ m ∈ lines eol (l ++ t), l <+: m := by
  have htext : l ++ t ≠ [] := by simp [hne]
  have hline : (l ++ t).takeWhile (· ≠ eol) = l ++ t.takeWhile (· ≠ eol) := by
    apply List.takeWhile_append_of_pos
    intro b hb
    have hb' : b ≠ eol := fun e => h (e ▸ hb)
    simpa using hb'
  rw [lines_eq_getline, getline, if_neg htext, hline]
  exact ⟨_, List.mem_cons_self, List.prefix_append _ _⟩

/-- A line of a text that was cut begins a line of the whole text. -/
theorem exists_line_of_prefix {s t l : List α} (hst : s <+: t) (h : l ∈ lines eol s) :
    ∃ m ∈ lines eol t, l <+: m := by
  rcases mem_lines_prefix hst h with hl | hl
  · exact ⟨l, hl, List.prefix_refl l⟩
  · by_cases hne : l = []
    · obtain ⟨u, rfl⟩ := hst
      obtain ⟨ls, hs, hls, hlines⟩ := lines_eq eol s
      rw [hlines, lines_unfinished, ← hl, if_pos hne, List.append_nil] at h
      refine ⟨l, ?_, List.prefix_refl l⟩
      rw [hs, List.append_assoc, lines_unlines hls]
      exact List.mem_append_left _ h
    · obtain ⟨u, rfl⟩ := hst
      obtain ⟨ls, hs, hls, -⟩ := lines_eq eol s
      obtain ⟨m, hm, hlm⟩ := exists_line_of_not_mem (hl ▸ not_mem_unfinished s) hne u
      refine ⟨m, ?_, hlm⟩
      rw [hs, ← hl, List.append_assoc, lines_unlines hls]
      exact List.mem_append_right _ hm

end Netpull.Lines
