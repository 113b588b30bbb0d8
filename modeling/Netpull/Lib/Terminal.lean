import Mathlib.Data.List.Basic
import Mathlib.Data.List.GetD

/-!
# Terminals

A screen of cells without a border, and the bytes that a terminal obeys: carriage return, newline,
and the escape sequences for cursor-up and clear-to-end-of-screen; it takes no notice of others, such
as those for colours. `Shows t above last` says that the screen shows some rows and nothing else, and
that the cursor stands behind the last of them. Text goes on with this row (`Shows.feed_plain`), and
rows are taken away again by going up and clearing (`Shows.feed_erase`).
-/

namespace Netpull

/-- How much of an escape sequence was read; whether it has had parameters. -/
inductive EscapeState
  | ground
  | escape
  | control (parameters : Bool)
deriving DecidableEq, Repr

/-- A terminal. -/
structure Terminal where
  cell : Nat → Nat → Option UInt8 := fun _ _ => none
  row : Nat := 0
  col : Nat := 0
  state : EscapeState := .ground

namespace Terminal

def put (t : Terminal) (b : UInt8) : Terminal :=
  { t with
    cell := fun i j => if i = t.row ∧ j = t.col then some b else t.cell i j
    col := t.col + 1 }

def carriageReturn (t : Terminal) : Terminal := { t with col := 0 }

/-- A newline goes to the beginning of the next row. -/
def lineFeed (t : Terminal) : Terminal := { t with row := t.row + 1, col := 0 }

def moveUp (t : Terminal) : Terminal := { t with row := t.row - 1 }

def clearToEos (t : Terminal) : Terminal :=
  { t with cell := fun i j => if t.row < i ∨ i = t.row ∧ t.col ≤ j then none else t.cell i j }

/-- The last byte of a control sequence. -/
def control (t : Terminal) (parameters : Bool) (b : UInt8) : Terminal :=
  if parameters then t
  else if b = 65 then t.moveUp
  else if b = 74 then t.clearToEos
  else t

def feedByte (t : Terminal) (b : UInt8) : Terminal :=
  match t.state with
  | .ground =>
    if b = 13 then t.carriageReturn
    else if b = 10 then t.lineFeed
    else if b = 27 then { t with state := .escape }
    else t.put b
  | .escape => { t with state := if b = 91 then .control false else .ground }
  | .control parameters =>
    if 0x40 ≤ b ∧ b ≤ 0x7E then { t with state := .ground }.control parameters b
    else { t with state := .control true }

def feed (t : Terminal) (bytes : List UInt8) : Terminal := bytes.foldl feedByte t

@[simp] theorem feed_nil (t : Terminal) : t.feed [] = t := rfl

@[simp] theorem feed_cons (t : Terminal) (b : UInt8) (bytes : List UInt8) :
    t.feed (b :: bytes) = (t.feedByte b).feed bytes := rfl

theorem feed_append (t : Terminal) (bytes bytes' : List UInt8) :
    t.feed (bytes ++ bytes') = (t.feed bytes).feed bytes' := List.foldl_append

/-- The screen shows some rows and nothing else; the cursor is behind the last of them. -/
structure Shows (t : Terminal) (above : List (List UInt8)) (last : List UInt8) : Prop where
  state_eq : t.state = .ground
  row_eq : t.row = above.length
  col_eq : t.col = last.length
  cell_eq : ∀ i j, t.cell i j = ((above ++ [last]).getD i [])[j]?

/-- The screen shows some rows and nothing else. -/
def ShowsRows (t : Terminal) (rows : List (List UInt8)) : Prop :=
  ∀ i j, t.cell i j = (rows.getD i [])[j]?

/-- A text without control characters. -/
def Plain (bytes : List UInt8) : Prop := 13 ∉ bytes ∧ 10 ∉ bytes ∧ 27 ∉ bytes

instance (bytes : List UInt8) : Decidable (Plain bytes) := inferInstanceAs (Decidable (_ ∧ _ ∧ _))

theorem plain_cons {b : UInt8} {bytes : List UInt8} :
    Plain (b :: bytes) ↔ (b ≠ 13 ∧ b ≠ 10 ∧ b ≠ 27) ∧ Plain bytes := by
  unfold Plain
  grind

/-- A sequence that sets a colour or the like. -/
def IsGraphic (bytes : List UInt8) : Prop :=
  ∃ parameters : List UInt8, bytes = 27 :: 91 :: parameters ++ [109] ∧ ∀ b ∈ parameters, b < 0x40

theorem isGraphic_parameters (parameters : List UInt8) (h : parameters.all (· < 0x40) = true) :
    IsGraphic (27 :: 91 :: parameters ++ [109]) :=
  ⟨parameters, rfl, fun b hb => of_decide_eq_true (List.all_eq_true.1 h b hb)⟩

variable {t : Terminal} {above : List (List UInt8)} {last : List UInt8}

theorem shows_new : Shows {} [] [] where
  state_eq := rfl
  row_eq := rfl
  col_eq := rfl
  cell_eq i j := by cases i <;> rfl

/-- An empty row is no more than a row that was never reached. -/
theorem Shows.showsRows {shown : List (List UInt8)}
    (h : Shows t (above ++ shown.dropLast) (shown.getLastD [])) : t.ShowsRows (above ++ shown) := by
  intro i j
  rw [h.cell_eq]
  rcases List.eq_nil_or_concat' shown with rfl | ⟨init, row, rfl⟩
  · rw [List.dropLast_nil, List.append_nil, List.getLastD_nil]
    by_cases hi : i < above.length
    · rw [List.getD_append _ _ _ _ hi]
    · rw [List.getD_append_right _ _ _ _ (Nat.le_of_not_lt hi),
        List.getD_eq_default above _ (Nat.le_of_not_lt hi)]
      cases i - above.length <;> rfl
  · rw [List.dropLast_concat, List.getLastD_concat, List.append_assoc]

theorem Shows.put (h : Shows t above last) (b : UInt8) : Shows (t.put b) above (last ++ [b]) where
  state_eq := h.state_eq
  row_eq := h.row_eq
  col_eq := by rw [Terminal.put, h.col_eq, List.length_append, List.length_singleton]
  cell_eq i j := by
    change (if i = t.row ∧ j = t.col then some b else t.cell i j) = _
    rw [h.row_eq, h.col_eq, h.cell_eq]
    rcases Nat.lt_trichotomy i above.length with hi | rfl | hi
    · rw [List.getD_append _ _ _ _ hi, List.getD_append _ _ _ _ hi, if_neg (by omega)]
    · rw [List.getD_append_right _ _ _ _ (Nat.le_refl _),
        List.getD_append_right _ _ _ _ (Nat.le_refl _), Nat.sub_self]
      simp only [List.getD_cons_zero, true_and]
      rcases Nat.lt_trichotomy j last.length with hj | rfl | hj
      · rw [List.getElem?_append_left hj, if_neg (by omega)]
      · rw [if_pos rfl, List.getElem?_concat_length]
      · rw [if_neg (by omega), List.getElem?_eq_none (by omega), List.getElem?_eq_none]
        rw [List.length_append, List.length_singleton]
        omega
    · rw [List.getD_eq_default _ _ (by rw [List.length_append, List.length_singleton]; omega),
        List.getD_eq_default _ _ (by rw [List.length_append, List.length_singleton]; omega),
        if_neg (by omega)]

/-- Text goes on with the last row. -/
theorem Shows.feed_plain (h : Shows t above last) {bytes : List UInt8} (hplain : Plain bytes) :
    Shows (t.feed bytes) above (last ++ bytes) := by
  induction bytes generalizing t last with
  | nil => rwa [List.append_nil]
  | cons b bytes ih =>
    obtain ⟨⟨hreturn, hnewline, hescape⟩, hrest⟩ := plain_cons.1 hplain
    have hbyte : t.feedByte b = t.put b := by
      rw [feedByte, h.state_eq]
      simp only [if_neg hreturn, if_neg hnewline, if_neg hescape]
    have hall := ih (h.put b) hrest
    rw [List.append_assoc, List.singleton_append] at hall
    rwa [feed_cons, hbyte]

theorem Shows.feed_newline (h : Shows t above last) : Shows (t.feed [10]) (above ++ [last]) [] := by
  have hbyte : t.feed [10] = t.lineFeed := by
    rw [feed_cons, feedByte, h.state_eq]
    rfl
  rw [hbyte]
  refine ⟨h.state_eq, ?_, rfl, fun i j => ?_⟩
  · rw [lineFeed, h.row_eq, List.length_append, List.length_singleton]
  · change t.cell i j = _
    rw [h.cell_eq]
    by_cases hi : i < (above ++ [last]).length
    · rw [List.getD_append _ _ _ _ hi]
    · rw [List.getD_eq_default _ _ (Nat.le_of_not_lt hi),
        List.getD_append_right _ _ _ _ (Nat.le_of_not_lt hi)]
      cases i - (above ++ [last]).length <;> rfl

theorem feed_parameters {parameters : List UInt8} (h : ∀ b ∈ parameters, b < 0x40)
    {state : EscapeState} (hstate : state = .control false ∨ state = .control true) :
    ∃ state', (state' = .control false ∨ state' = .control true) ∧
      { t with state }.feed parameters = { t with state := state' } := by
  induction parameters generalizing state with
  | nil => exact ⟨state, hstate, rfl⟩
  | cons b parameters ih =>
    obtain ⟨hb, hrest⟩ := List.forall_mem_cons.1 h
    obtain ⟨state', hstate', hfeed⟩ := ih hrest (.inr rfl)
    refine ⟨state', hstate', ?_⟩
    have hnot : ¬ (0x40 ≤ b ∧ b ≤ 0x7E) := fun hb' => absurd hb (UInt8.not_lt.2 hb'.1)
    rw [feed_cons, ← hfeed]
    rcases hstate with rfl | rfl <;> simp only [feedByte, if_neg hnot]

/-- A colour leaves no trace. -/
theorem feed_graphic {bytes : List UInt8} (h : IsGraphic bytes) (hstate : t.state = .ground) :
    t.feed bytes = t := by
  obtain ⟨parameters, rfl, hparameters⟩ := h
  obtain ⟨cell, row, col, state⟩ := t
  obtain rfl : state = .ground := hstate
  obtain ⟨state', hstate', hfeed⟩ :=
    feed_parameters (t := ⟨cell, row, col, .ground⟩) hparameters (.inl rfl)
  rw [List.cons_append, List.cons_append, feed_cons, feed_cons]
  change ({ cell, row, col, state := .control false } : Terminal).feed _ = _
  rw [feed_append, hfeed]
  rcases hstate' with rfl | rfl <;> rfl

/-- Some bytes go on with the last row, and `shown` is what they show there. -/
def Prints (bytes shown : List UInt8) : Prop :=
  ∀ (t : Terminal) above last, t.Shows above last → (t.feed bytes).Shows above (last ++ shown)

theorem prints_plain {bytes : List UInt8} (hplain : Plain bytes) : Prints bytes bytes :=
  fun _ _ _ h => h.feed_plain hplain

theorem prints_graphic {bytes : List UInt8} (hbytes : IsGraphic bytes) : Prints bytes [] := by
  intro t above last h
  rwa [feed_graphic hbytes h.state_eq, List.append_nil]

theorem Prints.append {bytes bytes' shown shown' : List UInt8} (h : Prints bytes shown)
    (h' : Prints bytes' shown') : Prints (bytes ++ bytes') (shown ++ shown') := by
  intro t above last ht
  rw [feed_append, ← List.append_assoc]
  exact h' _ _ _ (h _ _ _ ht)

/-- Cursor-up, some times over. -/
theorem feed_ups (n : Nat) (hstate : t.state = .ground) :
    t.feed (List.replicate n [27, 91, 65]).flatten = { t with row := t.row - n } := by
  induction n generalizing t with
  | zero => rfl
  | succ n ih =>
    obtain ⟨cell, row, col, state⟩ := t
    obtain rfl : state = .ground := hstate
    rw [List.replicate_succ, List.flatten_cons, feed_append]
    change Terminal.feed ⟨cell, row - 1, col, .ground⟩ _ = _
    rw [ih rfl, Nat.sub_sub, Nat.add_comm 1 n]

/-- Going up to the first of some rows and clearing the screen from there takes them away. -/
theorem Shows.feed_erase {shown : List (List UInt8)} (h : Shows t (above ++ shown) last) :
    Shows (t.feed ([13] ++ (List.replicate shown.length [27, 91, 65]).flatten ++ [27, 91, 74]))
      above [] := by
  obtain ⟨cell, row, col, state⟩ := t
  obtain rfl : state = .ground := h.state_eq
  have hrow : row = above.length + shown.length := by
    have hrow := h.row_eq
    rwa [List.length_append] at hrow
  have hcell : ∀ i j, cell i j = ((above ++ shown ++ [last]).getD i [])[j]? := h.cell_eq
  rw [feed_append, feed_append]
  change Shows (Terminal.feed (Terminal.feed ⟨cell, row, 0, .ground⟩ _) _) above []
  rw [feed_ups _ rfl, hrow, Nat.add_sub_cancel]
  refine ⟨rfl, rfl, rfl, fun i j => ?_⟩
  change (if above.length < i ∨ i = above.length ∧ 0 ≤ j then none else cell i j) = _
  by_cases hi : i < above.length
  · rw [if_neg (by omega), hcell, List.append_assoc, List.getD_append _ _ _ _ hi,
      List.getD_append _ _ _ _ hi]
  · rw [if_pos (by omega), List.getD_append_right _ _ _ _ (Nat.le_of_not_lt hi)]
    cases i - above.length <;> rfl

end Terminal

end Netpull
