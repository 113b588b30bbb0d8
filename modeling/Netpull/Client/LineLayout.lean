import Netpull.Client.ProgressBuilder

/-!
# The layout of a progress line

Which characters `BuildLine` writes (`buildLine_eq`), and how many columns they take. The rest of
the line counts on the item's field to take its third of the columns. It does if the item fits, for
then it is padded; the end of a longer item is not, and a wide character that is cut off with the
rest leaves the field a column short (`buildLine_laidOut_iff`).
-/

namespace Netpull

/-! ## The percentage -/

/-- What the loop of `PercentToStringIterator` writes. -/
def percentChars : List Nat → PercentState → List Char
  | [], _ => []
  | i :: is, s =>
    (if i = 3 then ['.'] else []) ++
      (if s.blank i then ' ' else Char.ofNat (s.digit + 48).toNat) :: percentChars is s.next

/-- What `PercentToStringIterator` writes. -/
def percentText (percent : Progress) : List Char :=
  percentChars [0, 1, 2, 3] { scaledPercent := percent.trunc 1000 } ++ ['%']

/-- There are `k + 1` digits left. -/
structure PercentState.Digits (s : PercentState) (k : Nat) : Prop where
  factor : s.factor = 10 ^ k
  nonneg : 0 ≤ s.scaledPercent
  lt : s.scaledPercent < 10 ^ (k + 1)

theorem PercentState.Digits.digit {s : PercentState} {k : Nat} (h : s.Digits k) :
    0 ≤ s.digit ∧ s.digit ≤ 9 ∧ s.scaledPercent - s.digit * s.factor = s.scaledPercent % 10 ^ k := by
  have hpos : (0 : Int) < 10 ^ k := Int.pow_pos (by decide)
  have hlt := h.lt
  have hdigit : s.digit = s.scaledPercent / 10 ^ k := by
    rw [PercentState.digit, h.factor, Int.tdiv_eq_ediv_of_nonneg h.nonneg]
  rw [Int.pow_succ, Int.mul_comm] at hlt
  rw [h.factor, hdigit]
  refine ⟨Int.ediv_nonneg h.nonneg (Int.le_of_lt hpos), ?_, ?_⟩
  · exact Int.le_of_lt_add_one (Int.ediv_lt_of_lt_mul hpos hlt)
  · rw [Int.emod_def, Int.mul_comm]

theorem PercentState.Digits.next {s : PercentState} {k : Nat} (h : s.Digits (k + 1)) :
    s.next.Digits k := by
  have hpos : (0 : Int) < 10 ^ (k + 1) := Int.pow_pos (by decide)
  have hrest := h.digit.2.2
  have hmod := Int.emod_nonneg s.scaledPercent (Int.ne_of_gt hpos)
  have hscaled : s.next.scaledPercent = s.scaledPercent % 10 ^ (k + 1) := by
    rw [PercentState.next]
    simp only [hrest]
    exact if_neg (Int.not_lt.2 hmod)
  refine ⟨?_, hscaled ▸ hmod, hscaled ▸ Int.emod_lt_of_pos _ hpos⟩
  rw [PercentState.next, h.factor, Int.tdiv_eq_ediv_of_nonneg (Int.le_of_lt hpos), Int.pow_succ]
  exact Int.mul_ediv_cancel _ (by decide)

/-- A character of printable ASCII. -/
def Printable (c : Char) : Prop := 0x20 ≤ c.val ∧ c.val < 0x7F

instance (c : Char) : Decidable (Printable c) := inferInstanceAs (Decidable (_ ∧ _))

theorem printable_of_all {cs : List Char} (h : cs.all (Printable ·) = true) :
    ∀ c ∈ cs, Printable c :=
  fun c hc => of_decide_eq_true (List.all_eq_true.1 h c hc)

theorem digit_char {d : Int} (h : 0 ≤ d ∧ d ≤ 9) :
    Printable (Char.ofNat (d + 48).toNat) ∧
      String.utf8EncodeChar (Char.ofNat (d + 48).toNat) = [UInt8.ofInt (d + 48)] := by
  obtain ⟨n, rfl⟩ := Int.eq_ofNat_of_zero_le h.1
  have hn : n < 10 := by omega
  clear h
  revert n
  decide

theorem percentChars_spec {is : List Nat} {s : PercentState} {k : Nat} (h : s.Digits k)
    (hlen : is.length ≤ k + 1) :
    Cursor.Writes 32 (percentLoop is s) (Utf8.encode (percentChars is s)) ∧
      (∀ c ∈ percentChars is s, Printable c) ∧
      (percentChars is s).length = is.length + is.count 3 := by
  induction is generalizing s k with
  | nil => exact ⟨Cursor.writes_id, fun c hc => absurd hc List.not_mem_nil, rfl⟩
  | cons i is ih =>
    have hrest : Cursor.Writes 32 (percentLoop is s.next) (Utf8.encode (percentChars is s.next)) ∧
        (∀ c ∈ percentChars is s.next, Printable c) ∧
        (percentChars is s.next).length = is.length + is.count 3 := by
      cases k with
      | zero =>
        rw [List.length_cons] at hlen
        obtain rfl := List.length_eq_zero_iff.1 (by omega : is.length = 0)
        exact ⟨Cursor.writes_id, fun c hc => absurd hc List.not_mem_nil, rfl⟩
      | succ k => exact ih h.next (Nat.le_of_succ_le_succ hlen)
    obtain ⟨hwrites, hprintable, hlength⟩ := hrest
    have hpoint : Cursor.Writes 32 (putPoint i) (Utf8.encode (if i = 3 then ['.'] else [])) := by
      unfold putPoint
      split
      · exact Cursor.writes_put 46
      · exact Cursor.writes_id
    obtain ⟨hdigit, hbyte⟩ := digit_char ⟨h.digit.1, h.digit.2.1⟩
    have hput : Cursor.Writes 32
        (Cursor.put (if s.blank i then 32 else UInt8.ofInt (s.digit + 48)))
        (String.utf8EncodeChar (if s.blank i then ' ' else Char.ofNat (s.digit + 48).toNat)) := by
      split
      · exact Cursor.writes_put 32
      · rw [hbyte]
        exact Cursor.writes_put _
    refine ⟨?_, ?_, ?_⟩
    · rw [percentChars, Utf8.encode_append, Utf8.encode_cons]
      exact hpoint.bind (hput.bind hwrites)
    · rw [percentChars]
      intro c hc
      rcases List.mem_append.1 hc with hc | hc
      · split at hc
        · rw [List.mem_singleton.1 hc]
          decide
        · cases hc
      · rcases List.mem_cons.1 hc with rfl | hc
        · split
          · decide
          · exact hdigit
        · exact hprintable c hc
    · rw [percentChars, List.length_append, List.length_cons, hlength, List.length_cons]
      by_cases hi : i = 3
      · rw [if_pos hi, hi, List.count_cons_self, List.length_singleton]
        omega
      · rw [if_neg hi, List.count_cons_of_ne hi, List.length_nil]
        omega

/-- The percentage is six printable characters. -/
theorem percentText_spec (percent : Progress) :
    Cursor.Writes 32 (percentToStringIterator percent) (Utf8.encode (percentText percent)) ∧
      (∀ c ∈ percentText percent, Printable c) ∧ (percentText percent).length = 6 := by
  obtain ⟨hnonneg, hle⟩ := percent.trunc_nonneg 1000 (by decide)
  have hdigits : PercentState.Digits { scaledPercent := percent.trunc 1000 } 3 :=
    ⟨rfl, hnonneg, Int.lt_of_le_of_lt hle (by decide)⟩
  have hlen : [0, 1, 2, 3].length ≤ 3 + 1 := Nat.le_refl 4
  obtain ⟨hwrites, hprintable, hlength⟩ := percentChars_spec hdigits hlen
  refine ⟨?_, ?_, ?_⟩
  · rw [percentText, Utf8.encode_append]
    exact hwrites.bind (Cursor.writes_put 37)
  · intro c hc
    rcases List.mem_append.1 hc with hc | hc
    · exact hprintable c hc
    · rw [List.mem_singleton.1 hc]
      decide
  · rw [percentText, List.length_append, hlength]
    rfl

/-! ## The line -/

/-- `n` blanks. -/
def blanks (n : Nat) : List Char := List.replicate n ' '

theorem encode_blanks (n : Nat) : Utf8.encode (blanks n) = List.replicate n 32 := by
  induction n with
  | zero => rfl
  | succ n ih =>
    rw [blanks, List.replicate_succ, Utf8.encode_cons, List.replicate_succ]
    exact congrArg (32 :: ·) ih

/-- A bar, of which some columns are filled. -/
def fillChars (filled : Int) (cols : Nat) : List Char :=
  (List.range cols).map fun (i : Nat) => if (i : Int) < filled then '=' else '-'

/-- The bar in a line of `n` columns. -/
def barChars (n : Int) (progress : Progress) : List Char :=
  fillChars (progress.trunc (n - (1 + 1 + n.tdiv 3 + 1 + 1) - kExtraLength)) (barCols n)

/-- A line, from its parts. -/
def lineText (action field bar percent : List Char) : List Char :=
  action ++ blanks 1 ++ field ++ blanks 1 ++ ['['] ++ bar ++ [']', ' '] ++ percent

theorem writes_fillChars (filled : Int) (cols : Nat) :
    Cursor.Writes 32 (fun it => (List.range cols).foldlM (fun it (i : Nat) =>
      it.put (if (i : Int) < filled then 61 else 45)) it) (Utf8.encode (fillChars filled cols)) := by
  have hbar : ∀ l : List Nat, Utf8.encode (l.map fun (i : Nat) =>
      if (i : Int) < filled then '=' else '-') =
        l.map fun (i : Nat) => if (i : Int) < filled then 61 else 45 := by
    intro l
    induction l with
    | nil => rfl
    | cons i l ih =>
      rw [List.map_cons, List.map_cons, Utf8.encode_cons, ih]
      split <;> rfl
  rw [fillChars, hbar]
  exact Cursor.writes_foldlM (fun i => Cursor.writes_put _) _

theorem writes_writeLine {b : ProgressBuilder} {n : Int} {action field : List Char}
    (haction : b.action = Utf8.encode action)
    (hfield : Cursor.Writes 32 (b.writeItem (n.tdiv 3)) (Utf8.encode field))
    (progress : Progress) :
    Cursor.Writes 32 (b.writeLine n progress)
      (Utf8.encode (lineText action field (barChars n progress) (percentText progress))) := by
  have hend := (Cursor.writes_put 93).bind ((Cursor.writes_put 32).bind
    (percentText_spec progress).1)
  have hbar := writes_fillChars
    (progress.trunc (n - (1 + 1 + n.tdiv 3 + 1 + 1) - kExtraLength)) (barCols n)
  have hopen := (Cursor.writes_skip 1).bind ((Cursor.writes_put 91).bind (hbar.bind hend))
  have hall := (Cursor.writes_copy b.action).bind ((Cursor.writes_skip 1).bind
    (hfield.bind hopen))
  have htext : Utf8.encode (lineText action field (barChars n progress) (percentText progress)) =
      b.action ++ (List.replicate 1 32 ++ (Utf8.encode field ++ (List.replicate 1 32 ++
        ([91] ++ (Utf8.encode (barChars n progress) ++ ([93] ++ ([32] ++
          Utf8.encode (percentText progress)))))))) := by
    simp only [lineText, Utf8.encode_append, encode_blanks, haction, List.append_assoc]
    rfl
  rw [htext]
  exact hall

/-- The line that `BuildLine` returns. -/
theorem buildLine_eq {b : ProgressBuilder} {wsCol : Option UInt16} {action field : List Char}
    (haction : b.action = Utf8.encode action)
    (hfield : Cursor.Writes 32 (b.writeItem ((lineColumns wsCol).tdiv 3)) (Utf8.encode field))
    {progress : Progress} {line : Bytes} (h : b.buildLine wsCol progress = some line) :
    line = Utf8.encode (lineText action field (barChars (lineColumns wsCol) progress)
      (percentText progress)) := by
  obtain ⟨it, hit, h⟩ := Option.bind_eq_some_iff.1 h
  have hshows := writes_writeLine haction hfield progress _ _ _ (Cursor.shows_replicate 32 _) hit
  split at h
  · next hle =>
    obtain rfl := Option.some.inj h
    exact hshows.take_eq hle
  · cases h

/-! ## Columns -/

section Columns

variable {wcwidth : UInt32 → Int}
  (hprintable : ∀ c : UInt32, 0x20 ≤ c ∧ c < 0x7F → wcwidth c = 1)

include hprintable

/-- A printable character takes a column. -/
theorem columns_printable {cs : List Char} (h : ∀ c ∈ cs, Printable c) :
    columns wcwidth cs = cs.length := by
  induction cs with
  | nil => rfl
  | cons c cs ih =>
    obtain ⟨hc, hcs⟩ := List.forall_mem_cons.1 h
    rw [columns_cons, characterWidth, hprintable c.val hc, ih hcs, List.length_cons]
    omega

theorem columns_blanks (n : Nat) : columns wcwidth (blanks n) = n := by
  have hblank : ∀ c ∈ blanks n, Printable c := by
    intro c hc
    rw [List.eq_of_mem_replicate hc]
    decide
  rw [columns_printable hprintable hblank, blanks, List.length_replicate]

theorem columns_barChars (n : Int) (progress : Progress) :
    columns wcwidth (barChars n progress) = barCols n := by
  have hbar : ∀ c ∈ barChars n progress, Printable c := by
    intro c hc
    obtain ⟨i, -, rfl⟩ := List.mem_map.1 hc
    split <;> decide
  rw [columns_printable hprintable hbar, barChars, fillChars, List.length_map, List.length_range]

theorem columns_percentText (percent : Progress) :
    columns wcwidth (percentText percent) = 6 := by
  obtain ⟨-, hchars, hlength⟩ := percentText_spec percent
  rw [columns_printable hprintable hchars, hlength]
  rfl

theorem columns_lineText (action field bar percent : List Char) :
    columns wcwidth (lineText action field bar percent) =
      columns wcwidth action + columns wcwidth field + columns wcwidth bar +
        columns wcwidth percent + 5 := by
  have hopen : columns wcwidth ['['] = 1 := columns_printable hprintable (printable_of_all rfl)
  have hclose : columns wcwidth [']', ' '] = 2 := columns_printable hprintable (printable_of_all rfl)
  simp only [lineText, columns_append, columns_blanks hprintable, hopen, hclose]
  omega

end Columns

/-! ## The field of the item -/

theorem fittingTail_suffix (wcwidth : UInt32 → Int) (room : Int) (cs : List Char) :
    fittingTail wcwidth room cs <:+ cs := by
  induction cs with
  | nil => exact List.suffix_refl _
  | cons c cs ih =>
    rw [fittingTail]
    split
    · exact List.suffix_refl _
    · exact ih.trans (List.suffix_cons c cs)

theorem columns_fittingTail_le {wcwidth : UInt32 → Int} {room : Int} (hroom : 0 ≤ room)
    (cs : List Char) : columns wcwidth (fittingTail wcwidth room cs) ≤ room := by
  induction cs with
  | nil => exact hroom
  | cons c cs ih =>
    rw [fittingTail]
    split
    · next hfits => exact hfits
    · exact ih

/-- No tail that fits takes more columns. -/
theorem columns_le_fittingTail {wcwidth : UInt32 → Int} (hw : ∀ c, -1 ≤ wcwidth c) {room : Int}
    {before after : List Char} (hfits : columns wcwidth after ≤ room) :
    columns wcwidth after ≤ columns wcwidth (fittingTail wcwidth room (before ++ after)) := by
  induction before with
  | nil =>
    have hsame := fittingTail_eq_self hfits
    exact Int.le_of_eq (congrArg (columns wcwidth) hsame.symm)
  | cons c before ih =>
    have hbefore := columns_nonneg hw (c :: before)
    have hsum := columns_append wcwidth (c :: before) after
    rw [List.cons_append] at hsum ⊢
    rw [fittingTail]
    split
    · omega
    · exact ih

/-- A part of the item has exactly the columns that are left beside the ellipsis. -/
def ExactTail (wcwidth : UInt32 → Int) (room : Int) (item : List Char) : Prop :=
  ∃ before after, item = before ++ after ∧ columns wcwidth after = room

theorem exactTail_iff {wcwidth : UInt32 → Int} (hw : ∀ c, -1 ≤ wcwidth c) {room : Int}
    (hroom : 0 ≤ room) {item : List Char} :
    ExactTail wcwidth room item ↔ columns wcwidth (fittingTail wcwidth room item) = room := by
  constructor
  · rintro ⟨before, after, rfl, hafter⟩
    have hle : columns wcwidth (fittingTail wcwidth room (before ++ after)) ≤ room :=
      columns_fittingTail_le hroom (before ++ after)
    have hge : columns wcwidth after ≤ columns wcwidth (fittingTail wcwidth room (before ++ after)) :=
      columns_le_fittingTail hw (Int.le_of_eq hafter)
    omega
  · intro hcolumns
    obtain ⟨before, hbefore⟩ := fittingTail_suffix wcwidth room item
    exact ⟨before, _, hbefore.symm, hcolumns⟩

/-- The item with blanks behind it, or its longest fitting tail behind an ellipsis. -/
def IsField (wcwidth : UInt32 → Int) (space : Int) (item field : List Char) : Prop :=
  (columns wcwidth item ≤ space ∧ ∃ n, field = item ++ blanks n) ∨
    (space < columns wcwidth item ∧
      ∃ n, field = "...".toList ++ fittingTail wcwidth (space - 3) item ++ blanks n)

/-- The layout of a line of `n` columns. -/
structure LineLayout (wcwidth : UInt32 → Int) (n : Int)
    (action item field bar percent : List Char) : Prop where
  isField : IsField wcwidth (n / 3) item field
  columns_field : columns wcwidth field = n / 3
  columns_before : columns wcwidth (action ++ blanks 1 ++ field ++ blanks 1) = n / 3 + 3
  isBar : ∀ c ∈ bar, c = '=' ∨ c = '-'
  six : percent.length = 6 ∧ columns wcwidth percent = 6
  columns_line : columns wcwidth (lineText action field bar percent) = n

/-- A line is laid out as it should be. -/
def LaidOut (wcwidth : UInt32 → Int) (n : Int) (action item : List Char) (line : Bytes) : Prop :=
  ∃ field bar percent, line = Utf8.encode (lineText action field bar percent) ∧
    LineLayout wcwidth n action item field bar percent

theorem LaidOut.totalWidth {wcwidth : UInt32 → Int} {n : Int} {action item : List Char}
    {line : Bytes} (h : LaidOut wcwidth n action item line) :
    (forString wcwidth line).map (·.totalWidth) = some (UInt64.ofInt n) := by
  obtain ⟨field, bar, percent, rfl, hlayout⟩ := h
  rw [forString_eq, Option.map_some, hlayout.columns_line]

theorem LaidOut.columns_mod {wcwidth : UInt32 → Int} {n : Int} {action item cs : List Char}
    (h : LaidOut wcwidth n action item (Utf8.encode cs)) :
    columns wcwidth cs % 2 ^ 64 = n % 2 ^ 64 := by
  have hwidth : UInt64.ofInt (columns wcwidth cs) = UInt64.ofInt n := by
    have htotal := h.totalWidth
    rw [forString_eq] at htotal
    exact Option.some.inj htotal
  rw [← toNat_ofInt, hwidth, toNat_ofInt]

/-- An encoding takes no more than twice as many columns as bytes. -/
theorem columns_le {wcwidth : UInt32 → Int} (hw : ∀ c, -1 ≤ wcwidth c ∧ wcwidth c ≤ 2)
    (cs : List Char) : columns wcwidth cs ≤ 2 * (Utf8.encode cs).length := by
  induction cs with
  | nil => exact Int.le_refl 0
  | cons c cs ih =>
    have hc := characterWidth_bounds hw c.val
    have hpos := (Utf8.isSequence_encodeChar c).length_pos
    rw [columns_cons, Utf8.encode_cons, List.length_append]
    omega

section Layout

variable {wcwidth : UInt32 → Int} (hw : ∀ c, -1 ≤ wcwidth c ∧ wcwidth c ≤ 2)
  (hprintable : ∀ c : UInt32, 0x20 ≤ c ∧ c < 0x7F → wcwidth c = 1)
  {wsCol : UInt16} (hcols : 18 ≤ wsCol) {action item field : List Char} {b : ProgressBuilder}
  {progress : Progress}

theorem lineColumns_bounds (hcols : 18 ≤ wsCol) :
    17 ≤ lineColumns (some wsCol) ∧ lineColumns (some wsCol) < 2 ^ 16 := by
  have hlt := wsCol.toNat_lt
  have hge := UInt16.le_iff_toNat_le.1 hcols
  have hval : lineColumns (some wsCol) = (wsCol.toNat : Int) - 1 := rfl
  change 18 ≤ wsCol.toNat at hge
  omega

include hcols in
theorem barCols_eq :
    (barCols (lineColumns (some wsCol)) : Int) =
      lineColumns (some wsCol) - lineColumns (some wsCol) / 3 - 12 := by
  have hbounds := lineColumns_bounds hcols
  have hextra : kExtraLength = 8 := rfl
  rw [barCols, Int.tdiv_eq_ediv_of_nonneg (by omega), hextra]
  omega

/-- The assertion of the constructor. -/
theorem totalWidth_action (hb : ProgressBuilder.new wcwidth (Utf8.encode action)
    (Utf8.encode item) = some b) : UInt64.ofInt (columns wcwidth action) = 1 := by
  rw [ProgressBuilder.new, forString_eq, forString_eq] at hb
  simp only [Option.bind_eq_bind, Option.bind_some] at hb
  split at hb
  · next hone => exact hone
  · cases hb

include hw hcols in
/-- In a line that fits, the action takes one column. -/
theorem columns_action (hb : ProgressBuilder.new wcwidth (Utf8.encode action)
    (Utf8.encode item) = some b)
    (hfits : LineFits wcwidth (lineColumns (some wsCol)) (Utf8.encode action) item) :
    columns wcwidth action = 1 := by
  have hbounds := lineColumns_bounds hcols
  have hlen : (Utf8.encode action).length ≤ (max (lineColumns (some wsCol) * 4) 15).toNat := by
    unfold LineFits at hfits
    simp only at hfits
    split at hfits <;> omega
  have hle := columns_le hw action
  have hnonneg := columns_nonneg (fun c => (hw c).1) action
  have hval := toNat_ofInt (columns wcwidth action)
  rw [totalWidth_action hb] at hval
  change ((1 : Nat) : Int) = _ at hval
  omega

include hw hcols in
/-- What is written for the item of a line that fits. -/
theorem exists_field (hb : ProgressBuilder.new wcwidth (Utf8.encode action)
    (Utf8.encode item) = some b)
    (hfits : LineFits wcwidth (lineColumns (some wsCol)) (Utf8.encode action) item) :
    ∃ field, Cursor.Writes 32 (b.writeItem ((lineColumns (some wsCol)).tdiv 3))
        (Utf8.encode field) ∧
      (columns wcwidth item ≤ lineColumns (some wsCol) / 3 ∧
          field = item ++ blanks (lineColumns (some wsCol) / 3 - columns wcwidth item).toNat ∨
        lineColumns (some wsCol) / 3 < columns wcwidth item ∧
          field = "...".toList ++
            fittingTail wcwidth (lineColumns (some wsCol) / 3 - 3) item) := by
  obtain ⟨hitem, hchars, htotal⟩ : b.item = Utf8.encode item ∧
      b.itemUtf8.characters = characterInfos wcwidth 0 item ∧
      b.itemUtf8.totalWidth = UInt64.ofInt (columns wcwidth item) := by
    obtain rfl := eq_of_new hb
    exact ⟨rfl, rfl, rfl⟩
  have hbounds := lineColumns_bounds hcols
  have hspace := itemSpace_bounds (some wsCol)
  have hdiv : (lineColumns (some wsCol)).tdiv 3 = lineColumns (some wsCol) / 3 :=
    Int.tdiv_eq_ediv_of_nonneg (by omega)
  have hnonneg := columns_nonneg (fun c => (hw c).1) item
  have hle := columns_le hw item
  unfold LineFits at hfits
  simp only at hfits
  rw [hdiv] at hspace hfits ⊢
  split at hfits
  · next hshort =>
    have hsmall : columns wcwidth item % 2 ^ 64 = columns wcwidth item := by omega
    have hwrites := writeItem_short hspace hitem htotal hshort
    rw [hsmall] at hshort hwrites
    refine ⟨_, ?_, .inl ⟨hshort, rfl⟩⟩
    rw [hwrites, Utf8.encode_append, encode_blanks]
    exact (Cursor.writes_copy _).bind (Cursor.writes_skip _)
  · next hlong =>
    obtain ⟨hthree, hsome, -⟩ := hfits
    have hwrites :=
      writeItem_long_tail hspace hitem hchars htotal hw (Int.not_le.1 hlong) hthree hsome
    refine ⟨_, ?_, .inr ⟨by omega, rfl⟩⟩
    rw [hwrites, Utf8.encode_append]
    exact (Cursor.writes_copy kEllipses).bind (Cursor.writes_copy _)

include hw hprintable hcols

/-- The columns of the line are right if those of the field are. -/
theorem columns_line_iff (hb : ProgressBuilder.new wcwidth (Utf8.encode action)
    (Utf8.encode item) = some b)
    (hfits : LineFits wcwidth (lineColumns (some wsCol)) (Utf8.encode action) item)
    (field : List Char) :
    columns wcwidth (lineText action field (barChars (lineColumns (some wsCol)) progress)
        (percentText progress)) = lineColumns (some wsCol) ↔
      columns wcwidth field = lineColumns (some wsCol) / 3 := by
  rw [columns_lineText hprintable, columns_action hw hcols hb hfits,
    columns_barChars hprintable, barCols_eq hcols, columns_percentText hprintable]
  omega

/-- A line that is laid out as it should be has all its columns. -/
theorem columns_line_of_laidOut (hb : ProgressBuilder.new wcwidth (Utf8.encode action)
    (Utf8.encode item) = some b)
    (hfits : LineFits wcwidth (lineColumns (some wsCol)) (Utf8.encode action) item)
    (hfield : columns wcwidth field ≤ lineColumns (some wsCol) / 3)
    (h : LaidOut wcwidth (lineColumns (some wsCol)) action item (Utf8.encode (lineText action field
      (barChars (lineColumns (some wsCol)) progress) (percentText progress)))) :
    columns wcwidth (lineText action field (barChars (lineColumns (some wsCol)) progress)
      (percentText progress)) = lineColumns (some wsCol) := by
  have hbounds := lineColumns_bounds hcols
  have hmod := h.columns_mod
  have hnonneg := columns_nonneg (fun c => (hw c).1) field
  rw [columns_lineText hprintable, columns_action hw hcols hb hfits,
    columns_barChars hprintable, barCols_eq hcols, columns_percentText hprintable] at hmod ⊢
  omega

theorem lineLayout (hb : ProgressBuilder.new wcwidth (Utf8.encode action)
    (Utf8.encode item) = some b)
    (hfits : LineFits wcwidth (lineColumns (some wsCol)) (Utf8.encode action) item)
    (hfield : IsField wcwidth (lineColumns (some wsCol) / 3) item field)
    (hcolumns : columns wcwidth field = lineColumns (some wsCol) / 3) :
    LineLayout wcwidth (lineColumns (some wsCol)) action item field
      (barChars (lineColumns (some wsCol)) progress) (percentText progress) where
  isField := hfield
  columns_field := hcolumns
  columns_before := by
    simp only [columns_append, columns_blanks hprintable, columns_action hw hcols hb hfits, hcolumns]
    omega
  isBar c hc := by
    obtain ⟨i, -, rfl⟩ := List.mem_map.1 hc
    split
    · exact .inl rfl
    · exact .inr rfl
  six := ⟨(percentText_spec progress).2.2, columns_percentText hprintable progress⟩
  columns_line := (columns_line_iff hw hprintable hcols hb hfits field).2 hcolumns

/-- **A line is laid out as it should be** exactly if it fits into its buffer and, in case that the
item has to be cut, a part of it fills the columns beside the ellipsis. -/
theorem buildLine_laidOut_iff (hb : ProgressBuilder.new wcwidth (Utf8.encode action)
    (Utf8.encode item) = some b) (progress : Progress) :
    (∃ line, b.buildLine (some wsCol) progress = some line ∧
      LaidOut wcwidth (lineColumns (some wsCol)) action item line) ↔
    LineFits wcwidth (lineColumns (some wsCol)) (Utf8.encode action) item ∧
      (lineColumns (some wsCol) / 3 < columns wcwidth item →
        ExactTail wcwidth (lineColumns (some wsCol) / 3 - 3) item) := by
  have hbounds := lineColumns_bounds hcols
  have haction : b.action = Utf8.encode action := by rw [eq_of_new hb]
  have hdots : columns wcwidth "...".toList = 3 := columns_printable hprintable (printable_of_all rfl)
  have htail : ExactTail wcwidth (lineColumns (some wsCol) / 3 - 3) item ↔
      columns wcwidth (fittingTail wcwidth (lineColumns (some wsCol) / 3 - 3) item) =
        lineColumns (some wsCol) / 3 - 3 := exactTail_iff (fun c => (hw c).1) (by omega)
  constructor
  · rintro ⟨line, hline, hlaid⟩
    have hfits := (buildLine_safe_iff hw (some wsCol) hb progress).1 ⟨line, hline⟩
    refine ⟨hfits, fun hlong => htail.2 ?_⟩
    obtain ⟨field, hwrites, ⟨hshort, -⟩ | ⟨-, hfield⟩⟩ := exists_field hw hcols hb hfits
    · exact absurd hlong (Int.not_lt.2 hshort)
    · have hle : columns wcwidth (fittingTail wcwidth (lineColumns (some wsCol) / 3 - 3) item) ≤
          lineColumns (some wsCol) / 3 - 3 := columns_fittingTail_le (by omega) item
      have hsum : columns wcwidth field = 3 +
          columns wcwidth (fittingTail wcwidth (lineColumns (some wsCol) / 3 - 3) item) := by
        rw [hfield, columns_append, hdots]
      rw [buildLine_eq haction hwrites hline] at hlaid
      have hall := columns_line_of_laidOut hw hprintable hcols hb hfits (by omega) hlaid
      have hcolumns := (columns_line_iff hw hprintable hcols hb hfits field).1 hall
      omega
  · rintro ⟨hfits, hexact⟩
    obtain ⟨line, hline⟩ := (buildLine_safe_iff hw (some wsCol) hb progress).2 hfits
    obtain ⟨field, hwrites, ⟨hshort, hfield⟩ | ⟨hlong, hfield⟩⟩ := exists_field hw hcols hb hfits
    · refine ⟨line, hline, field, _, _, buildLine_eq haction hwrites hline, ?_⟩
      refine lineLayout hw hprintable hcols hb hfits (.inl ⟨hshort, _, hfield⟩) ?_
      rw [hfield, columns_append, columns_blanks hprintable]
      omega
    · refine ⟨line, hline, field, _, _, buildLine_eq haction hwrites hline, ?_⟩
      refine lineLayout hw hprintable hcols hb hfits (.inr ⟨hlong, 0, ?_⟩) ?_
      · rw [hfield, blanks, List.replicate_zero, List.append_nil]
      · rw [hfield, columns_append, hdots, htail.1 (hexact hlong)]
        omega

end Layout

theorem latinWcwidth_printable (c : UInt32) (h : 0x20 ≤ c ∧ c < 0x7F) : latinWcwidth c = 1 := by
  unfold latinWcwidth
  grind

/-- A long name in sixty columns. -/
theorem buildLine_laidOut_iff_sixty :
    ∃ b, ProgressBuilder.new latinWcwidth (Utf8.encode ['↓'])
        (Utf8.encode "linux-6.12.tar.xz.part".toList) = some b ∧
      ((∃ line, b.buildLine (some 60) fullProgress = some line ∧
        LaidOut latinWcwidth (lineColumns (some 60)) ['↓'] "linux-6.12.tar.xz.part".toList line) ↔
      LineFits latinWcwidth (lineColumns (some 60)) (Utf8.encode ['↓'])
          "linux-6.12.tar.xz.part".toList ∧
        (lineColumns (some 60) / 3 < columns latinWcwidth "linux-6.12.tar.xz.part".toList →
          ExactTail latinWcwidth (lineColumns (some 60) / 3 - 3)
            "linux-6.12.tar.xz.part".toList)) := by
  have hsome : (ProgressBuilder.new latinWcwidth (Utf8.encode ['↓'])
      (Utf8.encode "linux-6.12.tar.xz.part".toList)).isSome := by decide
  obtain ⟨b, hb⟩ := Option.isSome_iff_exists.1 hsome
  exact ⟨b, hb, buildLine_laidOut_iff latinWcwidth_bounds latinWcwidth_printable (by decide) hb
    fullProgress⟩

/-- In eighteen columns, `語` is cut off with the rest, and nothing stands in its place. -/
theorem wide_character_cut_short :
    ∃ b, ProgressBuilder.new latinWcwidth (Utf8.encode ['↓']) (Utf8.encode "abc語d".toList) = some b ∧
      (∃ line, b.buildLine (some 18) fullProgress = some line) ∧
      ¬ ∃ line, b.buildLine (some 18) fullProgress = some line ∧
        LaidOut latinWcwidth (lineColumns (some 18)) ['↓'] "abc語d".toList line := by
  refine ⟨⟨arrow, Utf8.encode "abc語d".toList, [⟨0, 1⟩, ⟨1, 1⟩, ⟨2, 1⟩, ⟨3, 2⟩, ⟨6, 1⟩], 6⟩,
    by decide, ⟨arrow ++ text " ...d [] 100.0%", by decide⟩, ?_⟩
  rintro ⟨line, hline, hlaid⟩
  have hshown : ProgressBuilder.buildLine ⟨arrow, Utf8.encode "abc語d".toList,
      [⟨0, 1⟩, ⟨1, 1⟩, ⟨2, 1⟩, ⟨3, 2⟩, ⟨6, 1⟩], 6⟩ (some 18) fullProgress =
        some (arrow ++ text " ...d [] 100.0%") := by decide
  obtain rfl := Option.some.inj (hline.symm.trans hshown)
  exact absurd hlaid.totalWidth (by decide)

end Netpull
