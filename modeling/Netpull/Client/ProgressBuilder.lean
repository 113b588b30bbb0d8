import Mathlib.Data.List.Induction
import Netpull.Client.Utf8
import Netpull.Lib.Cursor

/-!
# Progress lines

`ProgressBuilder`. `BuildLine` writes into a string whose size it guesses from the number of
columns; an access outside this string or outside the list of the item's characters has no outcome
here. `buildLine_safe_iff` says when there is one.
-/

namespace Netpull

/-! ## The program -/

/-- `ProgressBuilder`. -/
structure ProgressBuilder where
  action : Bytes
  item : Bytes
  itemUtf8 : Utf8WidthInformation
deriving DecidableEq, Repr

/-- The constructor; nothing if a scan does not end or the assertion fails. -/
def ProgressBuilder.new (wcwidth : UInt32 → Int) (action item : Bytes) :
    Option ProgressBuilder := do
  let itemUtf8 ← forString wcwidth item
  let actionUtf8 ← forString wcwidth action
  if actionUtf8.totalWidth = 1 then some ⟨action, item, itemUtf8⟩ else none

/-- A progress from 0 to 1. Its product with an `int` is truncated to an `int` again. -/
structure Progress where
  trunc : Int → Int
  trunc_nonneg : ∀ k, 0 ≤ k → 0 ≤ trunc k ∧ trunc k ≤ k
  trunc_nonpos : ∀ k, k ≤ 0 → k ≤ trunc k ∧ trunc k ≤ 0

/-- What `PercentToStringIterator` keeps from one trip to the next. -/
structure PercentState where
  factor : Int := 1000
  scaledPercent : Int
  allZeros : Bool := true
deriving DecidableEq, Repr

def PercentState.digit (s : PercentState) : Int := s.scaledPercent.tdiv s.factor

/-- A leading zero is not printed. -/
def PercentState.blank (s : PercentState) (i : Nat) : Bool := s.digit = 0 && i < 2 && s.allZeros

def PercentState.next (s : PercentState) : PercentState where
  factor := s.factor.tdiv 10
  scaledPercent :=
    let rest := s.scaledPercent - s.digit * s.factor
    if rest < 0 then 0 else rest
  allZeros := s.allZeros && s.digit = 0

/-- The point is written before the last digit. -/
def putPoint (i : Nat) (it : Cursor UInt8) : Option (Cursor UInt8) :=
  if i = 3 then it.put 46 else some it

def percentLoop : List Nat → PercentState → Cursor UInt8 → Option (Cursor UInt8)
  | [], _, it => some it
  | i :: is, s, it => do
    let it ← putPoint i it
    let it ← it.put (if s.blank i then 32 else UInt8.ofInt (s.digit + 48))
    percentLoop is s.next it

/-- `PercentToStringIterator`. -/
def percentToStringIterator (percent : Progress) (it : Cursor UInt8) : Option (Cursor UInt8) := do
  let it ← percentLoop [0, 1, 2, 3] { scaledPercent := percent.trunc 1000 } it
  it.put 37

/-- `*info_it` for a reverse iterator; its base is one after the character it stands on. -/
def derefReverse (characters : List CharacterInfo) (base : Nat) : Option CharacterInfo :=
  match base with
  | 0 => none
  | i + 1 => characters[i]?

/-- The loop from the base of `info_it` on: the base of `info_it` after it. -/
def suffixLoop (characters : List CharacterInfo) (room : UInt64) : Nat → Int → Option Nat
  | 0, _ => some 0
  | base + 1, currentWidth => do
    let info ← derefReverse characters (base + 1)
    let width ← addInt currentWidth info.width
    if UInt64.ofInt width > room then some (base + 1 + 1) else suffixLoop characters room base width

def kEllipses : Bytes := text "..."

/-- The item, cut at its front if it takes more columns than there are for it. -/
def ProgressBuilder.writeItem (b : ProgressBuilder) (itemSpace : Int) (it : Cursor UInt8) :
    Option (Cursor UInt8) := do
  if b.itemUtf8.totalWidth > UInt64.ofInt itemSpace then
    let it ← it.copy kEllipses
    let room := UInt64.ofInt itemSpace - UInt64.ofNat kEllipses.length
    let base ← suffixLoop b.itemUtf8.characters room b.itemUtf8.characters.length 0
    let info ← derefReverse b.itemUtf8.characters base
    it.copy (b.item.drop info.index)
  else
    let it ← it.copy b.item
    some (it.skip (UInt64.ofInt itemSpace - b.itemUtf8.totalWidth).toNat)

/-- `columns`, from what `ioctl` says about the terminal, if it does. -/
def lineColumns (wsCol : Option UInt16) : Int := (wsCol.elim 75 fun w => (w.toNat : Int)) - 1

def kExtraLength : Int := 1 + 1 + 6

/-- What `BuildLine` writes. -/
def ProgressBuilder.writeLine (b : ProgressBuilder) (columns : Int) (progress : Progress)
    (it : Cursor UInt8) : Option (Cursor UInt8) := do
  let it ← it.copy b.action
  let it := it.skip 1
  let itemSpace := columns.tdiv 3
  let it ← b.writeItem itemSpace it
  let it := it.skip 1
  let it ← it.put 91
  let colsTaken := 1 + 1 + itemSpace + 1 + 1
  let remainingCols := columns - colsTaken - kExtraLength
  let filledCols := progress.trunc remainingCols
  let it ← (List.range remainingCols.toNat).foldlM
    (fun it i => it.put (if (i : Int) < filledCols then 61 else 45)) it
  let it ← it.put 93
  let it ← it.put 32
  percentToStringIterator progress it

/-- `ProgressBuilder::BuildLine`. The `resize` at its end cuts the string. -/
def ProgressBuilder.buildLine (b : ProgressBuilder) (wsCol : Option UInt16) (progress : Progress) :
    Option Bytes := do
  let columns := lineColumns wsCol
  let result := List.replicate (max (columns * 4) 15).toNat 32
  let it ← b.writeLine columns progress ⟨result, 0⟩
  if it.it ≤ it.buffer.length then some (it.buffer.take it.it) else none

/-! ## What each part writes -/

theorem advances_percentLoop (is : List Nat) (s : PercentState) :
    Cursor.Advances (percentLoop is s) (is.length + is.count 3) := by
  induction is generalizing s with
  | nil => exact Cursor.advances_id
  | cons i is ih =>
    have hpoint : Cursor.Advances (putPoint i) (if i = 3 then 1 else 0) := by
      unfold putPoint
      split
      · exact Cursor.advances_put 46
      · exact Cursor.advances_id
    have hall := hpoint.bind ((Cursor.advances_put (if s.blank i then 32 else
      UInt8.ofInt (s.digit + 48))).bind (ih s.next))
    have hcount : (i :: is).length + (i :: is).count 3 =
        (if i = 3 then 1 else 0) + (1 + (is.length + is.count 3)) := by
      rw [List.length_cons, List.count_cons]
      simp only [beq_iff_eq]
      omega
    rw [hcount]
    exact hall

theorem advances_percentToStringIterator (percent : Progress) :
    Cursor.Advances (percentToStringIterator percent) 6 :=
  (advances_percentLoop [0, 1, 2, 3] _).bind (Cursor.advances_put 37)

theorem ends_percentToStringIterator (percent : Progress) :
    Cursor.Ends (percentToStringIterator percent) := (Cursor.ends_put 37).bind _

/-- The columns of the bar. -/
def barCols (n : Int) : Nat := (n - (1 + 1 + n.tdiv 3 + 1 + 1) - kExtraLength).toNat

theorem advances_writeLine {b : ProgressBuilder} {n : Int} {m : Nat}
    (hitem : Cursor.Advances (b.writeItem (n.tdiv 3)) m) (progress : Progress) :
    Cursor.Advances (b.writeLine n progress) (b.action.length + m + barCols n + 11) := by
  have hbar := Cursor.advances_foldlM (f := fun (i : Nat) (it : Cursor UInt8) =>
    it.put (if (i : Int) < progress.trunc (n - (1 + 1 + n.tdiv 3 + 1 + 1) - kExtraLength) then 61
      else 45)) (fun i => Cursor.advances_put _) (List.range (barCols n))
  have hend := (Cursor.advances_put 93).bind ((Cursor.advances_put 32).bind
    (advances_percentToStringIterator progress))
  have hopen := (Cursor.advances_skip 1).bind ((Cursor.advances_put 91).bind (hbar.bind hend))
  have hall := (Cursor.advances_copy b.action).bind ((Cursor.advances_skip 1).bind
    (hitem.bind hopen))
  rw [List.length_range] at hall
  have hsum : b.action.length + m + barCols n + 11 =
      b.action.length + (1 + (m + (1 + (1 + (barCols n + (1 + (1 + 6))))))) := by omega
  rw [hsum]
  exact hall

theorem ends_writeLine (b : ProgressBuilder) (n : Int) (progress : Progress) :
    Cursor.Ends (b.writeLine n progress) := by
  intro c c' h
  simp only [ProgressBuilder.writeLine, Option.bind_eq_bind, Option.bind_eq_some_iff] at h
  obtain ⟨_, _, _, _, _, _, _, _, _, _, c₁, _, h⟩ := h
  exact ends_percentToStringIterator progress c₁ c' h

/-- If the item takes `m` positions, the line needs that many and its frame. -/
theorem buildLine_exists_iff {b : ProgressBuilder} {wsCol : Option UInt16} {m : Nat}
    (hitem : Cursor.Advances (b.writeItem ((lineColumns wsCol).tdiv 3)) m) (progress : Progress) :
    (∃ line, b.buildLine wsCol progress = some line) ↔
      b.action.length + m + barCols (lineColumns wsCol) + 11
        ≤ (max (lineColumns wsCol * 4) 15).toNat := by
  have hiff := (advances_writeLine hitem progress).exists_iff (ends_writeLine b _ progress)
    ⟨List.replicate (max (lineColumns wsCol * 4) 15).toNat 32, 0⟩
  rw [List.length_replicate, Nat.zero_add] at hiff
  rw [← hiff]
  constructor
  · rintro ⟨line, h⟩
    obtain ⟨it, hit, _⟩ := Option.bind_eq_some_iff.1 h
    exact ⟨it, hit⟩
  · rintro ⟨it, hit⟩
    have hle := ends_writeLine b _ progress _ _ hit
    exact ⟨it.buffer.take it.it, Option.bind_eq_some_iff.2 ⟨it, hit, if_pos hle⟩⟩

/-! ## The item -/

theorem characterWidth_bounds {wcwidth : UInt32 → Int} (hw : ∀ c, -1 ≤ wcwidth c ∧ wcwidth c ≤ 2)
    (c : UInt32) : 0 ≤ characterWidth wcwidth c ∧ characterWidth wcwidth c ≤ 2 := by
  have hc := hw c
  unfold characterWidth
  split <;> omega

/-- The longest tail of some characters that takes `room` columns at most. -/
def fittingTail (wcwidth : UInt32 → Int) (room : Int) : List Char → List Char
  | [] => []
  | c :: cs => if columns wcwidth (c :: cs) ≤ room then c :: cs else fittingTail wcwidth room cs

theorem fittingTail_eq_self {wcwidth : UInt32 → Int} {room : Int} {cs : List Char}
    (h : columns wcwidth cs ≤ room) : fittingTail wcwidth room cs = cs := by
  cases cs with
  | nil => rfl
  | cons c cs => rw [fittingTail, if_pos h]

theorem fittingTail_append {wcwidth : UInt32 → Int} (hw : ∀ c, -1 ≤ wcwidth c) {room : Int}
    {c : Char} {after : List Char} (hfits : columns wcwidth after ≤ room)
    (hlong : room < columns wcwidth (c :: after)) (before : List Char) :
    fittingTail wcwidth room (before ++ c :: after) = after := by
  induction before with
  | nil => rw [List.nil_append, fittingTail, if_neg (Int.not_le.2 hlong), fittingTail_eq_self hfits]
  | cons d before ih =>
    have hbefore := columns_nonneg hw (d :: before)
    have hsum := columns_append wcwidth (d :: before) (c :: after)
    rw [List.cons_append] at hsum ⊢
    rw [fittingTail, if_neg (by omega), ih]

/-- The loop over the characters from the end stops at the longest tail that fits. -/
theorem suffixLoop_eq {wcwidth : UInt32 → Int} (hw : ∀ c, -1 ≤ wcwidth c ∧ wcwidth c ≤ 2)
    {room : UInt64} (hroom : room.toNat < 2 ^ 31 - 2) (before after : List Char)
    (hfits : columns wcwidth after ≤ room.toNat)
    (hlong : room.toNat < columns wcwidth (before ++ after)) :
    ∃ cut, before ++ after = cut ++ fittingTail wcwidth room.toNat (before ++ after) ∧
      suffixLoop (characterInfos wcwidth 0 (before ++ after)) room before.length
        (columns wcwidth after) = some (cut.length + 1) := by
  have hw' : ∀ c, -1 ≤ wcwidth c := fun c => (hw c).1
  induction before using List.reverseRecOn generalizing after with
  | nil => exact absurd hfits (Int.not_le.2 hlong)
  | append_singleton before c ih =>
    have hc := characterWidth_bounds hw c.val
    have hafter := columns_nonneg hw' after
    have hsum : columns wcwidth after + characterWidth wcwidth c.val = columns wcwidth (c :: after) := by
      rw [columns_cons, Int.add_comm]
    have hadd : addInt (columns wcwidth after) (characterWidth wcwidth c.val) =
        some (columns wcwidth (c :: after)) := by
      rw [addInt, if_pos (by omega), hsum]
    have hval := toNat_ofInt (columns wcwidth (c :: after))
    rw [List.append_assoc, List.singleton_append] at hlong ⊢
    rw [List.length_append, List.length_singleton, suffixLoop, derefReverse,
      getElem?_characterInfos, Option.bind_eq_bind, Option.bind_some, hadd, Option.bind_eq_bind,
      Option.bind_some]
    by_cases hmore : (room.toNat : Int) < columns wcwidth (c :: after)
    · rw [if_pos (UInt64.lt_iff_toNat_lt.2 (by omega))]
      refine ⟨before ++ [c], ?_, ?_⟩
      · rw [fittingTail_append hw' hfits hmore, List.append_assoc, List.singleton_append]
      · rw [List.length_append, List.length_singleton]
    · rw [if_neg (fun hlt => hmore (by have hlt := UInt64.lt_iff_toNat_lt.1 hlt; omega))]
      exact ih (c :: after) (Int.not_lt.1 hmore) hlong

/-- With the room of a wrapped subtraction, the loop goes on to the front. -/
theorem suffixLoop_wrapped {characters : List CharacterInfo} (hw : ∀ info ∈ characters, 0 ≤ info.width)
    {room : UInt64} (hroom : 2 ^ 31 ≤ room.toNat) (base : Nat) {width : Int} (hwidth : 0 ≤ width)
    {base' : Nat} (h : suffixLoop characters room base width = some base') : base' = 0 := by
  induction base generalizing width with
  | zero => exact (Option.some.inj h).symm
  | succ base ih =>
    rw [suffixLoop] at h
    obtain ⟨info, hinfo, h⟩ := Option.bind_eq_some_iff.1 h
    obtain ⟨sum, hsum, h⟩ := Option.bind_eq_some_iff.1 h
    have hinfo := hw info (List.mem_of_getElem? hinfo)
    rw [addInt] at hsum
    split at hsum
    · next hint =>
      obtain rfl := Option.some.inj hsum
      have hval := toNat_ofInt (width + info.width)
      rw [if_neg (fun hlt => by have hlt := UInt64.lt_iff_toNat_lt.1 hlt; omega)] at h
      exact ih (by omega) h
    · cases hsum

/-- What the constructor leaves in a builder. -/
theorem eq_of_new {wcwidth : UInt32 → Int} {action : Bytes} {item : List Char}
    {b : ProgressBuilder} (h : ProgressBuilder.new wcwidth action (Utf8.encode item) = some b) :
    b = ⟨action, Utf8.encode item, characterInfos wcwidth 0 item,
      UInt64.ofInt (columns wcwidth item)⟩ := by
  rw [ProgressBuilder.new, forString_eq, Option.bind_eq_bind, Option.bind_some] at h
  obtain ⟨actionUtf8, _, h⟩ := Option.bind_eq_some_iff.1 h
  split at h
  · exact (Option.some.inj h).symm
  · cases h

theorem toNat_room (space : Int) :
    ((UInt64.ofInt space - UInt64.ofNat kEllipses.length).toNat : Int) = (space - 3) % 2 ^ 64 := by
  have hval := toNat_ofInt space
  have hthree : (UInt64.ofNat kEllipses.length).toNat = 3 := rfl
  rw [UInt64.toNat_sub, hthree]
  omega

theorem characterInfos_nonneg {wcwidth : UInt32 → Int}
    (hw : ∀ c, -1 ≤ wcwidth c ∧ wcwidth c ≤ 2) (pos : Nat) (cs : List Char) :
    ∀ info ∈ characterInfos wcwidth pos cs, 0 ≤ info.width := by
  induction cs generalizing pos with
  | nil => exact fun info hinfo => absurd hinfo List.not_mem_nil
  | cons c cs ih =>
    rw [characterInfos, List.forall_mem_cons]
    exact ⟨(characterWidth_bounds hw c.val).1, ih _⟩

section Item

variable {wcwidth : UInt32 → Int} {b : ProgressBuilder} {item : List Char} {space : Int}
  (hspace : 0 ≤ space ∧ space < 2 ^ 31) (hitem : b.item = Utf8.encode item)
  (hchars : b.itemUtf8.characters = characterInfos wcwidth 0 item)
  (htotal : b.itemUtf8.totalWidth = UInt64.ofInt (columns wcwidth item))

include hspace

include htotal

theorem item_long_iff :
    b.itemUtf8.totalWidth > UInt64.ofInt space ↔ space < columns wcwidth item % 2 ^ 64 := by
  have hcolumns := toNat_ofInt (columns wcwidth item)
  have hval := toNat_ofInt space
  rw [htotal, gt_iff_lt, UInt64.lt_iff_toNat_lt]
  omega

/-- The columns that an item leaves free. -/
theorem toNat_sub_totalWidth (hshort : columns wcwidth item % 2 ^ 64 ≤ space) :
    (UInt64.ofInt space - b.itemUtf8.totalWidth).toNat =
      (space - columns wcwidth item % 2 ^ 64).toNat := by
  have hcolumns := toNat_ofInt (columns wcwidth item)
  have hval := toNat_ofInt space
  rw [htotal, UInt64.toNat_sub_of_le]
  · omega
  · rw [UInt64.le_iff_toNat_le]
    omega

include hitem

theorem writeItem_short (hshort : columns wcwidth item % 2 ^ 64 ≤ space) :
    b.writeItem space = fun it => it.copy (Utf8.encode item) >>= fun it =>
      some (it.skip (space - columns wcwidth item % 2 ^ 64).toNat) := by
  have hnot := (item_long_iff hspace htotal).not.2 (Int.not_lt.2 hshort)
  funext it
  rw [ProgressBuilder.writeItem, if_neg hnot, hitem, toNat_sub_totalWidth hspace htotal hshort]

/-- An item that fits is followed by blanks. -/
theorem advances_writeItem_short (hshort : columns wcwidth item % 2 ^ 64 ≤ space) :
    Cursor.Advances (b.writeItem space)
      ((Utf8.encode item).length + (space - columns wcwidth item % 2 ^ 64).toNat) := by
  rw [writeItem_short hspace hitem htotal hshort]
  exact (Cursor.advances_copy _).bind (Cursor.advances_skip _)

omit hitem in
include hchars in
/-- The loop over the characters of an item that does not fit. -/
theorem writeItem_long (hw : ∀ c, -1 ≤ wcwidth c ∧ wcwidth c ≤ 2)
    (hlong : space < columns wcwidth item % 2 ^ 64) (hthree : 3 ≤ space) :
    ∃ cut, item = cut ++ fittingTail wcwidth (space - 3) item ∧
      b.writeItem space = fun it => it.copy kEllipses >>= fun it =>
        (characterInfos wcwidth 0 item)[cut.length]? >>= fun info =>
          it.copy (b.item.drop info.index) := by
  have hroom := toNat_room space
  have hnonneg := columns_nonneg (fun c => (hw c).1) item
  have hint : ((UInt64.ofInt space - UInt64.ofNat kEllipses.length).toNat : Int) = space - 3 := by
    omega
  have hlt : (UInt64.ofInt space - UInt64.ofNat kEllipses.length).toNat < 2 ^ 31 - 2 := by omega
  obtain ⟨cut, hcut, hloop⟩ := suffixLoop_eq hw hlt item [] (by rw [columns_nil]; omega)
    (by rw [List.append_nil]; omega)
  rw [List.append_nil, hint] at hcut
  rw [List.append_nil, columns_nil] at hloop
  refine ⟨cut, hcut, funext fun it => ?_⟩
  rw [ProgressBuilder.writeItem, if_pos ((item_long_iff hspace htotal).2 hlong), hchars,
    length_characterInfos]
  simp only [hloop, derefReverse, Option.bind_eq_bind, Option.bind_some]

include hchars

/-- The end of an item that does not fit is written, if a character is left. -/
theorem writeItem_long_tail (hw : ∀ c, -1 ≤ wcwidth c ∧ wcwidth c ≤ 2)
    (hlong : space < columns wcwidth item % 2 ^ 64) (hthree : 3 ≤ space)
    (hsome : fittingTail wcwidth (space - 3) item ≠ []) :
    b.writeItem space = fun it => it.copy kEllipses >>= fun it =>
      it.copy (Utf8.encode (fittingTail wcwidth (space - 3) item)) := by
  obtain ⟨cut, hcut, hwrite⟩ := writeItem_long hspace hchars htotal hw hlong hthree
  obtain ⟨c, tail, htail⟩ := List.exists_cons_of_ne_nil hsome
  rw [htail] at hcut ⊢
  have hinfo : (characterInfos wcwidth 0 item)[cut.length]? =
      some ⟨(Utf8.encode cut).length, characterWidth wcwidth c.val⟩ := by
    rw [hcut, getElem?_characterInfos]
  have hdrop : b.item.drop (Utf8.encode cut).length = Utf8.encode (c :: tail) := by
    rw [hitem, hcut, Utf8.encode_append, List.drop_left]
  rw [hwrite, hinfo]
  simp only [Option.bind_eq_bind, Option.bind_some, hdrop]

theorem advances_writeItem_long (hw : ∀ c, -1 ≤ wcwidth c ∧ wcwidth c ≤ 2)
    (hlong : space < columns wcwidth item % 2 ^ 64) (hthree : 3 ≤ space)
    (hsome : fittingTail wcwidth (space - 3) item ≠ []) :
    Cursor.Advances (b.writeItem space)
      (3 + (Utf8.encode (fittingTail wcwidth (space - 3) item)).length) := by
  rw [writeItem_long_tail hspace hitem hchars htotal hw hlong hthree hsome]
  exact (Cursor.advances_copy kEllipses).bind (Cursor.advances_copy _)

omit hitem in
/-- With fewer than three columns for an item that does not fit, or for one whose last character
does not fit, the character after the cut is not there. -/
theorem writeItem_long_eq_none (hw : ∀ c, -1 ≤ wcwidth c ∧ wcwidth c ≤ 2)
    (hlong : space < columns wcwidth item % 2 ^ 64)
    (h : space < 3 ∨ fittingTail wcwidth (space - 3) item = []) (it : Cursor UInt8) :
    b.writeItem space it = none := by
  rw [Option.eq_none_iff_forall_ne_some]
  intro it' hit'
  by_cases hthree : 3 ≤ space
  · obtain ⟨cut, hcut, hwrite⟩ := writeItem_long hspace hchars htotal hw hlong hthree
    rw [h.resolve_left (Int.not_lt.2 hthree), List.append_nil] at hcut
    rw [hwrite] at hit'
    obtain ⟨it₁, _, hit'⟩ := Option.bind_eq_some_iff.1 hit'
    obtain ⟨info, hinfo, _⟩ := Option.bind_eq_some_iff.1 hit'
    obtain ⟨hlt, _⟩ := List.getElem?_eq_some_iff.1 hinfo
    rw [length_characterInfos, hcut] at hlt
    exact absurd hlt (Nat.lt_irrefl _)
  · have hroom := toNat_room space
    rw [ProgressBuilder.writeItem, if_pos ((item_long_iff hspace htotal).2 hlong), hchars] at hit'
    obtain ⟨it₁, _, hit'⟩ := Option.bind_eq_some_iff.1 hit'
    obtain ⟨base, hbase, hit'⟩ := Option.bind_eq_some_iff.1 hit'
    obtain ⟨info, hinfo, _⟩ := Option.bind_eq_some_iff.1 hit'
    have hzero := suffixLoop_wrapped (characterInfos_nonneg hw 0 item) (by omega) _
      (Int.le_refl 0) hbase
    rw [hzero] at hinfo
    cases hinfo

end Item

/-- The line fits into its buffer, and the item's cut is a character: `n` is `columns`. -/
def LineFits (wcwidth : UInt32 → Int) (n : Int) (action : Bytes) (item : List Char) : Prop :=
  let space := n.tdiv 3
  let width := columns wcwidth item % 2 ^ 64
  let size := (max (n * 4) 15).toNat
  let tail := fittingTail wcwidth (space - 3) item
  if width ≤ space then
    action.length + ((Utf8.encode item).length + (space - width).toNat) + barCols n + 11 ≤ size
  else
    3 ≤ space ∧ tail ≠ [] ∧
      action.length + (3 + (Utf8.encode tail).length) + barCols n + 11 ≤ size

theorem itemSpace_bounds (wsCol : Option UInt16) :
    0 ≤ (lineColumns wsCol).tdiv 3 ∧ (lineColumns wsCol).tdiv 3 < 2 ^ 31 := by
  have hbounds : -1 ≤ lineColumns wsCol ∧ lineColumns wsCol < 2 ^ 16 := by
    cases wsCol with
    | none => decide
    | some w =>
      have hw := w.toNat_lt
      unfold lineColumns
      simp only [Option.elim_some]
      omega
  by_cases hneg : lineColumns wsCol = -1
  · rw [hneg]
    decide
  · rw [Int.tdiv_eq_ediv_of_nonneg (by omega)]
    omega

/-- `BuildLine` stays inside its buffers exactly if the line fits. -/
theorem buildLine_safe_iff {wcwidth : UInt32 → Int} (hw : ∀ c, -1 ≤ wcwidth c ∧ wcwidth c ≤ 2)
    (wsCol : Option UInt16) {action : Bytes} {item : List Char} {b : ProgressBuilder}
    (hb : ProgressBuilder.new wcwidth action (Utf8.encode item) = some b) (progress : Progress) :
    (∃ line, b.buildLine wsCol progress = some line) ↔
      LineFits wcwidth (lineColumns wsCol) action item := by
  obtain rfl := eq_of_new hb
  have hspace := itemSpace_bounds wsCol
  unfold LineFits
  by_cases hshort : columns wcwidth item % 2 ^ 64 ≤ (lineColumns wsCol).tdiv 3
  · simp only [if_pos hshort]
    exact buildLine_exists_iff (advances_writeItem_short hspace rfl rfl hshort) progress
  · have hlong := Int.not_le.1 hshort
    simp only [if_neg hshort]
    by_cases hcut : 3 ≤ (lineColumns wsCol).tdiv 3 ∧
        fittingTail wcwidth ((lineColumns wsCol).tdiv 3 - 3) item ≠ []
    · rw [buildLine_exists_iff (advances_writeItem_long hspace rfl rfl rfl hw hlong hcut.1 hcut.2)
        progress]
      exact ⟨fun h => ⟨hcut.1, hcut.2, h⟩, fun h => h.2.2⟩
    · refine ⟨fun ⟨line, h⟩ => ?_, fun h => absurd ⟨h.1, h.2.1⟩ hcut⟩
      have hcut : (lineColumns wsCol).tdiv 3 < 3 ∨
          fittingTail wcwidth ((lineColumns wsCol).tdiv 3 - 3) item = [] := by
        rcases not_and_or.1 hcut with h | h
        · exact .inl (Int.not_le.1 h)
        · exact .inr (not_not.1 h)
      obtain ⟨it, hit, _⟩ := Option.bind_eq_some_iff.1 h
      obtain ⟨it₁, _, hit⟩ := Option.bind_eq_some_iff.1 hit
      obtain ⟨it₂, hitem, _⟩ := Option.bind_eq_some_iff.1 hit
      rw [writeItem_long_eq_none hspace rfl rfl hw hlong hcut] at hitem
      cases hitem

/-- The arrow of a download. -/
def arrow : Bytes := Utf8.encode ['↓']

/-- A finished download. -/
def fullProgress : Progress where
  trunc k := k
  trunc_nonneg _ h := ⟨h, Int.le_refl _⟩
  trunc_nonpos _ h := ⟨Int.le_refl _, h⟩

theorem buildLine_safe_iff_forty :
    (∀ c, -1 ≤ latinWcwidth c ∧ latinWcwidth c ≤ 2) ∧
    (ProgressBuilder.new latinWcwidth arrow (Utf8.encode "naïve.tar".toList)).isSome ∧
    ∃ b, ProgressBuilder.new latinWcwidth arrow (Utf8.encode "naïve.tar".toList) = some b ∧
      ((∃ line, b.buildLine (some 40) fullProgress = some line) ↔
        LineFits latinWcwidth (lineColumns (some 40)) arrow "naïve.tar".toList) := by
  have hsome : (ProgressBuilder.new latinWcwidth arrow (Utf8.encode "naïve.tar".toList)).isSome := by
    decide
  obtain ⟨b, hb⟩ := Option.isSome_iff_exists.1 hsome
  exact ⟨latinWcwidth_bounds, hsome, b, hb,
    buildLine_safe_iff latinWcwidth_bounds (some 40) hb fullProgress⟩

/-- In nine columns there are two for `abc`: the loop over its characters finds no end. -/
theorem buildLine_nine_columns :
    ∃ b, ProgressBuilder.new latinWcwidth arrow (Utf8.encode "abc".toList) = some b ∧
      b.buildLine (some 9) fullProgress = none :=
  ⟨⟨arrow, text "abc", [⟨0, 1⟩, ⟨1, 1⟩, ⟨2, 1⟩], 3⟩, by decide, by decide⟩

end Netpull
