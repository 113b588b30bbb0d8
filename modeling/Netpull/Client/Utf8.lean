import Mathlib.Algebra.BigOperators.Group.List.Basic
import Mathlib.Algebra.Ring.Int.Defs
import Netpull.Bytes
import Netpull.Lib.Utf8

/-!
# The widths of a UTF-8 string

`Utf8WidthInformation::ForString`. The loop trusts the lead bytes: it comes to its end on the strings
that announced sequences make up, and on no others (`scanProgress_iff`). On an encoding it finds the
scalar values again (`forString_encode`). `wcwidth` is a parameter.
-/

namespace Netpull

/-! ## The loop -/

/-- `Utf8WidthInformation::CharacterInfo`. -/
structure CharacterInfo where
  index : Nat
  width : Int
deriving DecidableEq, Repr

/-- `Utf8WidthInformation`. -/
structure Utf8WidthInformation where
  characters : List CharacterInfo := []
  totalWidth : UInt64 := 0
deriving DecidableEq, Repr

def kOneByteMask : UInt32 := 0x80
def kOneByteValue : UInt32 := 0
def kTwoByteMask : UInt32 := 0xE0
def kTwoByteValue : UInt32 := 0xC0
def kThreeByteMask : UInt32 := 0xF0
def kThreeByteValue : UInt32 := kTwoByteMask
def kFourByteMask : UInt32 := 0xF8
def kFourByteValue : UInt32 := kThreeByteMask
def kSequenceMask : UInt32 := 0x3F

/-- `*it`, promoted to an `int`. -/
def byteAt (ustr : Bytes) (it : Nat) : UInt32 := (ustr.getD it 0).toUInt32

/-- The character read at `it` and where the iterator stands after it; nothing if the loop goes on
with `continue`. A byte that leads no sequence leaves the character of the trip before. -/
def readChar (ustr : Bytes) (it : Nat) (currentChar : UInt32) : Option (UInt32 × Nat) :=
  let c := byteAt ustr it
  if c &&& kOneByteMask = kOneByteValue then some (c, it + 1)
  else if c &&& kTwoByteMask = kTwoByteValue then
    if ustr.length - it < 2 then none
    else some ((c &&& ~~~kTwoByteMask) <<< 6 ||| byteAt ustr (it + 1) &&& kSequenceMask, it + 2)
  else if c &&& kThreeByteMask = kThreeByteValue then
    if ustr.length - it < 3 then none
    else some ((c &&& ~~~kThreeByteMask) <<< 12 ||| (byteAt ustr (it + 1) &&& kSequenceMask) <<< 6
      ||| byteAt ustr (it + 2) &&& kSequenceMask, it + 3)
  else if c &&& kFourByteMask = kFourByteValue then
    if ustr.length - it < 4 then none
    else some ((c &&& ~~~kFourByteMask) <<< 18 ||| (byteAt ustr (it + 1) &&& kSequenceMask) <<< 12
      ||| (byteAt ustr (it + 2) &&& kSequenceMask) <<< 6
      ||| byteAt ustr (it + 3) &&& kSequenceMask, it + 4)
  else some (currentChar, it)

/-- The width of a character; `wcwidth` answers -1 for one that is not printable. -/
def characterWidth (wcwidth : UInt32 → Int) (c : UInt32) : Int :=
  if wcwidth c = -1 then 0 else wcwidth c

/-- `characters_.push_back` and the addition to `total_width_`. -/
def Utf8WidthInformation.push (info : Utf8WidthInformation) (pos : Nat) (width : Int) :
    Utf8WidthInformation :=
  { characters := info.characters ++ [⟨pos, width⟩]
    totalWidth := info.totalWidth + UInt64.ofInt width }

/-- What the loop keeps from one trip to the next. -/
structure Scan where
  it : Nat := 0
  currentChar : UInt32 := 0
  info : Utf8WidthInformation := {}
deriving DecidableEq, Repr

/-- The body of the loop. -/
def scanTrip (wcwidth : UInt32 → Int) (ustr : Bytes) (s : Scan) : Scan :=
  match readChar ustr s.it s.currentChar with
  | none => s
  | some (c, it) => ⟨it, c, s.info.push s.it (characterWidth wcwidth c)⟩

def scanLoop (wcwidth : UInt32 → Int) (ustr : Bytes) : Nat → Scan → Option Utf8WidthInformation
  | 0, _ => none
  | fuel + 1, s =>
    if s.it = ustr.length then some s.info else scanLoop wcwidth ustr fuel (scanTrip wcwidth ustr s)

/-- `Utf8WidthInformation::ForString`; nothing if the loop does not end. A trip that does not move
the iterator is followed by such trips only, so the fuel is enough (`forString_eq_some_iff`). -/
def forString (wcwidth : UInt32 → Int) (str : Bytes) : Option Utf8WidthInformation :=
  scanLoop wcwidth str (str.length + 1) {}

/-! ## One trip -/

theorem lead_masks (b : UInt8) :
    (b.toUInt32 &&& kOneByteMask = kOneByteValue ↔ b.toNat < 0x80) ∧
    (b.toUInt32 &&& kTwoByteMask = kTwoByteValue ↔ 0xC0 ≤ b.toNat ∧ b.toNat < 0xE0) ∧
    (b.toUInt32 &&& kThreeByteMask = kThreeByteValue ↔ 0xE0 ≤ b.toNat ∧ b.toNat < 0xF0) ∧
    (b.toUInt32 &&& kFourByteMask = kFourByteValue ↔ 0xF0 ≤ b.toNat ∧ b.toNat < 0xF8) := by
  have hb : b = UInt8.ofNat b.toNat := (UInt8.ofNat_toNat).symm
  have hlt := b.toNat_lt
  rw [hb]
  generalize b.toNat = n at hlt
  revert n
  decide +kernel

/-- A trip reads a whole sequence; where none begins or it is cut off, the iterator stays. -/
theorem readChar_cases {ustr : Bytes} {it : Nat} (h : it < ustr.length) (currentChar : UInt32) :
    (∃ n c, Utf8.sequenceLength ustr[it] = some n ∧ it + n ≤ ustr.length ∧
      readChar ustr it currentChar = some (c, it + n)) ∨
    ((∀ n, Utf8.sequenceLength ustr[it] = some n → ustr.length < it + n) ∧
      (readChar ustr it currentChar = none ∨
        readChar ustr it currentChar = some (currentChar, it))) := by
  obtain ⟨h1, h2, h3, h4⟩ := lead_masks ustr[it]
  have hbyte : byteAt ustr it = ustr[it].toUInt32 := by
    rw [byteAt, List.getD_eq_getElem?_getD, List.getElem?_eq_getElem h, Option.getD_some]
  unfold readChar Utf8.sequenceLength
  simp only [hbyte, h1, h2, h3, h4]
  grind

theorem isSequence_take {ustr : Bytes} {it n : Nat} (h : it < ustr.length)
    (hn : Utf8.sequenceLength ustr[it] = some n) (hle : it + n ≤ ustr.length) :
    Utf8.IsSequence ((ustr.drop it).take n) ∧ ((ustr.drop it).take n).length = n := by
  have hlen : ((ustr.drop it).take n).length = n := by
    rw [List.length_take, List.length_drop]
    omega
  obtain ⟨m, rfl⟩ := Nat.exists_eq_add_one.2 (Utf8.sequenceLength_pos hn)
  refine ⟨⟨ustr[it], (ustr.drop (it + 1)).take m, ?_, ?_⟩, hlen⟩
  · rw [List.drop_eq_getElem_cons h, List.take_succ_cons]
  · rw [hn, List.length_take, List.length_drop]
    congr 1
    omega

theorem eq_getElem_of_isSequence {ustr p : Bytes} {it : Nat} (h : it < ustr.length)
    (hp : Utf8.IsSequence p) (hpre : p <+: ustr.drop it) :
    Utf8.sequenceLength ustr[it] = some p.length ∧ it + p.length ≤ ustr.length := by
  obtain ⟨b, bs, rfl, hlen⟩ := hp
  rw [List.drop_eq_getElem_cons h, List.cons_prefix_cons] at hpre
  obtain ⟨rfl, hbs⟩ := hpre
  refine ⟨hlen, ?_⟩
  have hle := hbs.length_le
  rw [List.length_drop] at hle
  rw [List.length_cons]
  omega

/-- Where a sequence begins, a trip moves the iterator past it; elsewhere it does not move it. -/
theorem scanTrip_cases {ustr : Bytes} {s : Scan} (h : s.it < ustr.length)
    (wcwidth : UInt32 → Int) :
    (∃ p, p <+: ustr.drop s.it ∧ Utf8.IsSequence p ∧
      (scanTrip wcwidth ustr s).it = s.it + p.length) ∨
    ((∀ p, p <+: ustr.drop s.it → ¬ Utf8.IsSequence p) ∧
      (scanTrip wcwidth ustr s).it = s.it) := by
  rcases readChar_cases h s.currentChar with ⟨n, c, hn, hle, hread⟩ | ⟨hstays, hread⟩
  · obtain ⟨hp, hlen⟩ := isSequence_take h hn hle
    refine .inl ⟨_, List.take_prefix n _, hp, ?_⟩
    rw [scanTrip, hread, hlen]
  · refine .inr ⟨fun p hpre hp => ?_, ?_⟩
    · obtain ⟨hn, hle⟩ := eq_getElem_of_isSequence h hp hpre
      have hlt := hstays _ hn
      omega
    · rcases hread with hread | hread <;> rw [scanTrip, hread]

/-- In front of a sequence, a trip takes it. -/
theorem scanTrip_append {ustr p t : Bytes} {s : Scan} (hp : Utf8.IsSequence p)
    (h : ustr.drop s.it = p ++ t) (wcwidth : UInt32 → Int) :
    (scanTrip wcwidth ustr s).it = s.it + p.length ∧
    s.it + p.length ≤ ustr.length ∧ ustr.drop (s.it + p.length) = t := by
  have hlen := congrArg List.length h
  rw [List.length_drop, List.length_append] at hlen
  have hpos := hp.length_pos
  have hlt : s.it < ustr.length := by omega
  have hpre : p <+: ustr.drop s.it := h ▸ List.prefix_append p t
  refine ⟨?_, by omega, by rw [← List.drop_drop, h, List.drop_left]⟩
  rcases scanTrip_cases hlt wcwidth with ⟨q, hq, hqs, hit⟩ | ⟨hno, _⟩
  · have hp' := (eq_getElem_of_isSequence hlt hp hpre).1
    rw [(eq_getElem_of_isSequence hlt hqs hq).1, Option.some_inj] at hp'
    rw [hit, hp']
  · exact absurd hp (hno p hpre)

/-! ## The whole loop -/

/-- The states in which the loop tests its condition. -/
inductive ScanHead (wcwidth : UInt32 → Int) (ustr : Bytes) : Scan → Prop
  | start : ScanHead wcwidth ustr {}
  | trip {s : Scan} : ScanHead wcwidth ustr s → s.it ≠ ustr.length →
      ScanHead wcwidth ustr (scanTrip wcwidth ustr s)

/-- The loop ends, and every trip moves the iterator forward and not past the end. -/
structure ScanProgress (wcwidth : UInt32 → Int) (ustr : Bytes) : Prop where
  ends : ∃ fuel info, scanLoop wcwidth ustr fuel {} = some info
  forward : ∀ s, ScanHead wcwidth ustr s → s.it ≠ ustr.length →
    s.it < (scanTrip wcwidth ustr s).it ∧ (scanTrip wcwidth ustr s).it ≤ ustr.length

/-- The loop takes what is left apart into sequences, if it comes to its end. -/
theorem leadAligned_of_scanLoop {wcwidth : UInt32 → Int} {ustr : Bytes} {fuel : Nat} {s : Scan}
    {info : Utf8WidthInformation} (hle : s.it ≤ ustr.length)
    (h : scanLoop wcwidth ustr fuel s = some info) : Utf8.LeadAligned (ustr.drop s.it) := by
  induction fuel generalizing s with
  | zero => cases h
  | succ fuel ih =>
    rw [scanLoop] at h
    split at h
    · next hend =>
      rw [hend, List.drop_length]
      exact Utf8.leadAligned_nil
    · next hne =>
      have hlt : s.it < ustr.length := by omega
      rcases scanTrip_cases hlt wcwidth with ⟨p, ⟨t, ht⟩, hp, _⟩ | ⟨_, hit⟩
      · obtain ⟨hit, hle', hdrop⟩ := scanTrip_append hp ht.symm wcwidth
        have hrest := ih (hit ▸ hle') h
        rw [hit, hdrop] at hrest
        exact ht ▸ hp.append hrest
      · have hrest := ih (by omega) h
        rwa [hit] at hrest

/-- In front of sequences, the loop ends within a trip for each byte. -/
theorem scanLoop_of_leadAligned {wcwidth : UInt32 → Int} {ustr : Bytes} {fuel : Nat} {s : Scan}
    (hle : s.it ≤ ustr.length) (h : Utf8.LeadAligned (ustr.drop s.it))
    (hfuel : ustr.length - s.it < fuel) : ∃ info, scanLoop wcwidth ustr fuel s = some info := by
  induction fuel generalizing s with
  | zero => omega
  | succ fuel ih =>
    rw [scanLoop]
    split
    · exact ⟨s.info, rfl⟩
    · next hne =>
      rcases h.eq_nil_or_append with hnil | ⟨p, t, ht, hp, hrest⟩
      · have hlen := List.drop_eq_nil_iff.1 hnil
        omega
      · obtain ⟨hit, hle', hdrop⟩ := scanTrip_append hp ht wcwidth
        have hpos := hp.length_pos
        rw [← hdrop, ← hit] at hrest
        exact ih (hit ▸ hle') hrest (by omega)

theorem ScanHead.leadAligned {wcwidth : UInt32 → Int} {ustr : Bytes} {s : Scan}
    (h : ScanHead wcwidth ustr s) (hustr : Utf8.LeadAligned ustr) :
    s.it ≤ ustr.length ∧ Utf8.LeadAligned (ustr.drop s.it) := by
  induction h with
  | start => exact ⟨Nat.zero_le _, hustr⟩
  | @trip s _ hne ih =>
    obtain ⟨hle, haligned⟩ := ih
    rcases haligned.eq_nil_or_append with hnil | ⟨p, t, ht, hp, hrest⟩
    · have hlen := List.drop_eq_nil_iff.1 hnil
      omega
    · obtain ⟨hit, hle', hdrop⟩ := scanTrip_append hp ht wcwidth
      rw [hit, hdrop]
      exact ⟨hle', hrest⟩

/-- The loop ends exactly on the strings that announced sequences make up. -/
theorem forString_eq_some_iff {wcwidth : UInt32 → Int} {ustr : Bytes} :
    (∃ info, forString wcwidth ustr = some info) ↔ Utf8.LeadAligned ustr := by
  constructor
  · rintro ⟨info, h⟩
    exact leadAligned_of_scanLoop (s := {}) (Nat.zero_le _) h
  · intro h
    exact scanLoop_of_leadAligned (s := {}) (Nat.zero_le _) h (Nat.lt_succ_self _)

theorem scanProgress_iff {wcwidth : UInt32 → Int} {ustr : Bytes} :
    ScanProgress wcwidth ustr ↔ Utf8.LeadAligned ustr := by
  constructor
  · intro h
    obtain ⟨fuel, info, hends⟩ := h.ends
    exact leadAligned_of_scanLoop (s := {}) (Nat.zero_le _) hends
  · intro h
    refine ⟨⟨ustr.length + 1, forString_eq_some_iff.2 h⟩, fun s hs hne => ?_⟩
    obtain ⟨hle, haligned⟩ := hs.leadAligned h
    rcases haligned.eq_nil_or_append with hnil | ⟨p, t, ht, hp, _⟩
    · have hlen := List.drop_eq_nil_iff.1 hnil
      omega
    · obtain ⟨hit, hle', _⟩ := scanTrip_append hp ht wcwidth
      have hpos := hp.length_pos
      omega

/-- A `wcwidth` for Latin scripts and wide ones. -/
def latinWcwidth (c : UInt32) : Int :=
  if c = 0 then 0
  else if c < 0x20 ∨ (0x7F ≤ c ∧ c < 0xA0) then -1
  else if 0x300 ≤ c ∧ c < 0x370 then 0
  else if (0x1100 ≤ c ∧ c < 0x1160) ∨ (0x2E80 ≤ c ∧ c < 0xFE00) then 2
  else 1

theorem latinWcwidth_bounds (c : UInt32) : -1 ≤ latinWcwidth c ∧ latinWcwidth c ≤ 2 := by
  unfold latinWcwidth
  grind

/-- The scan of `caf` and a Latin-1 `é` never ends. -/
theorem latin1_scan_stuck :
    forString latinWcwidth (text "caf" ++ [0xE9]) = none ∧
    ¬ ScanProgress latinWcwidth (text "caf" ++ [0xE9]) := by
  refine ⟨by decide, fun h => ?_⟩
  have hhead : ScanHead latinWcwidth (text "caf" ++ [0xE9]) _ :=
    .trip (.trip (.trip .start (by decide)) (by decide)) (by decide)
  exact absurd (h.forward _ hhead (by decide)).1 (by decide)

/-! ## Encodings -/

theorem byteAt_drop (ustr : Bytes) (it k : Nat) :
    byteAt ustr (it + k) = byteAt (ustr.drop it) k := by
  rw [byteAt, byteAt, List.getD_eq_getElem?_getD, List.getD_eq_getElem?_getD, List.getElem?_drop]

/-- A trip in front of an encoded character reads that character. -/
theorem readChar_encodeChar {ustr t : Bytes} {it : Nat} {c : Char}
    (h : ustr.drop it = String.utf8EncodeChar c ++ t) (currentChar : UInt32) :
    readChar ustr it currentChar = some (c.val, it + (String.utf8EncodeChar c).length) := by
  have hlen := congrArg List.length h
  have hval : c.val = UInt32.ofNat c.val.toNat := UInt32.ofNat_toNat.symm
  have hshape := Utf8.encodeChar_shape c
  have hbyte : ∀ k, byteAt ustr (it + k) = byteAt (String.utf8EncodeChar c ++ t) k :=
    fun k => h ▸ byteAt_drop ustr it k
  have h0 := hbyte 0
  have h1 := hbyte 1
  have h2 := hbyte 2
  have h3 := hbyte 3
  rw [List.length_drop, List.length_append] at hlen
  rw [hval]
  generalize c.val.toNat = v, String.utf8EncodeChar c = bytes at hshape hlen h0 h1 h2 h3
  unfold readChar
  cases hshape with
  | one hx =>
    obtain ⟨m1, -⟩ := lead_masks (UInt8.ofNat v)
    rw [UInt8.toNat_ofNat'] at m1
    change byteAt ustr it = (UInt8.ofNat v).toUInt32 at h0
    have hbyte : v < UInt8.size := Nat.lt_trans hx (by decide)
    rw [h0, if_pos (m1.2 (by omega)), List.length_singleton, UInt8.toUInt32_ofNat' hbyte]
  | @two x y hx hy =>
    obtain ⟨m1, m2, -⟩ := lead_masks (UInt8.ofNat (x + 0xC0))
    rw [UInt8.toNat_ofNat'] at m1 m2
    change byteAt ustr it = (UInt8.ofNat (x + 0xC0)).toUInt32 at h0
    change byteAt ustr (it + 1) = (UInt8.ofNat (y + 0x80)).toUInt32 at h1
    change _ = 2 + _ at hlen
    rw [h0, h1, if_neg (m1.not.2 (by omega)), if_pos (m2.2 (by omega)), if_neg (by omega),
      kTwoByteMask, kSequenceMask, Utf8.lead_two_digit hx, Utf8.continuation_digit hy,
      Utf8.two_digits x hy]
    rfl
  | @three x y z hx hy hz =>
    obtain ⟨m1, m2, m3, -⟩ := lead_masks (UInt8.ofNat (x + 0xE0))
    rw [UInt8.toNat_ofNat'] at m1 m2 m3
    change byteAt ustr it = (UInt8.ofNat (x + 0xE0)).toUInt32 at h0
    change byteAt ustr (it + 1) = (UInt8.ofNat (y + 0x80)).toUInt32 at h1
    change byteAt ustr (it + 2) = (UInt8.ofNat (z + 0x80)).toUInt32 at h2
    change _ = 3 + _ at hlen
    rw [h0, h1, h2, if_neg (m1.not.2 (by omega)), if_neg (m2.not.2 (by omega)),
      if_pos (m3.2 (by omega)), if_neg (by omega), kThreeByteMask, kSequenceMask,
      Utf8.lead_three_digit hx, Utf8.continuation_digit hy, Utf8.continuation_digit hz,
      Utf8.three_digits x hy hz]
    rfl
  | @four x y z w hx hy hz hw =>
    obtain ⟨m1, m2, m3, m4⟩ := lead_masks (UInt8.ofNat (x + 0xF0))
    rw [UInt8.toNat_ofNat'] at m1 m2 m3 m4
    change byteAt ustr it = (UInt8.ofNat (x + 0xF0)).toUInt32 at h0
    change byteAt ustr (it + 1) = (UInt8.ofNat (y + 0x80)).toUInt32 at h1
    change byteAt ustr (it + 2) = (UInt8.ofNat (z + 0x80)).toUInt32 at h2
    change byteAt ustr (it + 3) = (UInt8.ofNat (w + 0x80)).toUInt32 at h3
    change _ = 4 + _ at hlen
    rw [h0, h1, h2, h3, if_neg (m1.not.2 (by omega)), if_neg (m2.not.2 (by omega)),
      if_neg (m3.not.2 (by omega)), if_pos (m4.2 (by omega)), if_neg (by omega), kFourByteMask,
      kSequenceMask, Utf8.lead_four_digit hx, Utf8.continuation_digit hy,
      Utf8.continuation_digit hz, Utf8.continuation_digit hw, Utf8.four_digits x hy hz hw]
    rfl

/-- The columns that some characters take. -/
def columns (wcwidth : UInt32 → Int) (cs : List Char) : Int :=
  (cs.map fun c => characterWidth wcwidth c.val).sum

@[simp] theorem columns_nil (wcwidth : UInt32 → Int) : columns wcwidth [] = 0 := rfl

@[simp] theorem columns_cons (wcwidth : UInt32 → Int) (c : Char) (cs : List Char) :
    columns wcwidth (c :: cs) = characterWidth wcwidth c.val + columns wcwidth cs := rfl

theorem columns_append (wcwidth : UInt32 → Int) (cs ds : List Char) :
    columns wcwidth (cs ++ ds) = columns wcwidth cs + columns wcwidth ds := by
  rw [columns, List.map_append, List.sum_append]
  rfl

/-- The information about some characters whose encoding begins at an offset. -/
def characterInfos (wcwidth : UInt32 → Int) : Nat → List Char → List CharacterInfo
  | _, [] => []
  | pos, c :: cs => ⟨pos, characterWidth wcwidth c.val⟩ ::
      characterInfos wcwidth (pos + (String.utf8EncodeChar c).length) cs

@[simp] theorem length_characterInfos (wcwidth : UInt32 → Int) (pos : Nat) (cs : List Char) :
    (characterInfos wcwidth pos cs).length = cs.length := by
  induction cs generalizing pos with
  | nil => rfl
  | cons c cs ih => rw [characterInfos, List.length_cons, ih, List.length_cons]

theorem characterInfos_append (wcwidth : UInt32 → Int) (pos : Nat) (cs ds : List Char) :
    characterInfos wcwidth pos (cs ++ ds) =
      characterInfos wcwidth pos cs ++ characterInfos wcwidth (pos + (Utf8.encode cs).length) ds := by
  induction cs generalizing pos with
  | nil => rfl
  | cons c cs ih =>
    rw [List.cons_append, characterInfos, ih, characterInfos, Utf8.encode_cons, List.length_append,
      List.cons_append, Nat.add_assoc]

theorem getElem?_characterInfos (wcwidth : UInt32 → Int) (before : List Char) (c : Char)
    (after : List Char) :
    (characterInfos wcwidth 0 (before ++ c :: after))[before.length]? =
      some ⟨(Utf8.encode before).length, characterWidth wcwidth c.val⟩ := by
  have hlen := length_characterInfos wcwidth 0 before
  rw [characterInfos_append, characterInfos, List.getElem?_append_right (hlen ▸ Nat.le_refl _),
    hlen, Nat.sub_self, List.getElem?_cons_zero, Nat.zero_add]

/-- In front of an encoding, the loop adds the information about its characters. -/
theorem scanLoop_encode (wcwidth : UInt32 → Int) {ustr : Bytes} {cs : List Char} {s : Scan}
    {fuel : Nat} (hle : s.it ≤ ustr.length) (h : ustr.drop s.it = Utf8.encode cs)
    (hfuel : cs.length < fuel) :
    scanLoop wcwidth ustr fuel s = some
      ⟨s.info.characters ++ characterInfos wcwidth s.it cs,
        s.info.totalWidth + UInt64.ofInt (columns wcwidth cs)⟩ := by
  induction cs generalizing s fuel with
  | nil =>
    obtain ⟨fuel, rfl⟩ := Nat.exists_eq_add_one.2 hfuel
    have hend : s.it = ustr.length := Nat.le_antisymm hle (List.drop_eq_nil_iff.1 h)
    have hzero : UInt64.ofInt 0 = 0 := rfl
    rw [scanLoop, if_pos hend, characterInfos, List.append_nil, columns_nil, hzero,
      UInt64.add_zero]
  | cons c cs ih =>
    obtain ⟨fuel, rfl⟩ := Nat.exists_eq_add_one.2 (Nat.zero_lt_of_lt hfuel)
    rw [Utf8.encode_cons] at h
    have hread := readChar_encodeChar h s.currentChar
    have hpos := (Utf8.isSequence_encodeChar c).length_pos
    obtain ⟨hit, hle', hdrop⟩ := scanTrip_append (Utf8.isSequence_encodeChar c) h wcwidth
    rw [scanLoop, if_neg (by omega), ih (hit ▸ hle') (hit ▸ hdrop) (Nat.lt_of_succ_lt_succ hfuel)]
    simp only [scanTrip, hread, Utf8WidthInformation.push, characterInfos, columns_cons,
      UInt64.ofInt_add, List.append_assoc, List.singleton_append, UInt64.add_assoc]

theorem forString_eq (wcwidth : UInt32 → Int) (cs : List Char) :
    forString wcwidth (Utf8.encode cs) =
      some ⟨characterInfos wcwidth 0 cs, UInt64.ofInt (columns wcwidth cs)⟩ := by
  have hfuel := Nat.lt_succ_of_le (Utf8.length_le_length_encode cs)
  have h := scanLoop_encode wcwidth (s := {}) (Nat.zero_le _) List.drop_zero hfuel
  rw [forString, h, List.nil_append, UInt64.zero_add]

theorem columns_nonneg {wcwidth : UInt32 → Int} (hw : ∀ c, -1 ≤ wcwidth c) (cs : List Char) :
    0 ≤ columns wcwidth cs := by
  induction cs with
  | nil => exact Int.le_refl 0
  | cons c cs ih =>
    have hc := hw c.val
    rw [columns_cons, characterWidth]
    grind

/-- The scan finds the characters of an encoding, each with its offset and its width. The total is
a `size_t`. -/
theorem forString_encode {wcwidth : UInt32 → Int} (hw : ∀ c, -1 ≤ wcwidth c) (cs : List Char) :
    ∃ info, forString wcwidth (Utf8.encode cs) = some info ∧
      info.characters.length = cs.length ∧
      (∀ before c after, cs = before ++ c :: after →
        info.characters[before.length]? =
          some ⟨(Utf8.encode before).length, if wcwidth c.val = -1 then 0 else wcwidth c.val⟩) ∧
      (info.totalWidth.toNat : Int) = columns wcwidth cs % 2 ^ 64 ∧
      (columns wcwidth cs < 2 ^ 64 → (info.totalWidth.toNat : Int) = columns wcwidth cs) := by
  have htotal := toNat_ofInt (columns wcwidth cs)
  have hnonneg := columns_nonneg hw cs
  refine ⟨_, forString_eq wcwidth cs, length_characterInfos wcwidth 0 cs, ?_, htotal, fun hlt => ?_⟩
  · rintro before c after rfl
    exact getElem?_characterInfos wcwidth before c after
  · rw [htotal]
    omega

theorem forString_encode_latin :
    (∀ c, -1 ≤ latinWcwidth c) ∧
    ∃ info, forString latinWcwidth (Utf8.encode ['é', '語']) = some info ∧
      info.characters.length = 2 ∧
      (∀ before c after, ['é', '語'] = before ++ c :: after →
        info.characters[before.length]? = some ⟨(Utf8.encode before).length,
          if latinWcwidth c.val = -1 then 0 else latinWcwidth c.val⟩) ∧
      (info.totalWidth.toNat : Int) = columns latinWcwidth ['é', '語'] % 2 ^ 64 ∧
      (columns latinWcwidth ['é', '語'] < 2 ^ 64 →
        (info.totalWidth.toNat : Int) = columns latinWcwidth ['é', '語']) :=
  ⟨fun c => (latinWcwidth_bounds c).1,
    forString_encode (fun c => (latinWcwidth_bounds c).1) ['é', '語']⟩

end Netpull
