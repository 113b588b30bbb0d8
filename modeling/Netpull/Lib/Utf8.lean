import Mathlib.Algebra.Group.Nat.Defs
import Mathlib.Data.List.Basic

/-!
# UTF-8

The standard encoding of a list of Unicode scalar values. A lead byte tells how many bytes its
character takes (`sequenceLength`), and a string that consists of such sequences is `LeadAligned`,
whatever the bytes after a lead byte are. `encodeChar_shape` splits an encoding into the digits that
its bytes carry, and `ofNat_or_digit` puts the digits together again.
-/

namespace Netpull.Utf8

/-- The standard UTF-8 encoding of a list of scalar values. -/
def encode (cs : List Char) : List UInt8 := cs.flatMap String.utf8EncodeChar

@[simp] theorem encode_cons (c : Char) (cs : List Char) :
    encode (c :: cs) = String.utf8EncodeChar c ++ encode cs := List.flatMap_cons

theorem encode_append (cs ds : List Char) : encode (cs ++ ds) = encode cs ++ encode ds :=
  List.flatMap_append

/-- How many bytes the character of a lead byte takes; none for a byte that leads no character. -/
def sequenceLength (b : UInt8) : Option Nat :=
  if b.toNat < 0x80 then some 1
  else if b.toNat < 0xC0 then none
  else if b.toNat < 0xE0 then some 2
  else if b.toNat < 0xF0 then some 3
  else if b.toNat < 0xF8 then some 4
  else none

theorem sequenceLength_pos {b : UInt8} {n : Nat} (h : sequenceLength b = some n) : 0 < n := by
  unfold sequenceLength at h
  grind

/-- A lead byte and as many more bytes as it announces. -/
def IsSequence (p : List UInt8) : Prop :=
  ∃ b bs, p = b :: bs ∧ sequenceLength b = some (bs.length + 1)

/-- A string that sequences make up. -/
def LeadAligned (s : List UInt8) : Prop :=
  ∃ ps : List (List UInt8), s = ps.flatten ∧ ∀ p ∈ ps, IsSequence p

theorem IsSequence.length_pos {p : List UInt8} (h : IsSequence p) : 0 < p.length := by
  obtain ⟨b, bs, rfl, _⟩ := h
  exact Nat.succ_pos _

theorem leadAligned_nil : LeadAligned [] := ⟨[], rfl, fun _ hp => nomatch hp⟩

theorem IsSequence.append {p s : List UInt8} (hp : IsSequence p) (hs : LeadAligned s) :
    LeadAligned (p ++ s) := by
  obtain ⟨ps, rfl, hps⟩ := hs
  exact ⟨p :: ps, rfl, List.forall_mem_cons.2 ⟨hp, hps⟩⟩

/-- Where a string of sequences goes on, a sequence begins. -/
theorem LeadAligned.eq_nil_or_append {s : List UInt8} (h : LeadAligned s) :
    s = [] ∨ ∃ p t, s = p ++ t ∧ IsSequence p ∧ LeadAligned t := by
  obtain ⟨ps, rfl, hps⟩ := h
  cases ps with
  | nil => exact .inl rfl
  | cons p ps =>
    obtain ⟨hp, hps⟩ := List.forall_mem_cons.1 hps
    exact .inr ⟨p, ps.flatten, List.flatten_cons, hp, ps, rfl, hps⟩

/-- A scalar value and its encoding, split into the digits that the bytes carry. -/
inductive Shape : Nat → List UInt8 → Prop
  | one {x : Nat} : x < 128 → Shape x [UInt8.ofNat x]
  | two {x y : Nat} : x < 32 → y < 64 →
      Shape (x * 2 ^ 6 + y) [UInt8.ofNat (x + 0xC0), UInt8.ofNat (y + 0x80)]
  | three {x y z : Nat} : x < 16 → y < 64 → z < 64 →
      Shape ((x * 2 ^ 6 + y) * 2 ^ 6 + z)
        [UInt8.ofNat (x + 0xE0), UInt8.ofNat (y + 0x80), UInt8.ofNat (z + 0x80)]
  | four {x y z w : Nat} : x < 8 → y < 64 → z < 64 → w < 64 →
      Shape (((x * 2 ^ 6 + y) * 2 ^ 6 + z) * 2 ^ 6 + w)
        [UInt8.ofNat (x + 0xF0), UInt8.ofNat (y + 0x80), UInt8.ofNat (z + 0x80),
          UInt8.ofNat (w + 0x80)]

theorem toNat_lt (c : Char) : c.val.toNat < 0x110000 := by
  rcases c.valid with h | h
  · have hlt : c.val.toNat < 0xD800 := h
    omega
  · exact h.2

theorem encodeChar_shape (c : Char) : Shape c.val.toNat (String.utf8EncodeChar c) := by
  have hlt := toNat_lt c
  rw [String.utf8EncodeChar.eq_1]
  generalize c.val.toNat = v at hlt ⊢
  split
  · exact .one (by omega)
  · split
    · have hv : v = v / 64 % 32 * 2 ^ 6 + v % 64 := by omega
      have h := Shape.two (x := v / 64 % 32) (y := v % 64) (by omega) (by omega)
      rwa [← hv] at h
    · split
      · have hv : v = (v / 4096 % 16 * 2 ^ 6 + v / 64 % 64) * 2 ^ 6 + v % 64 := by omega
        have h := Shape.three (x := v / 4096 % 16) (y := v / 64 % 64) (z := v % 64) (by omega)
          (by omega) (by omega)
        rwa [← hv] at h
      · have hv : v = ((v / 262144 % 8 * 2 ^ 6 + v / 4096 % 64) * 2 ^ 6 + v / 64 % 64) * 2 ^ 6
            + v % 64 := by omega
        have h := Shape.four (x := v / 262144 % 8) (y := v / 4096 % 64) (z := v / 64 % 64)
          (w := v % 64) (by omega) (by omega) (by omega) (by omega)
        rwa [← hv] at h

/-- The lead byte of an encoding tells its length. -/
theorem isSequence_encodeChar (c : Char) : IsSequence (String.utf8EncodeChar c) := by
  have hshape := encodeChar_shape c
  generalize c.val.toNat = v, String.utf8EncodeChar c = bytes at hshape
  cases hshape <;>
  · refine ⟨_, _, rfl, ?_⟩
    rw [sequenceLength, UInt8.toNat_ofNat']
    grind

/-- An encoding has a byte for each character at least. -/
theorem length_le_length_encode (cs : List Char) : cs.length ≤ (encode cs).length := by
  induction cs with
  | nil => exact Nat.le_refl _
  | cons c cs ih =>
    have hpos := (isSequence_encodeChar c).length_pos
    rw [encode_cons, List.length_append, List.length_cons]
    omega

/-! ## The digits of a character -/

/-- A digit of `k` bits fills the low bits that a shifted number leaves free. -/
theorem ofNat_or_digit {k d : Nat} (hd : d < 2 ^ k) (a : Nat) :
    UInt32.ofNat (a * 2 ^ k) ||| UInt32.ofNat d = UInt32.ofNat (a * 2 ^ k + d) := by
  rw [← UInt32.ofNat_or, ← Nat.shiftLeft_eq, ← Nat.shiftLeft_add_eq_or_of_lt hd]

theorem ofNat_shiftLeft (k : Nat) (hk : k < 32) (a : Nat) :
    UInt32.ofNat a <<< UInt32.ofNat k = UInt32.ofNat (a * 2 ^ k) := by
  rw [← UInt32.ofNat_shiftLeft a k hk, Nat.shiftLeft_eq]

theorem two_digits (x : Nat) {y : Nat} (hy : y < 64) :
    UInt32.ofNat x <<< 6 ||| UInt32.ofNat y = UInt32.ofNat (x * 2 ^ 6 + y) := by
  have hx : UInt32.ofNat x <<< 6 = UInt32.ofNat (x * 2 ^ 6) := ofNat_shiftLeft 6 (by omega) x
  rw [hx, ofNat_or_digit hy]

theorem three_digits (x : Nat) {y z : Nat} (hy : y < 64) (hz : z < 64) :
    UInt32.ofNat x <<< 12 ||| UInt32.ofNat y <<< 6 ||| UInt32.ofNat z
      = UInt32.ofNat ((x * 2 ^ 6 + y) * 2 ^ 6 + z) := by
  have hx : UInt32.ofNat x <<< 12 = UInt32.ofNat (x * 2 ^ 12) := ofNat_shiftLeft 12 (by omega) x
  have hy' : UInt32.ofNat y <<< 6 = UInt32.ofNat (y * 2 ^ 6) := ofNat_shiftLeft 6 (by omega) y
  have hxy : x * 2 ^ 12 + y * 2 ^ 6 = (x * 2 ^ 6 + y) * 2 ^ 6 := by omega
  rw [hx, hy', ofNat_or_digit (by omega), hxy, ofNat_or_digit hz]

theorem four_digits (x : Nat) {y z w : Nat} (hy : y < 64) (hz : z < 64) (hw : w < 64) :
    UInt32.ofNat x <<< 18 ||| UInt32.ofNat y <<< 12 ||| UInt32.ofNat z <<< 6 ||| UInt32.ofNat w
      = UInt32.ofNat (((x * 2 ^ 6 + y) * 2 ^ 6 + z) * 2 ^ 6 + w) := by
  have hy18 : y * 2 ^ 12 < 2 ^ 18 := by omega
  have hz12 : z * 2 ^ 6 < 2 ^ 12 := by omega
  have hxy : x * 2 ^ 18 + y * 2 ^ 12 = (x * 2 ^ 6 + y) * 2 ^ 12 := by omega
  have hxyz : ∀ u, u * 2 ^ 12 + z * 2 ^ 6 = (u * 2 ^ 6 + z) * 2 ^ 6 := by
    intro u
    rw [Nat.add_mul, Nat.mul_assoc, ← Nat.pow_add]
  have hx : UInt32.ofNat x <<< 18 = UInt32.ofNat (x * 2 ^ 18) := ofNat_shiftLeft 18 (by decide) x
  have hy' : UInt32.ofNat y <<< 12 = UInt32.ofNat (y * 2 ^ 12) :=
    ofNat_shiftLeft 12 (by decide) y
  have hz' : UInt32.ofNat z <<< 6 = UInt32.ofNat (z * 2 ^ 6) := ofNat_shiftLeft 6 (by decide) z
  rw [hx, hy', hz', ofNat_or_digit hy18, hxy, ofNat_or_digit hz12, hxyz, ofNat_or_digit hw]

theorem continuation_digit {y : Nat} (hy : y < 64) :
    (UInt8.ofNat (y + 0x80)).toUInt32 &&& 0x3F = UInt32.ofNat y := by
  revert y
  decide

theorem lead_two_digit {x : Nat} (hx : x < 32) :
    (UInt8.ofNat (x + 0xC0)).toUInt32 &&& ~~~0xE0 = UInt32.ofNat x := by
  revert x
  decide

theorem lead_three_digit {x : Nat} (hx : x < 16) :
    (UInt8.ofNat (x + 0xE0)).toUInt32 &&& ~~~0xF0 = UInt32.ofNat x := by
  revert x
  decide

theorem lead_four_digit {x : Nat} (hx : x < 8) :
    (UInt8.ofNat (x + 0xF0)).toUInt32 &&& ~~~0xF8 = UInt32.ofNat x := by
  revert x
  decide

end Netpull.Utf8
