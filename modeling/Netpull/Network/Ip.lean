import Mathlib.Tactic.Linarith
import Mathlib.Tactic.Positivity
import Mathlib.Tactic.Ring
import Netpull.Bytes

/-!
# IP addresses

IPv4 addresses and the ranges the server admits or denies. An address whose parts are octets has a
value, its parts as the digits of a number to base 256; the comparisons of addresses are those of
their values.
-/

namespace Netpull

/-- `IpAddress`: the four parts from the left. -/
structure IpAddress where
  a : Int
  b : Int
  c : Int
  d : Int
deriving DecidableEq, Repr

namespace IpAddress

def parts (ip : IpAddress) : List Int := [ip.a, ip.b, ip.c, ip.d]

/-- The loop of `IpAddress::GenericLessThan`, from one pair of parts on. -/
def lessThanFrom (orEqualTo : Bool) : List (Int × Int) → Bool
  | [] => true
  | (p, q) :: rest =>
    if p < q then true
    else if p > q || (rest.isEmpty && !orEqualTo && p == q) then false
    else lessThanFrom orEqualTo rest

/-- `IpAddress::GenericLessThan`. -/
def genericLessThan (self other : IpAddress) (orEqualTo : Bool) : Bool :=
  lessThanFrom orEqualTo (self.parts.zip other.parts)

/-- `IpAddress::operator<=`. -/
def le (self other : IpAddress) : Bool := self.genericLessThan other true

/-- `IpAddress::operator<`. -/
def lt (self other : IpAddress) : Bool := self.genericLessThan other false

/-- `IpAddress::operator>`. -/
def gt (self other : IpAddress) : Bool := !self.le other

/-- `IpAddress::operator>=`. -/
def ge (self other : IpAddress) : Bool := !self.lt other

/-- All parts are octets. -/
def Octets (ip : IpAddress) : Prop := ∀ p ∈ ip.parts, 0 ≤ p ∧ p < 256

instance (ip : IpAddress) : Decidable ip.Octets :=
  inferInstanceAs (Decidable (∀ p ∈ ip.parts, 0 ≤ p ∧ p < 256))

/-- The parts as digits to base 256, from the left. -/
def radix : List Int → Int
  | [] => 0
  | p :: ps => p * 256 ^ ps.length + radix ps

/-- The address as a big-endian 32-bit number. -/
def value (ip : IpAddress) : Int := radix ip.parts

theorem radix_bounds {ps : List Int} (h : ∀ p ∈ ps, 0 ≤ p ∧ p < 256) :
    0 ≤ radix ps ∧ radix ps < 256 ^ ps.length := by
  induction ps with
  | nil => exact ⟨le_rfl, by decide⟩
  | cons p ps ih =>
    obtain ⟨hlow, hhigh⟩ := ih fun q hq => h q (List.mem_cons_of_mem p hq)
    obtain ⟨hp, hp'⟩ := h p List.mem_cons_self
    have hpow : (0 : Int) < 256 ^ ps.length := by positivity
    rw [radix, List.length_cons, pow_succ]
    constructor
    · positivity
    · nlinarith

/-- Numbers of one length compare by their first digits, if these differ. -/
theorem radix_lt_of_lt {p q : Int} {ps qs : List Int} (hps : ∀ p ∈ ps, 0 ≤ p ∧ p < 256)
    (hqs : ∀ q ∈ qs, 0 ≤ q ∧ q < 256) (hlen : ps.length = qs.length) (h : p < q) :
    radix (p :: ps) < radix (q :: qs) := by
  have hpow : (0 : Int) < 256 ^ qs.length := by positivity
  have hp := radix_bounds hps
  have hq := radix_bounds hqs
  rw [hlen] at hp
  rw [radix, radix, hlen]
  nlinarith

/-- The loop compares the numbers that the parts denote. The invariant is that all pairs before
this one are equal. -/
theorem lessThanFrom_iff (orEqualTo : Bool) {ps qs : List Int} (hps : ∀ p ∈ ps, 0 ≤ p ∧ p < 256)
    (hqs : ∀ q ∈ qs, 0 ≤ q ∧ q < 256) (hlen : ps.length = qs.length) (hne : ps ≠ []) :
    lessThanFrom orEqualTo (ps.zip qs) = true ↔
      if orEqualTo then radix ps ≤ radix qs else radix ps < radix qs := by
  induction ps generalizing qs with
  | nil => exact absurd rfl hne
  | cons p ps ih =>
    obtain _ | ⟨q, qs⟩ := qs
    · cases hlen
    · have hps' : ∀ p ∈ ps, 0 ≤ p ∧ p < 256 := fun p' hp' => hps p' (List.mem_cons_of_mem p hp')
      have hqs' : ∀ q ∈ qs, 0 ≤ q ∧ q < 256 := fun q' hq' => hqs q' (List.mem_cons_of_mem q hq')
      have hlen' : ps.length = qs.length := Nat.succ.inj hlen
      rw [List.zip_cons_cons, lessThanFrom]
      rcases lt_trichotomy p q with hlt | rfl | hgt
      · have hvalue := radix_lt_of_lt hps' hqs' hlen' hlt
        rw [if_pos hlt]
        split <;> simp [hvalue, hvalue.le]
      · have hstep : radix (p :: ps) - radix (p :: qs) = radix ps - radix qs := by
          rw [radix, radix, hlen']
          omega
        obtain _ | ⟨p', ps⟩ := ps
        · obtain rfl : qs = [] := List.length_eq_zero_iff.1 hlen'.symm
          cases orEqualTo <;> simp [lessThanFrom]
        · obtain _ | ⟨q', qs⟩ := qs
          · cases hlen'
          · have hrest := ih hps' hqs' hlen' (List.cons_ne_nil p' ps)
            rw [if_neg (lt_irrefl p), if_neg (by simp), hrest]
            split <;> omega
      · have hvalue := radix_lt_of_lt hqs' hps' hlen'.symm hgt
        rw [if_neg hgt.not_gt, if_pos (by simp [hgt])]
        split <;> simp [hvalue, hvalue.le]

theorem le_iff {a b : IpAddress} (ha : a.Octets) (hb : b.Octets) :
    a.le b = true ↔ a.value ≤ b.value :=
  lessThanFrom_iff true ha hb rfl (List.cons_ne_nil _ _)

theorem lt_iff {a b : IpAddress} (ha : a.Octets) (hb : b.Octets) :
    a.lt b = true ↔ a.value < b.value :=
  lessThanFrom_iff false ha hb rfl (List.cons_ne_nil _ _)

theorem gt_iff {a b : IpAddress} (ha : a.Octets) (hb : b.Octets) :
    a.gt b = true ↔ b.value < a.value := by
  rw [gt, Bool.not_eq_true', Bool.eq_false_iff, ne_eq, le_iff ha hb, not_le]

theorem ge_iff {a b : IpAddress} (ha : a.Octets) (hb : b.Octets) :
    a.ge b = true ↔ b.value ≤ a.value := by
  rw [ge, Bool.not_eq_true', Bool.eq_false_iff, ne_eq, lt_iff ha hb, not_lt]

theorem value_eq (ip : IpAddress) :
    ip.value = ip.a * 256 ^ 3 + ip.b * 256 ^ 2 + ip.c * 256 + ip.d := by
  simp only [value, parts, radix, List.length_cons, List.length_nil]
  ring

/-- Octets are determined by the value. -/
theorem value_inj {a b : IpAddress} (ha : a.Octets) (hb : b.Octets) :
    a.value = b.value ↔ a = b := by
  constructor
  · intro h
    rw [value_eq, value_eq] at h
    obtain ⟨a1, a2, a3, a4⟩ := a
    obtain ⟨b1, b2, b3, b4⟩ := b
    simp only [Octets, parts, List.forall_mem_cons] at ha hb
    simp only [IpAddress.mk.injEq]
    simp only at h
    omega
  · rintro rfl
    rfl

end IpAddress

/-- `IpRange`. -/
structure IpRange where
  start : IpAddress
  stop : Option IpAddress
deriving DecidableEq, Repr

namespace IpRange

/-- `IpRange::Contains`. -/
def contains (range : IpRange) (ip : IpAddress) : Bool :=
  match range.stop with
  | some stop => range.start.le ip && ip.le stop
  | none => range.start == ip

/-- `IpRange::MultiContains`. -/
def multiContains (ranges : List IpRange) (ip : IpAddress) : Bool := ranges.any (·.contains ip)

/-- Both ends are made of octets. -/
def Octets (range : IpRange) : Prop :=
  range.start.Octets ∧ ∀ stop ∈ range.stop, stop.Octets

/-- The values of a range: those from its start to its end, or its start alone. -/
def Covers (range : IpRange) (v : Int) : Prop :=
  match range.stop with
  | some stop => range.start.value ≤ v ∧ v ≤ stop.value
  | none => v = range.start.value

theorem contains_iff {range : IpRange} {ip : IpAddress} (hrange : range.Octets)
    (hip : ip.Octets) : range.contains ip = true ↔ range.Covers ip.value := by
  obtain ⟨start, stop⟩ := range
  obtain ⟨hstart, hstop⟩ := hrange
  cases stop with
  | none =>
    simp only [contains, Covers, beq_iff_eq, IpAddress.value_inj hip hstart]
    exact eq_comm
  | some stop =>
    simp only [contains, Covers, Bool.and_eq_true, IpAddress.le_iff hstart hip,
      IpAddress.le_iff hip (hstop stop rfl)]

theorem multiContains_iff {ranges : List IpRange} {ip : IpAddress}
    (hranges : ∀ range ∈ ranges, range.Octets) (hip : ip.Octets) :
    multiContains ranges ip = true ↔ ∃ range ∈ ranges, range.Covers ip.value := by
  rw [multiContains, List.any_eq_true]
  constructor
  · rintro ⟨range, hmem, hcontains⟩
    exact ⟨range, hmem, (contains_iff (hranges range hmem) hip).1 hcontains⟩
  · rintro ⟨range, hmem, hcovers⟩
    exact ⟨range, hmem, (contains_iff (hranges range hmem) hip).2 hcovers⟩

end IpRange

end Netpull
