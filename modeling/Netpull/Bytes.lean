import Mathlib.Algebra.Group.Int.Defs
import Mathlib.Data.List.TakeWhile

/-!
# Byte strings

`std::string` and `std::string_view` values are lists of bytes. A `std::string` may hold NUL
bytes; passing its `data()` where a C string is expected cuts it at the first one (`cstr`).
-/

namespace Netpull

/-- A `std::string` or `std::string_view`. -/
abbrev Bytes := List UInt8

/-- The bytes of an ASCII literal of the source. -/
def text (s : String) : Bytes := s.toList.map Char.toUInt8

/-- The `'/'` of a path. -/
def slash : UInt8 := 47

/-- The end of a line of a log. -/
def newline : UInt8 := 10

/-- What a callee that takes a C string sees of a string. -/
def cstr (s : Bytes) : Bytes := s.takeWhile (· ≠ 0)

theorem cstr_eq_self {s : Bytes} (h : 0 ∉ s) : cstr s = s := by
  unfold cstr
  rw [List.takeWhile_eq_self_iff]
  intro b hb
  have hne : b ≠ 0 := fun e => h (e ▸ hb)
  simpa using hne

/-- `absl::StartsWith`. -/
def startsWith (s p : Bytes) : Bool := p.isPrefixOf s

/-- `absl::EndsWith`. -/
def endsWith (s p : Bytes) : Bool := p.isSuffixOf s

theorem startsWith_iff {s p : Bytes} : startsWith s p = true ↔ p <+: s :=
  List.isPrefixOf_iff_prefix

theorem endsWith_iff {s p : Bytes} : endsWith s p = true ↔ p <:+ s :=
  List.isSuffixOf_iff_suffix

theorem endsWith_append {s t p : Bytes} (h : p.length ≤ t.length) :
    endsWith (s ++ t) p = endsWith t p := by
  rw [Bool.eq_iff_iff, endsWith_iff, endsWith_iff]
  exact ⟨fun hp => List.suffix_of_suffix_length_le hp (List.suffix_append s t) h,
    fun hp => hp.trans (List.suffix_append s t)⟩

theorem endsWith_singleton_of_not_mem {s : Bytes} {b : UInt8} (h : b ∉ s) :
    endsWith s [b] = false := by
  rw [Bool.eq_false_iff, ne_eq, endsWith_iff]
  exact fun hs => h (hs.subset (List.mem_singleton_self b))

@[simp] theorem startsWith_append (p s : Bytes) : startsWith (p ++ s) p = true :=
  startsWith_iff.2 (List.prefix_append p s)

/-! ## Integers -/

/-- The sum of two `int`s; nothing if it overflows. -/
def addInt (x y : Int) : Option Int := if -2 ^ 31 ≤ x + y ∧ x + y < 2 ^ 31 then some (x + y) else none

theorem addInt_eq_some {x y z : Int} :
    addInt x y = some z ↔ (-2 ^ 31 ≤ x + y ∧ x + y < 2 ^ 31) ∧ x + y = z := by
  unfold addInt
  split
  · next h => exact ⟨fun hz => ⟨h, Option.some.inj hz⟩, fun hz => congrArg some hz.2⟩
  · next h => exact ⟨fun hz => (nomatch hz), fun hz => absurd hz.1 h⟩

theorem toNat_ofInt (n : Int) : ((UInt64.ofInt n).toNat : Int) = n % 2 ^ 64 := by
  rw [UInt64.ofInt, UInt64.toNat_ofNat']
  omega

/-! ## Faults -/

/-- How a call of the program can bring the process down: a failed `NETPULL_ASSERT` aborts it
with the message, and a `std::out_of_range` that nobody catches terminates it. -/
inductive Fault
  | assertion (message : Bytes)
  | outOfRange
deriving DecidableEq, Repr

@[simp] theorem ok_bind {α β : Type} (a : α) (f : α → Except Fault β) :
    (Except.ok a >>= f) = f a := rfl

@[simp] theorem error_bind {α β : Type} (e : Fault) (f : α → Except Fault β) :
    (Except.error e >>= f) = .error e := rfl

/-- `std::string::substr(pos)` and `std::string_view::substr(pos)`. -/
def substr (s : Bytes) (pos : Nat) : Except Fault Bytes :=
  if pos ≤ s.length then .ok (s.drop pos) else .error .outOfRange

theorem substr_eq_ok {s : Bytes} {pos : Nat} (h : pos ≤ s.length) :
    substr s pos = .ok (s.drop pos) :=
  if_pos h

theorem substr_eq_error {s : Bytes} {pos : Nat} (h : s.length < pos) :
    substr s pos = .error .outOfRange :=
  if_neg (Nat.not_le.2 h)

/-- `NETPULL_ASSERT(cond, message)`. -/
def netpullAssert (cond : Bool) (message : Bytes) : Except Fault Unit :=
  if cond then .ok () else .error (.assertion message)

@[simp] theorem netpullAssert_true (message : Bytes) : netpullAssert true message = .ok () := rfl

end Netpull
