import Mathlib.Data.Nat.Digits.Lemmas

/-!
# Decimal numerals

Numerals over bytes: `print` writes a number in ASCII digits and `value` reads any digits, leading
zeros too. A reader that stops at the first byte that is no digit finds what was printed
(`takeWhile_append`). `printInt` puts a sign before a negative number.
-/

namespace Netpull.Decimal

/-- `std::isdigit`. -/
def isDigit (b : UInt8) : Bool := 48 ≤ b && b ≤ 57

/-- The number that some digits denote. -/
def value (digits : List UInt8) : Nat := digits.foldl (fun n b => 10 * n + (b.toNat - 48)) 0

/-- The digit of a number below ten. -/
def digit (n : Nat) : UInt8 := UInt8.ofNat (48 + n)

def print (n : Nat) : List UInt8 :=
  if n = 0 then [48] else ((Nat.digits 10 n).map digit).reverse

/-- The number in decimal, with a minus if it is negative. -/
def printInt (n : Int) : List UInt8 := if n < 0 then 45 :: print n.natAbs else print n.natAbs

theorem toNat_digit {n : Nat} (h : n < 10) : (digit n).toNat = 48 + n := by
  unfold digit
  rw [UInt8.toNat_ofNat']
  omega

theorem isDigit_digit {n : Nat} (h : n < 10) : isDigit (digit n) = true := by
  have hdigit := toNat_digit h
  simp only [isDigit, Bool.and_eq_true, decide_eq_true_eq, UInt8.le_iff_toNat_le, hdigit]
  exact ⟨Nat.le_add_right 48 n, by change 48 + n ≤ 57; omega⟩

theorem print_ne_nil (n : Nat) : print n ≠ [] := by
  unfold print
  split
  · exact List.cons_ne_nil _ _
  · next hn => simpa [Nat.digits_eq_nil_iff_eq_zero] using hn

theorem isDigit_of_mem_print {n : Nat} : ∀ b ∈ print n, isDigit b = true := by
  intro b hb
  unfold print at hb
  split at hb
  · rw [List.mem_singleton.1 hb]
    rfl
  · rw [List.mem_reverse, List.mem_map] at hb
    obtain ⟨d, hd, rfl⟩ := hb
    exact isDigit_digit (Nat.digits_lt_base (by decide) hd)

/-- Only zero is printed with a zero in front. -/
theorem head?_print_ne_zero {n : Nat} (h : n ≠ 0) : (print n).head? ≠ some 48 := by
  have hne : Nat.digits 10 n ≠ [] := Nat.digits_ne_nil_iff_ne_zero.2 h
  have hlast := Nat.getLast_digit_ne_zero 10 h
  have hlt := Nat.digits_lt_base (b := 10) (by decide) (List.getLast_mem hne)
  rw [print, if_neg h, List.head?_reverse, List.getLast?_map, List.getLast?_eq_getLast_of_ne_nil hne,
    Option.map_some, ne_eq, Option.some_inj]
  intro heq
  have hnat := congrArg UInt8.toNat heq
  rw [toNat_digit hlt] at hnat
  change _ = 48 at hnat
  omega

theorem printInt_of_nonneg {n : Int} (h : 0 ≤ n) : printInt n = print n.toNat := by
  rw [printInt, if_neg (Int.not_lt.2 h), ← Int.natAbs_of_nonneg h, Int.toNat_natCast,
    Int.natAbs_natCast]

theorem mem_printInt {n : Int} : ∀ b ∈ printInt n, isDigit b = true ∨ b = 45 := by
  intro b hb
  unfold printInt at hb
  split at hb
  · rcases List.mem_cons.1 hb with rfl | hb
    · exact .inr rfl
    · exact .inl (isDigit_of_mem_print b hb)
  · exact .inl (isDigit_of_mem_print b hb)

/-- Digits from the right, read back. -/
theorem value_map_digit_reverse {ds : List Nat} (h : ∀ d ∈ ds, d < 10) :
    value (ds.map digit).reverse = Nat.ofDigits 10 ds := by
  unfold value
  rw [List.foldl_reverse]
  induction ds with
  | nil => rfl
  | cons d ds ih =>
    rw [List.map_cons, List.foldr_cons, ih fun d' hd' => h d' (List.mem_cons_of_mem d hd'),
      toNat_digit (h d List.mem_cons_self), Nat.ofDigits_cons]
    omega

@[simp] theorem value_print (n : Nat) : value (print n) = n := by
  unfold print
  split
  · next hn =>
    subst hn
    rfl
  · rw [value_map_digit_reverse fun d hd => Nat.digits_lt_base (by decide) hd,
      Nat.ofDigits_digits]

/-- What follows some digits and begins with no digit is not read. -/
theorem takeWhile_append {digits rest : List UInt8} (hdigits : ∀ b ∈ digits, isDigit b = true)
    (hrest : ∀ b ∈ rest.head?, isDigit b = false) :
    (digits ++ rest).takeWhile isDigit = digits := by
  rw [List.takeWhile_append_of_pos hdigits]
  cases rest with
  | nil => simp
  | cons b rest => simp [hrest b rfl]

end Netpull.Decimal
