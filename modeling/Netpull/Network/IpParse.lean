import Netpull.Lib.Decimal
import Netpull.Lib.Separated
import Netpull.Network.Ip

/-!
# Reading addresses and access lists

`IpAddress::Parse` splits at the dots and leaves each part to `std::stoi`, which skips white space,
takes a sign and stops at the first byte that is no digit. `MultiForm` is the documented form of an
access list; `parseMulti_strict_iff` says on which inputs `IpRange::ParseMulti` keeps to it.
-/

namespace Netpull

open Decimal

def dot : UInt8 := 46
def dash : UInt8 := 45
def plus : UInt8 := 43
def comma : UInt8 := 44

/-- `std::isspace` in the C locale. -/
def isSpace (b : UInt8) : Bool := b == 32 || (9 ≤ b && b ≤ 13)

/-- `std::isblank` in the C locale. -/
def isBlank (b : UInt8) : Bool := b == 32 || b == 9

/-- The exceptions of `std::stoi`. -/
inductive StoiError
  | invalidArgument
  | outOfRange
deriving DecidableEq, Repr

/-- What follows the sign, if there is one. -/
def unsigned (s : Bytes) : Bytes :=
  if s.head? = some dash ∨ s.head? = some plus then s.tail else s

/-- The digits `std::stoi` reads: those the text begins with after white space and a sign. A NUL
ends them like any other byte. -/
def stoiDigits (s : Bytes) : Bytes := (unsigned (s.dropWhile isSpace)).takeWhile isDigit

/-- `std::stoi`. -/
def stoi (s : Bytes) : Except StoiError Int :=
  let digits := stoiDigits s
  if digits = [] then .error .invalidArgument
  else
    let n : Int :=
      if (s.dropWhile isSpace).head? = some dash then -(value digits : Int) else value digits
    if -2 ^ 31 ≤ n ∧ n < 2 ^ 31 then .ok n else .error .outOfRange

namespace IpAddress

/-- The body of the loop of `IpAddress::Parse`. -/
def parsePart (strPart : Bytes) : Option Int :=
  match stoi strPart with
  | .error _ => none
  | .ok part => if part < 0 || part > 255 then none else some part

/-- `IpAddress::Parse`. -/
def parse (input : Bytes) : Option IpAddress :=
  let strParts := input.splitOn dot
  if strParts.length ≠ 4 then none
  else
    match strParts.mapM parsePart with
    | some [a, b, c, d] => some ⟨a, b, c, d⟩
    | _ => none

/-- `inet_ntop` for `AF_INET`: the four bytes of the address in network order. -/
def inetNtop (sinAddr : UInt32) : Bytes :=
  [dot].intercalate [print (sinAddr.toNat / 256 ^ 3), print (sinAddr.toNat / 256 ^ 2 % 256),
    print (sinAddr.toNat / 256 % 256), print (sinAddr.toNat % 256)]

/-- `IpAddress::FromUnixSockaddr`. -/
def fromUnixSockaddr (sinAddr : UInt32) : Option IpAddress := parse (inetNtop sinAddr)

end IpAddress

namespace IpRange

/-- `IpRange::Parse`. -/
def parse (input : Bytes) : Option IpRange :=
  match input.splitOn dash with
  | [start] =>
    match IpAddress.parse start with
    | some addrStart => some ⟨addrStart, none⟩
    | none => none
  | [start, stop] =>
    match IpAddress.parse start with
    | some addrStart =>
      match IpAddress.parse stop with
      | some addrEnd => some ⟨addrStart, some addrEnd⟩
      | none => none
    | none => none
  | _ => none

/-- `IpRange::kPrivateIpRanges`. -/
def kPrivateIpRanges : List IpRange :=
  [⟨⟨10, 0, 0, 0⟩, some ⟨10, 255, 255, 255⟩⟩,
    ⟨⟨172, 16, 0, 0⟩, some ⟨172, 31, 255, 255⟩⟩,
    ⟨⟨192, 168, 0, 0⟩, some ⟨192, 168, 255, 255⟩⟩,
    ⟨⟨127, 0, 0, 0⟩, some ⟨127, 255, 255, 255⟩⟩]

/-- `IpRange::ParseMulti`. -/
def parseMulti (input : Bytes) : Option (List IpRange) :=
  if input = text "@private" then some kPrivateIpRanges
  else if input.isEmpty then some []
  else (input.splitOn comma).mapM parse

end IpRange

/-! ## The documented form -/

/-- A decimal number in 0..255 and nothing else. -/
def OctetForm (s : Bytes) (n : Int) : Prop :=
  s ≠ [] ∧ (∀ b ∈ s, isDigit b = true) ∧ value s < 256 ∧ n = value s

/-- Four numbers separated by dots. -/
def AddressForm (s : Bytes) (ip : IpAddress) : Prop :=
  ∃ fields, s = [dot].intercalate fields ∧ List.Forall₂ OctetForm fields ip.parts

/-- An address, or two with a dash between them. -/
inductive RangeForm : Bytes → IpRange → Prop
  | single {a start} : AddressForm a start → RangeForm a ⟨start, none⟩
  | range {a b start stop} : AddressForm a start → AddressForm b stop →
      RangeForm (a ++ dash :: b) ⟨start, some stop⟩

/-- The text with blanks around it. -/
def Padded (core s : Bytes) : Prop :=
  ∃ pre post, s = pre ++ core ++ post ∧ (∀ b ∈ pre, isBlank b = true) ∧
    ∀ b ∈ post, isBlank b = true

def ItemForm (s : Bytes) (range : IpRange) : Prop := ∃ core, Padded core s ∧ RangeForm core range

/-- The documented form of an access list, with the ranges it denotes. -/
inductive MultiForm : Bytes → List IpRange → Prop
  | privateRanges : MultiForm (text "@private") IpRange.kPrivateIpRanges
  | empty : MultiForm [] []
  | items {items ranges} : items ≠ [] → List.Forall₂ ItemForm items ranges →
      MultiForm ([comma].intercalate items) ranges

/-- The input is accepted in exactly the documented form, for the ranges that it denotes. -/
def ReadStrictly (input : Bytes) : Prop :=
  ∀ ranges, IpRange.parseMulti input = some ranges ↔ MultiForm input ranges

/-- Nothing but digits, dots and dashes, save blanks around them. -/
def Plain (item : Bytes) : Prop :=
  ∃ core, Padded core item ∧ ∀ b ∈ core, isDigit b = true ∨ b = dot ∨ b = dash

/-- The part begins, after white space and a plus, with a number in 0..255. -/
def BeginsWithOctet (strPart : Bytes) : Prop :=
  stoiDigits strPart ≠ [] ∧ value (stoiDigits strPart) < 256

/-- One or two texts around a dash, each of four parts around dots that begin with octets. -/
def Tolerated (item : Bytes) : Prop :=
  ((item.splitOn dash).length = 1 ∨ (item.splitOn dash).length = 2) ∧
    ∀ address ∈ item.splitOn dash, (address.splitOn dot).length = 4 ∧
      ∀ strPart ∈ address.splitOn dot, BeginsWithOctet strPart

instance (strPart : Bytes) : Decidable (BeginsWithOctet strPart) :=
  inferInstanceAs (Decidable (_ ∧ _))

instance (item : Bytes) : Decidable (Tolerated item) := inferInstanceAs (Decidable (_ ∧ _))

/-! ## Bytes -/

theorem isDigit_iff {b : UInt8} : isDigit b = true ↔ 48 ≤ b.toNat ∧ b.toNat ≤ 57 := by
  simp [isDigit, UInt8.le_iff_toNat_le]

theorem isSpace_iff {b : UInt8} :
    isSpace b = true ↔ b.toNat = 32 ∨ 9 ≤ b.toNat ∧ b.toNat ≤ 13 := by
  simp [isSpace, UInt8.le_iff_toNat_le, ← UInt8.toNat_inj]

theorem isBlank_iff {b : UInt8} : isBlank b = true ↔ b.toNat = 32 ∨ b.toNat = 9 := by
  simp [isBlank, ← UInt8.toNat_inj]

theorem isSpace_of_isBlank {b : UInt8} (h : isBlank b = true) : isSpace b = true := by
  rw [isBlank_iff] at h
  rw [isSpace_iff]
  omega

theorem isSpace_of_isDigit {b : UInt8} (h : isDigit b = true) : isSpace b = false := by
  rw [isDigit_iff] at h
  rw [Bool.eq_false_iff, ne_eq, isSpace_iff]
  omega

theorem ne_of_isDigit {b c : UInt8} (h : isDigit b = true) (hc : c.toNat < 48) : b ≠ c := by
  rintro rfl
  rw [isDigit_iff] at h
  omega

theorem ne_of_isSpace {b c : UInt8} (h : isSpace b = true) (hc : 32 < c.toNat) : b ≠ c := by
  rintro rfl
  rw [isSpace_iff] at h
  omega

theorem not_mem_of_isSpace {s : Bytes} (h : ∀ b ∈ s, isSpace b = true) {c : UInt8}
    (hc : 32 < c.toNat) : c ∉ s :=
  fun hmem => ne_of_isSpace (h c hmem) hc rfl

theorem not_mem_of_isDigit {s : Bytes} (h : ∀ b ∈ s, isDigit b = true) {c : UInt8}
    (hc : c.toNat < 48) : c ∉ s :=
  fun hmem => ne_of_isDigit (h c hmem) hc rfl

/-! ## One part -/

/-- White space around digits is not read. -/
theorem stoiDigits_pad {pre digits post : Bytes} (hpre : ∀ b ∈ pre, isSpace b = true)
    (hpost : ∀ b ∈ post, isSpace b = true) (hdigits : ∀ b ∈ digits, isDigit b = true) :
    stoiDigits (pre ++ digits ++ post) = digits := by
  have hrest : ∀ b ∈ post.head?, isDigit b = false := by
    intro b hb
    by_contra hdigit
    rw [Bool.not_eq_false] at hdigit
    have hspace := hpost b (List.mem_of_mem_head? hb)
    rw [isSpace_of_isDigit hdigit] at hspace
    cases hspace
  rw [stoiDigits, List.append_assoc, List.dropWhile_append_of_pos hpre]
  cases digits with
  | nil =>
    have hnil : post.dropWhile isSpace = [] := List.dropWhile_eq_nil_iff.2 hpost
    rw [List.nil_append, hnil]
    rfl
  | cons b digits =>
    have hb := hdigits b List.mem_cons_self
    have hdash : b ≠ dash := ne_of_isDigit hb (by decide)
    have hplus : b ≠ plus := ne_of_isDigit hb (by decide)
    rw [List.cons_append, List.dropWhile_cons_of_neg (by rw [isSpace_of_isDigit hb]; decide)]
    rw [unsigned, if_neg (by simp [hdash, hplus]), ← List.cons_append,
      Decimal.takeWhile_append hdigits hrest]

/-- A part without a dash is read exactly if it begins with an octet. -/
theorem parsePart_eq_some {strPart : Bytes} (h : dash ∉ strPart) {n : Int} :
    IpAddress.parsePart strPart = some n ↔
      BeginsWithOctet strPart ∧ n = value (stoiDigits strPart) := by
  have hsign : (strPart.dropWhile isSpace).head? ≠ some dash := by
    intro hhead
    exact h ((List.dropWhile_sublist isSpace).subset (List.mem_of_mem_head? hhead))
  unfold IpAddress.parsePart stoi BeginsWithOctet
  by_cases hdigits : stoiDigits strPart = []
  · simp [hdigits]
  · simp only [hdigits, hsign, if_false, ne_eq, not_false_eq_true, true_and]
    by_cases hrange : -2 ^ 31 ≤ (value (stoiDigits strPart) : Int) ∧
        (value (stoiDigits strPart) : Int) < 2 ^ 31
    · rw [if_pos hrange]
      simp only [Bool.or_eq_true, decide_eq_true_eq, gt_iff_lt]
      split
      · constructor
        · intro hn
          cases hn
        · rintro ⟨hlt, -⟩
          omega
      · constructor
        · intro hn
          cases hn
          omega
        · rintro ⟨-, rfl⟩
          rfl
    · rw [if_neg hrange]
      constructor
      · intro hn
        cases hn
      · rintro ⟨hlt, -⟩
        omega

theorem parsePart_pad {pre digits post : Bytes} (hpre : ∀ b ∈ pre, isBlank b = true)
    (hpost : ∀ b ∈ post, isBlank b = true) (hdigits : ∀ b ∈ digits, isDigit b = true) {n : Int} :
    IpAddress.parsePart (pre ++ digits ++ post) = some n ↔ OctetForm digits n := by
  have hpre' : ∀ b ∈ pre, isSpace b = true := fun b hb => isSpace_of_isBlank (hpre b hb)
  have hpost' : ∀ b ∈ post, isSpace b = true := fun b hb => isSpace_of_isBlank (hpost b hb)
  have hdash : dash ∉ pre ++ digits ++ post := by
    simp only [List.mem_append, not_or]
    exact ⟨⟨not_mem_of_isSpace hpre' (by decide), not_mem_of_isDigit hdigits (by decide)⟩,
      not_mem_of_isSpace hpost' (by decide)⟩
  rw [parsePart_eq_some hdash, BeginsWithOctet, stoiDigits_pad hpre' hpost' hdigits, OctetForm]
  tauto

/-! ## Addresses -/

/-- A loop over a list that gives up at the first failure. -/
theorem mapM_eq_some {α β : Type} {f : α → Option β} {as : List α} {bs : List β} :
    as.mapM f = some bs ↔ List.Forall₂ (fun a b => f a = some b) as bs := by
  induction as generalizing bs with
  | nil => simp [eq_comm]
  | cons a as ih =>
    cases hf : f a with
    | none => simp [List.mapM_cons, hf, List.forall₂_cons_left_iff]
    | some b =>
      cases has : as.mapM f with
      | none =>
        simp only [List.mapM_cons, hf, has, List.forall₂_cons_left_iff]
        simp only [← ih, has]
        simp
      | some bs' =>
        simp only [List.mapM_cons, hf, has, List.forall₂_cons_left_iff]
        simp only [← ih, has]
        simp [eq_comm]

theorem parse_eq_some {input : Bytes} {ip : IpAddress} : IpAddress.parse input = some ip ↔
    List.Forall₂ (fun strPart n => IpAddress.parsePart strPart = some n) (input.splitOn dot)
      ip.parts := by
  rw [← mapM_eq_some, IpAddress.parse]
  constructor
  · intro h
    split at h
    · cases h
    · split at h
      · next hparts =>
        rw [hparts, ← Option.some.inj h]
        rfl
      · cases h
  · intro h
    have hlen : (input.splitOn dot).length = 4 := (mapM_eq_some.1 h).length_eq
    simp only [hlen, h, IpAddress.parts]
    rfl

theorem octets_of_forall₂ {fields : List Bytes} {ns : List Int}
    (h : List.Forall₂ OctetForm fields ns) : ∀ f ∈ fields, ∀ b ∈ f, isDigit b = true := by
  induction h with
  | nil => simp
  | cons hoctet _ ih =>
    rw [List.forall_mem_cons]
    exact ⟨hoctet.2.1, ih⟩

theorem AddressForm.bytes {a : Bytes} {ip : IpAddress} (h : AddressForm a ip) :
    ∀ b ∈ a, isDigit b = true ∨ b = dot := by
  obtain ⟨fields, rfl, hfields⟩ := h
  intro b hb
  rw [← Separated.tail_spell] at hb
  obtain ⟨field, hfield, hb⟩ := List.mem_flatMap.1 (List.mem_of_mem_tail hb)
  rcases List.mem_cons.1 hb with rfl | hb
  · exact Or.inr rfl
  · exact Or.inl (octets_of_forall₂ hfields field hfield b hb)

/-- An address between blanks is read in its documented form, if it holds nothing but digits and
dots. -/
theorem parse_pad {pre core post : Bytes} (hpre : ∀ b ∈ pre, isBlank b = true)
    (hpost : ∀ b ∈ post, isBlank b = true) (hcore : ∀ b ∈ core, isDigit b = true ∨ b = dot)
    {ip : IpAddress} :
    IpAddress.parse (pre ++ core ++ post) = some ip ↔ AddressForm core ip := by
  have hpre' : dot ∉ pre :=
    not_mem_of_isSpace (fun b hb => isSpace_of_isBlank (hpre b hb)) (by decide)
  have hpost' : dot ∉ post :=
    not_mem_of_isSpace (fun b hb => isSpace_of_isBlank (hpost b hb)) (by decide)
  have hparts : ∀ f₁ f₂ f₃ f₄, core.splitOn dot = [f₁, f₂, f₃, f₄] →
      (IpAddress.parse (pre ++ core ++ post) = some ip ↔
        List.Forall₂ OctetForm [f₁, f₂, f₃, f₄] ip.parts) := by
    intro f₁ f₂ f₃ f₄ hsplit
    have hpad : (pre ++ core ++ post).splitOn dot = [pre ++ f₁ ++ [], [] ++ f₂ ++ [],
        [] ++ f₃ ++ [], [] ++ f₄ ++ post] := by
      have hpad := Separated.splitOn_append_append (p := f₁) hpre' hpost'
        (show core.splitOn dot = f₁ :: ([f₂, f₃] ++ [f₄]) from hsplit)
      simpa using hpad
    have hdigits : ∀ f ∈ [f₁, f₂, f₃, f₄], ∀ b ∈ f, isDigit b = true := by
      intro f hf b hb
      rw [← hsplit] at hf
      have hdot : dot ∉ f := Separated.not_mem_of_mem_splitOn hf
      have hmem : b ∈ core := Separated.subset_of_mem_splitOn hf hb
      rcases hcore b hmem with hb' | rfl
      · exact hb'
      · exact absurd hb hdot
    simp only [List.forall_mem_cons] at hdigits
    obtain ⟨h₁, h₂, h₃, h₄, -⟩ := hdigits
    have hnil : ∀ b ∈ ([] : Bytes), isBlank b = true := by simp
    rw [parse_eq_some, hpad]
    simp only [IpAddress.parts, List.forall₂_cons, parsePart_pad hpre hnil h₁,
      parsePart_pad hnil hnil h₂, parsePart_pad hnil hnil h₃, parsePart_pad hnil hpost h₄,
      List.forall₂_nil_left_iff]
  constructor
  · intro h
    have hlen := (parse_eq_some.1 h).length_eq
    have hcount : (pre ++ core ++ post).count dot = core.count dot := by
      simp [List.count_append, List.count_eq_zero.2 hpre', List.count_eq_zero.2 hpost']
    rw [Separated.length_splitOn, hcount, ← Separated.length_splitOn] at hlen
    obtain ⟨f₁, f₂, f₃, f₄, hsplit⟩ := List.length_eq_four.1 hlen
    refine ⟨core.splitOn dot, (List.intercalate_splitOn dot).symm, ?_⟩
    rw [hsplit]
    exact (hparts f₁ f₂ f₃ f₄ hsplit).1 h
  · rintro ⟨fields, rfl, hfields⟩
    obtain ⟨f₁, f₂, f₃, f₄, rfl⟩ := List.length_eq_four.1 hfields.length_eq
    refine (hparts f₁ f₂ f₃ f₄ ?_).2 hfields
    apply List.splitOn_intercalate dot _ (List.cons_ne_nil _ _)
    intro f hf
    exact not_mem_of_isDigit (octets_of_forall₂ hfields f hf) (by decide)

theorem OctetForm.print {n : Nat} (h : n < 256) : OctetForm (print n) n :=
  ⟨print_ne_nil n, isDigit_of_mem_print, by rwa [value_print], by rw [value_print]⟩

/-- The parts of an address in network order. -/
def IpAddress.ofSinAddr (sinAddr : UInt32) : IpAddress :=
  ⟨(sinAddr.toNat / 256 ^ 3 : Nat), (sinAddr.toNat / 256 ^ 2 % 256 : Nat),
    (sinAddr.toNat / 256 % 256 : Nat), (sinAddr.toNat % 256 : Nat)⟩

theorem IpAddress.octets_ofSinAddr (sinAddr : UInt32) : (ofSinAddr sinAddr).Octets := by
  have hlt : sinAddr.toNat < 2 ^ 32 := sinAddr.toNat_lt
  simp only [Octets, parts, ofSinAddr, List.forall_mem_cons]
  refine ⟨by omega, by omega, by omega, by omega, by simp⟩

theorem IpAddress.value_ofSinAddr (sinAddr : UInt32) :
    (ofSinAddr sinAddr).value = sinAddr.toNat := by
  rw [value_eq]
  simp only [ofSinAddr]
  omega

/-- The printed address of a peer is recovered. -/
theorem IpAddress.fromUnixSockaddr_eq (sinAddr : UInt32) :
    fromUnixSockaddr sinAddr = some (ofSinAddr sinAddr) := by
  have hlt : sinAddr.toNat < 2 ^ 32 := sinAddr.toNat_lt
  have hform : AddressForm (inetNtop sinAddr) (ofSinAddr sinAddr) := by
    refine ⟨_, rfl, ?_⟩
    simp only [parts, ofSinAddr, List.forall₂_cons, List.forall₂_nil_left_iff, and_true]
    exact ⟨OctetForm.print (by omega), OctetForm.print (by omega), OctetForm.print (by omega),
      OctetForm.print (by omega)⟩
  have hnil : ∀ b ∈ ([] : Bytes), isBlank b = true := by simp
  have hparse := (parse_pad hnil hnil hform.bytes).2 hform
  rwa [List.nil_append, List.append_nil] at hparse

/-! ## Ranges -/

theorem parse_of_single {input : Bytes} (h : input.splitOn dash = [input]) {range : IpRange} :
    IpRange.parse input = some range ↔
      ∃ start, IpAddress.parse input = some start ∧ range = ⟨start, none⟩ := by
  rw [IpRange.parse, h]
  cases hstart : IpAddress.parse input <;> simp [hstart, eq_comm]

theorem parse_of_pair {input a b : Bytes} (h : input.splitOn dash = [a, b]) {range : IpRange} :
    IpRange.parse input = some range ↔ ∃ start stop, IpAddress.parse a = some start ∧
      IpAddress.parse b = some stop ∧ range = ⟨start, some stop⟩ := by
  rw [IpRange.parse, h]
  cases hstart : IpAddress.parse a with
  | none => simp [hstart]
  | some start => cases hstop : IpAddress.parse b <;> simp [hstart, hstop, eq_comm]

/-- What is read has one or two addresses. -/
theorem splitOn_dash_of_parse {input : Bytes} {range : IpRange}
    (h : IpRange.parse input = some range) :
    input.splitOn dash = [input] ∨ ∃ a b, input.splitOn dash = [a, b] := by
  have hinput : [dash].intercalate (input.splitOn dash) = input := List.intercalate_splitOn dash
  rw [IpRange.parse] at h
  split at h
  · next hsplit =>
    rw [hsplit, List.intercalate_singleton] at hinput
    rw [hsplit, hinput]
    exact Or.inl rfl
  · next a b hsplit => exact Or.inr ⟨a, b, hsplit⟩
  · cases h

theorem AddressForm.dash_not_mem {a : Bytes} {ip : IpAddress} (h : AddressForm a ip) :
    dash ∉ a := by
  intro hmem
  rcases h.bytes dash hmem with hdigit | hdot
  · exact ne_of_isDigit hdigit (by decide) rfl
  · cases hdot

theorem RangeForm.bytes {a : Bytes} {range : IpRange} (h : RangeForm a range) :
    ∀ b ∈ a, isDigit b = true ∨ b = dot ∨ b = dash := by
  intro b hb
  cases h with
  | single ha => exact (ha.bytes b hb).imp_right Or.inl
  | range ha hb' =>
    rcases List.mem_append.1 hb with hb | hb
    · exact (ha.bytes b hb).imp_right Or.inl
    · rcases List.mem_cons.1 hb with rfl | hb
      · exact Or.inr (Or.inr rfl)
      · exact (hb'.bytes b hb).imp_right Or.inl

/-- A range between blanks is read in its documented form, if it holds nothing but digits, dots and
dashes. -/
theorem parseRange_pad {pre core post : Bytes} (hpre : ∀ b ∈ pre, isBlank b = true)
    (hpost : ∀ b ∈ post, isBlank b = true)
    (hcore : ∀ b ∈ core, isDigit b = true ∨ b = dot ∨ b = dash) {range : IpRange} :
    IpRange.parse (pre ++ core ++ post) = some range ↔ RangeForm core range := by
  have hpre' : dash ∉ pre :=
    not_mem_of_isSpace (fun b hb => isSpace_of_isBlank (hpre b hb)) (by decide)
  have hpost' : dash ∉ post :=
    not_mem_of_isSpace (fun b hb => isSpace_of_isBlank (hpost b hb)) (by decide)
  have hnil : ∀ b ∈ ([] : Bytes), isBlank b = true := by simp
  have hpair : ∀ a b, dash ∉ a → dash ∉ b →
      (pre ++ (a ++ dash :: b) ++ post).splitOn dash = [pre ++ a, b ++ post] := by
    intro a b ha hb
    have happend : pre ++ (a ++ dash :: b) ++ post = (pre ++ a) ++ dash :: (b ++ post) := by simp
    rw [happend, Separated.splitOn_append_cons, List.splitOn_eq_singleton,
      List.splitOn_eq_singleton, List.singleton_append]
    · simp [hb, hpost']
    · simp [ha, hpre']
  constructor
  · intro h
    rcases splitOn_dash_of_parse h with hsplit | ⟨a', b', hsplit⟩
    · obtain ⟨start, hstart, rfl⟩ := (parse_of_single hsplit).1 h
      have hnotin : dash ∉ pre ++ core ++ post :=
        Separated.not_mem_of_mem_splitOn (hsplit ▸ List.mem_singleton_self _)
      refine RangeForm.single ((parse_pad hpre hpost ?_).1 hstart)
      intro b hb
      rcases hcore b hb with hdigit | rfl | rfl
      · exact Or.inl hdigit
      · exact Or.inr rfl
      · exact absurd (by simp [hb]) hnotin
    · have hlen : (core.splitOn dash).length = 2 := by
        have hcount : (pre ++ core ++ post).count dash = core.count dash := by
          simp [List.count_append, List.count_eq_zero.2 hpre', List.count_eq_zero.2 hpost']
        rw [Separated.length_splitOn, ← hcount, ← Separated.length_splitOn, hsplit]
        rfl
      obtain ⟨a, b, hab⟩ := List.length_eq_two.1 hlen
      have ha : dash ∉ a := Separated.not_mem_of_mem_splitOn (hab ▸ List.mem_cons_self)
      have hb : dash ∉ b :=
        Separated.not_mem_of_mem_splitOn (hab ▸ List.mem_cons_of_mem a List.mem_cons_self)
      have hcore' : core = a ++ dash :: b := by
        have hwritten : [dash].intercalate (core.splitOn dash) = core :=
          List.intercalate_splitOn dash
        rw [← hwritten, hab]
        simp
      subst hcore'
      rw [parse_of_pair (hpair a b ha hb)] at h
      obtain ⟨start, stop, hstart, hstop, rfl⟩ := h
      have hchars : ∀ c ∈ a ++ b, isDigit c = true ∨ c = dot := by
        intro c hc
        have hne : c ≠ dash := by
          rintro rfl
          exact (List.mem_append.1 hc).elim ha hb
        have hmem : c ∈ a ++ dash :: b := by
          rcases List.mem_append.1 hc with hc | hc <;> simp [hc]
        rcases hcore c hmem with hdigit | hdot | hdash
        · exact Or.inl hdigit
        · exact Or.inr hdot
        · exact absurd hdash hne
      rw [← List.append_nil (pre ++ a)] at hstart
      rw [← List.nil_append b] at hstop
      exact RangeForm.range
        ((parse_pad hpre hnil fun c hc => hchars c (List.mem_append_left b hc)).1 hstart)
        ((parse_pad hnil hpost fun c hc => hchars c (List.mem_append_right a hc)).1 hstop)
  · intro h
    cases h with
    | @single _ start ha =>
      have hsplit : (pre ++ core ++ post).splitOn dash = [pre ++ core ++ post] :=
        List.splitOn_eq_singleton (by simp [hpre', hpost', ha.dash_not_mem])
      exact (parse_of_single hsplit).2 ⟨start, (parse_pad hpre hpost ha.bytes).2 ha, rfl⟩
    | @range a b start stop ha hb =>
      refine (parse_of_pair (hpair a b ha.dash_not_mem hb.dash_not_mem)).2
        ⟨start, stop, ?_, ?_, rfl⟩
      · rw [← List.append_nil (pre ++ a)]
        exact (parse_pad hpre hnil ha.bytes).2 ha
      · rw [← List.nil_append b]
        exact (parse_pad hnil hpost hb.bytes).2 hb

theorem parse_of_itemForm {item : Bytes} {range : IpRange} (h : ItemForm item range) :
    IpRange.parse item = some range := by
  obtain ⟨core, ⟨pre, post, rfl, hpre, hpost⟩, hcore⟩ := h
  exact (parseRange_pad hpre hpost hcore.bytes).2 hcore

theorem Plain.itemForm {item : Bytes} (h : Plain item) {range : IpRange}
    (hparse : IpRange.parse item = some range) : ItemForm item range := by
  obtain ⟨core, ⟨pre, post, rfl, hpre, hpost⟩, hcore⟩ := h
  exact ⟨core, ⟨pre, post, rfl, hpre, hpost⟩, (parseRange_pad hpre hpost hcore).1 hparse⟩

theorem ItemForm.plain {item : Bytes} {range : IpRange} (h : ItemForm item range) :
    Plain item := by
  obtain ⟨core, hpadded, hcore⟩ := h
  exact ⟨core, hpadded, hcore.bytes⟩

/-! ## What is tolerated -/

theorem mapM_isSome {α β : Type} {f : α → Option β} {as : List α} :
    (as.mapM f).isSome = true ↔ ∀ a ∈ as, (f a).isSome = true := by
  induction as with
  | nil => simp
  | cons a as ih =>
    rw [List.forall_mem_cons, ← ih]
    cases hf : f a with
    | none => simp [List.mapM_cons, hf]
    | some b => cases has : as.mapM f <;> simp [List.mapM_cons, hf, has]

theorem parsePart_isSome {strPart : Bytes} (h : dash ∉ strPart) :
    (IpAddress.parsePart strPart).isSome = true ↔ BeginsWithOctet strPart := by
  rw [Option.isSome_iff_exists]
  constructor
  · rintro ⟨n, hn⟩
    exact ((parsePart_eq_some h).1 hn).1
  · intro hoctet
    exact ⟨_, (parsePart_eq_some h).2 ⟨hoctet, rfl⟩⟩

theorem parseAddress_isSome {address : Bytes} (h : dash ∉ address) :
    (IpAddress.parse address).isSome = true ↔ (address.splitOn dot).length = 4 ∧
      ∀ strPart ∈ address.splitOn dot, BeginsWithOctet strPart := by
  have hparts : (∀ strPart ∈ address.splitOn dot, BeginsWithOctet strPart) ↔
      ((address.splitOn dot).mapM IpAddress.parsePart).isSome = true := by
    rw [mapM_isSome]
    apply forall₂_congr
    intro strPart hmem
    exact (parsePart_isSome fun hdash => h (Separated.subset_of_mem_splitOn hmem hdash)).symm
  rw [hparts, Option.isSome_iff_exists, Option.isSome_iff_exists]
  constructor
  · rintro ⟨ip, hip⟩
    rw [parse_eq_some] at hip
    exact ⟨hip.length_eq, ip.parts, mapM_eq_some.2 hip⟩
  · rintro ⟨hlen, ns, hns⟩
    rw [mapM_eq_some] at hns
    obtain ⟨a, b, c, d, rfl⟩ := List.length_eq_four.1 (hns.length_eq.symm.trans hlen)
    exact ⟨⟨a, b, c, d⟩, parse_eq_some.2 hns⟩

/-- `IpRange::Parse` succeeds on exactly the tolerated texts. -/
theorem parseRange_isSome {item : Bytes} :
    (IpRange.parse item).isSome = true ↔ Tolerated item := by
  have hnotin : ∀ a ∈ item.splitOn dash, dash ∉ a := fun a ha => Separated.not_mem_of_mem_splitOn ha
  unfold Tolerated
  have hitem : [dash].intercalate (item.splitOn dash) = item := List.intercalate_splitOn dash
  obtain ⟨a, as, has⟩ := List.exists_cons_of_ne_nil (List.splitOn_ne_nil dash item)
  rw [has] at hnotin hitem ⊢
  have ha := parseAddress_isSome (hnotin a List.mem_cons_self)
  obtain _ | ⟨b, _ | ⟨c, as⟩⟩ := as
  · rw [List.intercalate_singleton] at hitem
    subst hitem
    rw [Option.isSome_iff_exists, List.forall_mem_singleton, ← ha, Option.isSome_iff_exists]
    simp [parse_of_single has]
  · have hb := parseAddress_isSome (hnotin b (List.mem_cons_of_mem a List.mem_cons_self))
    rw [List.forall_mem_cons, List.forall_mem_singleton, ← ha, ← hb]
    simp only [Option.isSome_iff_exists, parse_of_pair has]
    simp
  · have hnone : IpRange.parse item = none := by
      rw [IpRange.parse, has]
    simp [hnone]

/-! ## Access lists -/

theorem Plain.bytes {item : Bytes} (h : Plain item) :
    ∀ b ∈ item, isBlank b = true ∨ isDigit b = true ∨ b = dot ∨ b = dash := by
  obtain ⟨core, ⟨pre, post, rfl, hpre, hpost⟩, hcore⟩ := h
  intro b hb
  simp only [List.mem_append] at hb
  rcases hb with (hb | hb) | hb
  · exact Or.inl (hpre b hb)
  · exact Or.inr (hcore b hb)
  · exact Or.inl (hpost b hb)

theorem ItemForm.comma_not_mem {item : Bytes} {range : IpRange} (h : ItemForm item range) :
    comma ∉ item := by
  intro hmem
  rcases h.plain.bytes comma hmem with hblank | hdigit | hdot | hdash
  · cases hblank
  · cases hdigit
  · cases hdot
  · cases hdash

theorem plain_of_forall₂ {items : List Bytes} {ranges : List IpRange}
    (h : List.Forall₂ ItemForm items ranges) : ∀ item ∈ items, comma ∉ item ∧ Plain item := by
  induction h with
  | nil => simp
  | cons hitem _ ih =>
    rw [List.forall_mem_cons]
    exact ⟨⟨hitem.comma_not_mem, hitem.plain⟩, ih⟩

/-- What is in the documented form is accepted. -/
theorem parseMulti_of_multiForm {input : Bytes} {ranges : List IpRange}
    (h : MultiForm input ranges) : IpRange.parseMulti input = some ranges := by
  cases h with
  | privateRanges => rfl
  | empty => rfl
  | @items items _ hne hitems =>
    have hsplit : ([comma].intercalate items).splitOn comma = items :=
      List.splitOn_intercalate comma (fun item hitem => (plain_of_forall₂ hitems item hitem).1) hne
    have hparse : items.mapM IpRange.parse = some ranges :=
      mapM_eq_some.2 (hitems.imp fun _ _ => parse_of_itemForm)
    rw [← hsplit] at hparse
    generalize [comma].intercalate items = input at hparse
    unfold IpRange.parseMulti
    split
    · next hprivate =>
      subst hprivate
      cases hparse
    · split
      · next hempty =>
        rw [List.isEmpty_iff] at hempty
        subst hempty
        cases hparse
      · exact hparse

/-- Inputs that are neither `@private` nor empty are read item by item. -/
theorem parseMulti_cases (input : Bytes) :
    (∃ ranges, MultiForm input ranges ∧ IpRange.parseMulti input = some ranges) ∨
      IpRange.parseMulti input = (input.splitOn comma).mapM IpRange.parse := by
  by_cases hprivate : input = text "@private"
  · subst hprivate
    exact Or.inl ⟨_, MultiForm.privateRanges, rfl⟩
  · by_cases hempty : input = []
    · subst hempty
      exact Or.inl ⟨_, MultiForm.empty, rfl⟩
    · right
      rw [IpRange.parseMulti, if_neg hprivate, if_neg (by simp [hempty])]

theorem MultiForm.plain {input : Bytes} {ranges : List IpRange} (h : MultiForm input ranges) :
    (∃ item ∈ input.splitOn comma, ¬ Tolerated item) ∨ ∀ item ∈ input.splitOn comma, Plain item := by
  cases h with
  | privateRanges => exact Or.inl ⟨text "@private", List.mem_singleton_self _, by decide⟩
  | empty =>
    right
    intro item hitem
    rw [List.splitOn_nil, List.mem_singleton] at hitem
    subst hitem
    exact ⟨[], ⟨[], [], rfl, by simp, by simp⟩, by simp⟩
  | @items items _ hne hitems =>
    right
    rw [List.splitOn_intercalate comma (fun item hitem => (plain_of_forall₂ hitems item hitem).1) hne]
    exact fun item hitem => (plain_of_forall₂ hitems item hitem).2

/-- **An access list is read strictly** if and only if some item is not even tolerated, or none holds
anything but digits, dots and dashes with blanks around them. -/
theorem parseMulti_strict_iff (input : Bytes) : ReadStrictly input ↔
    (∃ item ∈ input.splitOn comma, ¬ Tolerated item) ∨
      ∀ item ∈ input.splitOn comma, Plain item := by
  constructor
  · intro hstrict
    by_cases htolerated : ∀ item ∈ input.splitOn comma, Tolerated item
    · rcases parseMulti_cases input with ⟨ranges, hform, -⟩ | hmap
      · exact hform.plain
      · have hsome : ((input.splitOn comma).mapM IpRange.parse).isSome = true :=
          mapM_isSome.2 fun item hitem => parseRange_isSome.2 (htolerated item hitem)
        obtain ⟨ranges, hranges⟩ := Option.isSome_iff_exists.1 hsome
        exact ((hstrict ranges).1 (hmap.trans hranges)).plain
    · push Not at htolerated
      exact Or.inl htolerated
  · intro h ranges
    refine ⟨?_, parseMulti_of_multiForm⟩
    intro hparse
    rcases parseMulti_cases input with ⟨ranges', hform, hparse'⟩ | hmap
    · rw [hparse] at hparse'
      rwa [Option.some.inj hparse']
    · rw [hmap] at hparse
      rcases h with ⟨item, hitem, hnot⟩ | hplain
      · have hsome : ((input.splitOn comma).mapM IpRange.parse).isSome = true := by rw [hparse]; rfl
        exact absurd (parseRange_isSome.1 (mapM_isSome.1 hsome item hitem)) hnot
      · rw [mapM_eq_some] at hparse
        have hforms := (List.forall₂_and_left _ _).2 ⟨hplain, hparse⟩
        have hinput : [comma].intercalate (input.splitOn comma) = input :=
          List.intercalate_splitOn comma
        rw [← hinput]
        exact MultiForm.items (List.splitOn_ne_nil comma input)
          (hforms.imp fun item range hitem => hitem.1.itemForm hitem.2)

theorem MultiForm.bytes {input : Bytes} {ranges : List IpRange} (h : MultiForm input ranges)
    (hprivate : input ≠ text "@private") : ∀ b ∈ input,
      isBlank b = true ∨ isDigit b = true ∨ b = dot ∨ b = dash ∨ b = comma := by
  intro b hb
  cases h with
  | privateRanges => exact absurd rfl hprivate
  | empty => cases hb
  | items _ hitems =>
    rw [← Separated.tail_spell] at hb
    obtain ⟨item, hitem, hb⟩ := List.mem_flatMap.1 (List.mem_of_mem_tail hb)
    rcases List.mem_cons.1 hb with rfl | hb
    · simp
    · rcases (plain_of_forall₂ hitems item hitem).2.bytes b hb with h | h | h | h <;> simp [h]

/-- A network in CIDR notation is read as its first address alone. -/
theorem cidr_read_as_address :
    IpRange.parseMulti (text "10.0.0.0/8") = some [⟨⟨10, 0, 0, 0⟩, none⟩] ∧
      ¬ ReadStrictly (text "10.0.0.0/8") := by
  have hparse : IpRange.parseMulti (text "10.0.0.0/8") = some [⟨⟨10, 0, 0, 0⟩, none⟩] := rfl
  refine ⟨hparse, ?_⟩
  intro hstrict
  have hslash := ((hstrict _).1 hparse).bytes (by decide) 47 (by decide)
  revert hslash
  decide

end Netpull
