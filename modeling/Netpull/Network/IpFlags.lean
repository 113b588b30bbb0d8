import Netpull.Network.IpParse
import Netpull.Network.Socket

/-!
# Locations, flags and socket addresses

What the printers of addresses, ranges and locations write, the parser of a location reads again
(`flags_survive`). A location's port is an unchecked `int` until `htons` cuts it to 16 bits;
`portKept_iff` says for which texts nothing is lost.
-/

namespace Netpull

open Decimal

def colon : UInt8 := 58

/-- `IpLocation`. -/
structure IpLocation where
  address : IpAddress
  port : Int
deriving DecidableEq, Repr

/-- `IpLocation::kDefaultPort`. -/
def kDefaultPort : Int := 7420

/-- `IpLocation::Parse`. -/
def IpLocation.parse (input : Bytes) : Option IpLocation :=
  match input.splitOn colon with
  | [address] =>
    match IpAddress.parse address with
    | some addr => some ⟨addr, kDefaultPort⟩
    | none => none
  | [address, portPart] =>
    match IpAddress.parse address with
    | some addr =>
      match stoi portPart with
      | .ok port => some ⟨addr, port⟩
      | .error _ => none
    | none => none
  | _ => none

/-! ## Printing -/

/-- `operator<<` of an address. -/
def IpAddress.stream (ip : IpAddress) : Bytes := [dot].intercalate (ip.parts.map printInt)

/-- `operator<<` of a range. -/
def IpRange.stream (range : IpRange) : Bytes :=
  range.start.stream ++ range.stop.elim [] fun stop => dash :: stop.stream

/-- `AbslUnparseFlag` of a location. -/
def IpLocation.unparseFlag (location : IpLocation) : Bytes :=
  location.address.stream ++ colon :: printInt location.port

/-- `AbslUnparseFlag` of some ranges. -/
def IpRange.unparseFlag (ranges : List IpRange) : Bytes :=
  (text ", ").intercalate (ranges.map IpRange.stream)

/-- `AbslParseFlag` of a location, with its error. -/
def IpLocation.parseFlag (input : Bytes) : Except Bytes IpLocation :=
  match parse input with
  | some location => .ok location
  | none => .error (text "Invalid IP location")

/-- `AbslParseFlag` of some ranges, with its error. -/
def IpRange.parseFlag (input : Bytes) : Except Bytes (List IpRange) :=
  match parseMulti input with
  | some ranges => .ok ranges
  | none => .error (text "Invalid IP ranges")

theorem octetForm_printInt {p : Int} (h : 0 ≤ p ∧ p < 256) : OctetForm (printInt p) p := by
  have hform := OctetForm.print (show p.toNat < 256 by omega)
  rwa [Int.toNat_of_nonneg h.1, ← printInt_of_nonneg h.1] at hform

theorem addressForm_stream {ip : IpAddress} (h : ip.Octets) : AddressForm ip.stream ip := by
  refine ⟨_, rfl, ?_⟩
  rw [List.forall₂_map_left_iff, List.forall₂_same]
  exact fun p hp => octetForm_printInt (h p hp)

theorem rangeForm_stream {range : IpRange} (h : range.Octets) : RangeForm range.stream range := by
  obtain ⟨start, stop⟩ := range
  cases stop with
  | none =>
    have hform := RangeForm.single (addressForm_stream h.1)
    rwa [← List.append_nil start.stream] at hform
  | some stop => exact .range (addressForm_stream h.1) (addressForm_stream (h.2 stop rfl))

theorem itemForm_stream {range : IpRange} (h : range.Octets) {pre : Bytes}
    (hpre : ∀ b ∈ pre, isBlank b = true) : ItemForm (pre ++ range.stream) range :=
  ⟨range.stream, ⟨pre, [], (List.append_nil _).symm, hpre, fun _ hb => nomatch hb⟩,
    rangeForm_stream h⟩

/-- The printed ranges are in the documented form: all but the first have a blank in front. -/
theorem multiForm_unparseFlag {ranges : List IpRange} (h : ∀ range ∈ ranges, range.Octets) :
    MultiForm (IpRange.unparseFlag ranges) ranges := by
  cases ranges with
  | nil => exact .empty
  | cons range ranges =>
    obtain ⟨hrange, hranges⟩ := List.forall_mem_cons.1 h
    have hblank : ∀ b ∈ [(32 : UInt8)], isBlank b = true := by
      intro b hb
      rw [List.mem_singleton.1 hb]
      rfl
    have hnil : ∀ b ∈ ([] : Bytes), isBlank b = true := by simp
    have hfirst := itemForm_stream hrange hnil
    have hpair : IpRange.unparseFlag (range :: ranges) =
        [comma].intercalate (range.stream :: (ranges.map IpRange.stream).map (32 :: ·)) :=
      Separated.intercalate_pair comma 32 range.stream (ranges.map IpRange.stream)
    rw [List.nil_append] at hfirst
    rw [hpair]
    refine .items (List.cons_ne_nil _ _) (.cons hfirst ?_)
    rw [List.map_map, List.forall₂_map_left_iff, List.forall₂_same]
    exact fun range hrange => itemForm_stream (hranges range hrange) hblank

theorem head?_printInt {n : Int} (h : 0 ≤ n) : ∃ b, (printInt n).head? = some b ∧ isDigit b = true := by
  obtain ⟨b, bs, hb⟩ := List.exists_cons_of_ne_nil (print_ne_nil n.toNat)
  refine ⟨b, ?_, isDigit_of_mem_print b (hb ▸ List.mem_cons_self)⟩
  rw [printInt_of_nonneg h, hb, List.head?_cons]

/-- `std::stoi` reads back a printed `int`. -/
theorem stoi_printInt {n : Int} (hn : -2 ^ 31 ≤ n ∧ n < 2 ^ 31) : stoi (printInt n) = .ok n := by
  have hdigits : ∀ m, (print m).takeWhile isDigit = print m := by
    intro m
    rw [List.takeWhile_eq_self_iff]
    exact isDigit_of_mem_print
  by_cases hneg : n < 0
  · have hprint : printInt n = dash :: print n.natAbs := if_pos hneg
    have hread : stoiDigits (dash :: print n.natAbs) = print n.natAbs := hdigits n.natAbs
    have hsign : ((dash :: print n.natAbs).dropWhile isSpace).head? = some dash := rfl
    have hvalue : -((value (print n.natAbs) : Nat) : Int) = n := by
      rw [value_print]
      omega
    rw [hprint, stoi, hread, hsign]
    simp only [print_ne_nil, if_true, if_false, hvalue, if_pos hn]
  · obtain ⟨b, hb, hdigit⟩ := head?_printInt (Int.not_lt.1 hneg)
    obtain ⟨bs, hbs⟩ := List.head?_eq_some_iff.1 hb
    have hprint := printInt_of_nonneg (Int.not_lt.1 hneg)
    have hspace : (printInt n).dropWhile isSpace = printInt n := by
      rw [hbs, List.dropWhile_cons_of_neg (by rw [isSpace_of_isDigit hdigit]; decide)]
    have hdash : b ≠ dash := ne_of_isDigit hdigit (by decide)
    have hplus : b ≠ plus := ne_of_isDigit hdigit (by decide)
    have hread : stoiDigits (printInt n) = print n.toNat := by
      rw [stoiDigits, hspace, unsigned, hb, if_neg (by simp [hdash, hplus]), hprint, hdigits]
    have hvalue : ((value (print n.toNat) : Nat) : Int) = n := by
      rw [value_print]
      omega
    rw [stoi, hread, hspace, hb]
    simp only [print_ne_nil, Option.some_inj, hdash, if_false, hvalue, if_pos hn]

theorem parse_stream {ip : IpAddress} (h : ip.Octets) : IpAddress.parse ip.stream = some ip := by
  have hform := addressForm_stream h
  have hnil : ∀ b ∈ ([] : Bytes), isBlank b = true := by simp
  have hparse := (parse_pad hnil hnil hform.bytes).2 hform
  rwa [List.nil_append, List.append_nil] at hparse

theorem splitOn_unparseFlag {location : IpLocation} (h : location.address.Octets) :
    location.unparseFlag.splitOn colon = [location.address.stream, printInt location.port] := by
  have haddress : colon ∉ location.address.stream := by
    intro hmem
    rcases (addressForm_stream h).bytes colon hmem with hdigit | hdot
    · cases hdigit
    · cases hdot
  have hport : colon ∉ printInt location.port := by
    intro hmem
    rcases mem_printInt colon hmem with hdigit | hdash
    · cases hdigit
    · cases hdash
  rw [IpLocation.unparseFlag, Separated.splitOn_append_cons, List.splitOn_eq_singleton haddress,
    List.splitOn_eq_singleton hport]
  rfl

theorem parse_unparseFlag {location : IpLocation} (h : location.address.Octets)
    (hport : -2 ^ 31 ≤ location.port ∧ location.port < 2 ^ 31) :
    IpLocation.parse location.unparseFlag = some location := by
  unfold IpLocation.parse
  simp only [splitOn_unparseFlag h, parse_stream h, stoi_printInt hport]

/-- What a flag's value is printed as is read as that value again. -/
theorem flags_survive :
    (∀ ranges : List IpRange, (∀ range ∈ ranges, range.Octets) →
      IpRange.parseMulti (IpRange.unparseFlag ranges) = some ranges) ∧
    (∀ location : IpLocation, location.address.Octets →
      -2 ^ 31 ≤ location.port ∧ location.port < 2 ^ 31 →
      IpLocation.parse location.unparseFlag = some location) :=
  ⟨fun _ h => parseMulti_of_multiForm (multiForm_unparseFlag h),
    fun _ h hport => parse_unparseFlag h hport⟩

theorem flags_survive_private :
    IpRange.parseMulti (IpRange.unparseFlag IpRange.kPrivateIpRanges) =
      some IpRange.kPrivateIpRanges ∧
    IpLocation.parse (IpLocation.unparseFlag ⟨⟨127, 0, 0, 1⟩, -1⟩) =
      some ⟨⟨127, 0, 0, 1⟩, -1⟩ := by
  have hprivate : ∀ range ∈ IpRange.kPrivateIpRanges, range.Octets := by
    unfold IpRange.Octets
    decide
  exact ⟨flags_survive.1 IpRange.kPrivateIpRanges hprivate,
    flags_survive.2 ⟨⟨127, 0, 0, 1⟩, -1⟩ (by decide) (by decide)⟩

/-! ## Socket addresses -/

/-- What the program sets of a `sockaddr_in`. The four bytes of the address stand for a number. -/
structure SockaddrIn where
  sinAddr : UInt32
  sinPort : UInt16
deriving DecidableEq, Repr

/-- `htons`. -/
def Endian.htons (e : Endian) (x : UInt16) : UInt16 :=
  match e with
  | .little => .ofNat (x.toNat % 256 * 256 + x.toNat / 256)
  | .big => x

/-- `ntohs`. -/
def Endian.ntohs (e : Endian) (x : UInt16) : UInt16 := e.htons x

theorem Endian.ntohs_htons (e : Endian) (x : UInt16) : e.ntohs (e.htons x) = x := by
  have hx := x.toNat_lt
  cases e with
  | little =>
    have hlt : x.toNat % 256 * 256 + x.toNat / 256 < 2 ^ 16 := by omega
    have hlow : (x.toNat % 256 * 256 + x.toNat / 256) % 256 = x.toNat / 256 := by omega
    have hhigh : (x.toNat % 256 * 256 + x.toNat / 256) / 256 = x.toNat % 256 := by omega
    apply UInt16.toNat_inj.1
    rw [ntohs, htons, htons, UInt16.toNat_ofNat', UInt16.toNat_ofNat', Nat.mod_eq_of_lt hlt, hlow,
      hhigh, Nat.div_add_mod', Nat.mod_eq_of_lt hx]
  | big => rfl

/-- One of the four numbers that `inet_pton` reads: no leading zeros, and no more than 255. -/
def ptonOctet (s : Bytes) : Option Nat :=
  if s ≠ [] ∧ s.all isDigit ∧ (s.head? = some 48 → s.length = 1) ∧ value s < 256 then
    some (value s)
  else none

/-- `inet_pton` for `AF_INET`. -/
def inetPton (s : Bytes) : Option UInt32 :=
  match (s.splitOn dot).mapM ptonOctet with
  | some [a, b, c, d] => some (.ofNat (a * 256 ^ 3 + b * 256 ^ 2 + c * 256 + d))
  | _ => none

/-- `IpAddress::ToUnixSockaddr`. -/
def IpAddress.toUnixSockaddr (ip : IpAddress) : Option UInt32 :=
  inetPton ([dot].intercalate (ip.parts.map printInt))

/-- `IpLocation::ToUnixSockaddr`. The `int` is converted to the `uint16_t` of `htons`. -/
def IpLocation.toUnixSockaddr (location : IpLocation) (e : Endian) : Option SockaddrIn :=
  match location.address.toUnixSockaddr with
  | none => none
  | some sinAddr => some ⟨sinAddr, e.htons (UInt16.ofInt location.port)⟩

theorem ptonOctet_printInt {p : Int} (h : 0 ≤ p ∧ p < 256) :
    ptonOctet (printInt p) = some p.toNat := by
  have hform : (print p.toNat).head? = some 48 → (print p.toNat).length = 1 := by
    intro hhead
    by_cases hzero : p.toNat = 0
    · rw [hzero]
      rfl
    · exact absurd hhead (head?_print_ne_zero hzero)
  have hall : (print p.toNat).all isDigit = true := List.all_eq_true.2 isDigit_of_mem_print
  rw [printInt_of_nonneg h.1, ptonOctet, value_print,
    if_pos ⟨print_ne_nil _, hall, hform, by omega⟩]

/-- An address of octets is converted to its value. -/
theorem IpAddress.toUnixSockaddr_eq {ip : IpAddress} (h : ip.Octets) :
    ip.toUnixSockaddr = some (.ofNat ip.value.toNat) := by
  have hdots : ∀ f ∈ ip.parts.map printInt, dot ∉ f := by
    intro f hf hdot
    obtain ⟨p, hp, rfl⟩ := List.mem_map.1 hf
    rcases mem_printInt dot hdot with hdigit | hdash
    · cases hdigit
    · cases hdash
  obtain ⟨a, b, c, d⟩ := ip
  have hvalue : value ⟨a, b, c, d⟩ = a * 256 ^ 3 + b * 256 ^ 2 + c * 256 + d := value_eq _
  simp only [Octets, parts, List.forall_mem_cons] at h
  obtain ⟨ha, hb, hc, hd, -⟩ := h
  rw [toUnixSockaddr, inetPton, List.splitOn_intercalate dot hdots (List.cons_ne_nil _ _)]
  simp only [parts, List.map_cons, List.map_nil, List.mapM_cons, List.mapM_nil,
    ptonOctet_printInt ha, ptonOctet_printInt hb, ptonOctet_printInt hc, ptonOctet_printInt hd]
  have hnat : a.toNat * 256 ^ 3 + b.toNat * 256 ^ 2 + c.toNat * 256 + d.toNat =
      (value ⟨a, b, c, d⟩).toNat := by
    rw [hvalue]
    omega
  rw [← hnat]
  rfl

theorem bounds_of_parsePart {strPart : Bytes} {n : Int}
    (h : IpAddress.parsePart strPart = some n) : 0 ≤ n ∧ n < 256 := by
  unfold IpAddress.parsePart at h
  split at h
  · cases h
  · split at h
    · cases h
    · next hbounds =>
      simp only [Bool.or_eq_true, decide_eq_true_eq, not_or] at hbounds
      obtain rfl := Option.some.inj h
      omega

theorem bounds_of_forall₂ {strParts : List Bytes} {ns : List Int}
    (h : List.Forall₂ (fun strPart n => IpAddress.parsePart strPart = some n) strParts ns) :
    ∀ n ∈ ns, 0 ≤ n ∧ n < 256 := by
  induction h with
  | nil => exact fun n hn => absurd hn List.not_mem_nil
  | cons hpart _ ih => exact List.forall_mem_cons.2 ⟨bounds_of_parsePart hpart, ih⟩

theorem octets_of_parse {input : Bytes} {ip : IpAddress} (h : IpAddress.parse input = some ip) :
    ip.Octets := bounds_of_forall₂ (parse_eq_some.1 h)

/-! ## Ports -/

/-- The port that a text gives after its colon; the default port if it has no colon. -/
def portOf (input : Bytes) : Option Int :=
  match input.splitOn colon with
  | [_] => some kDefaultPort
  | [_, portPart] => (stoi portPart).toOption
  | _ => none

/-- The address of an accepted text carries the port that the text gives, and a text whose port does
not fit into 16 bits is not accepted. -/
structure PortKept (e : Endian) (input : Bytes) : Prop where
  carried : ∀ location, IpLocation.parse input = some location →
    ∃ sockaddr port, location.toUnixSockaddr e = some sockaddr ∧ portOf input = some port ∧
      ((e.ntohs sockaddr.sinPort).toNat : Int) = port
  rejected : ∀ port, portOf input = some port → ¬ (0 ≤ port ∧ port < 2 ^ 16) →
    IpLocation.parse input = none

/-- What is accepted has the address it begins with, and its port. -/
theorem parseLocation_eq_some {input : Bytes} {location : IpLocation}
    (h : IpLocation.parse input = some location) :
    ∃ address, IpAddress.parse address = some location.address ∧
      portOf input = some location.port ∧
      (input.splitOn colon = [address] ∧ location.port = kDefaultPort ∨
        ∃ portPart, input.splitOn colon = [address, portPart] ∧ stoi portPart = .ok location.port) := by
  unfold IpLocation.parse at h
  unfold portOf
  split at h
  · next address hsplit =>
    split at h
    · next addr haddr =>
      obtain rfl := Option.some.inj h
      exact ⟨address, haddr, rfl, .inl ⟨hsplit, rfl⟩⟩
    · cases h
  · next address portPart hsplit =>
    split at h
    · next addr haddr =>
      split at h
      · next port hport =>
        obtain rfl := Option.some.inj h
        exact ⟨address, haddr, by simp only [hport]; rfl, .inr ⟨portPart, hsplit, hport⟩⟩
      · cases h
    · cases h
  · cases h

theorem ntohs_sinPort {location : IpLocation} (h : location.address.Octets) (e : Endian) :
    ∃ sockaddr, location.toUnixSockaddr e = some sockaddr ∧
      ((e.ntohs sockaddr.sinPort).toNat : Int) = location.port % 2 ^ 16 := by
  refine ⟨_, by rw [IpLocation.toUnixSockaddr, IpAddress.toUnixSockaddr_eq h], ?_⟩
  rw [Endian.ntohs_htons, UInt16.ofInt, UInt16.toNat_ofNat']
  omega

/-- **No port wraps** exactly if a text with an address and a number after a colon has one in
0..65535. -/
theorem portKept_iff (e : Endian) (input : Bytes) : PortKept e input ↔
    ∀ address portPart port, input.splitOn colon = [address, portPart] →
      (IpAddress.parse address).isSome → stoi portPart = .ok port → 0 ≤ port ∧ port < 2 ^ 16 := by
  constructor
  · intro h address portPart port hsplit haddress hport
    by_contra hbad
    obtain ⟨addr, haddr⟩ := Option.isSome_iff_exists.1 haddress
    have hportOf : portOf input = some port := by
      simp only [portOf, hsplit, hport]
      rfl
    have hnone := h.rejected port hportOf hbad
    rw [IpLocation.parse, hsplit] at hnone
    simp only [haddr, hport] at hnone
    cases hnone
  · intro h
    have hfits : ∀ location, IpLocation.parse input = some location →
        0 ≤ location.port ∧ location.port < 2 ^ 16 := by
      intro location hparse
      obtain ⟨address, haddr, _, ⟨_, hdefault⟩ | ⟨portPart, hsplit, hport⟩⟩ :=
        parseLocation_eq_some hparse
      · rw [hdefault]
        decide
      · exact h address portPart location.port hsplit (by rw [haddr]; rfl) hport
    refine ⟨fun location hparse => ?_, fun port hport hbad => ?_⟩
    · obtain ⟨address, haddr, hport, _⟩ := parseLocation_eq_some hparse
      obtain ⟨sockaddr, hsockaddr, hsinPort⟩ := ntohs_sinPort (octets_of_parse haddr) e
      have hlocation := hfits location hparse
      exact ⟨sockaddr, location.port, hsockaddr, hport, by omega⟩
    · rw [Option.eq_none_iff_forall_ne_some]
      intro location hparse
      obtain ⟨_, _, hport', _⟩ := parseLocation_eq_some hparse
      rw [hport, Option.some_inj] at hport'
      exact hbad (hport' ▸ hfits location hparse)

/-- Port 70000 becomes port 4464. -/
theorem port_seventy_thousand_wraps :
    IpLocation.parse (text "127.0.0.1:70000") = some ⟨⟨127, 0, 0, 1⟩, 70000⟩ ∧
    ((IpLocation.toUnixSockaddr ⟨⟨127, 0, 0, 1⟩, 70000⟩ .little).map fun sockaddr =>
      Endian.little.ntohs sockaddr.sinPort) = some 4464 ∧
    ¬ PortKept .little (text "127.0.0.1:70000") := by
  have hparse : IpLocation.parse (text "127.0.0.1:70000") = some ⟨⟨127, 0, 0, 1⟩, 70000⟩ := by
    decide
  have hoctets : IpAddress.Octets ⟨127, 0, 0, 1⟩ := by decide
  refine ⟨hparse, ?_, fun h => ?_⟩
  · rw [IpLocation.toUnixSockaddr, IpAddress.toUnixSockaddr_eq hoctets]
    decide
  · have hnone := h.rejected 70000 (by decide) (by decide)
    rw [hparse] at hnone
    cases hnone

end Netpull
