import Netpull.Bytes

/-!
# Digests

`Sha256Builder` over `SHA256_Final`, which may fail and is a parameter: it is a function of the
bytes that were hashed. The integrity tasks of server and client hash a file with it.
-/

namespace Netpull

/-- A digit of `absl::Hex`. -/
def hexDigit (n : UInt8) : UInt8 := if n < 10 then 48 + n else 87 + n

/-- `Hexlify`. -/
def hexlify (bytes : Bytes) : Bytes := bytes.flatMap fun b => [hexDigit (b / 16), hexDigit (b % 16)]

theorem hexDigit_injective {m n : UInt8} (hm : m < 16) (hn : n < 16)
    (h : hexDigit m = hexDigit n) : m = n := by
  rw [UInt8.lt_iff_toNat_lt] at hm hn
  unfold hexDigit at h
  rw [← UInt8.toNat_inj] at h ⊢
  simp only [UInt8.lt_iff_toNat_lt] at h
  split at h <;> split at h <;> simp only [UInt8.toNat_add] at h <;> grind

theorem halves_lt (b : UInt8) : b / 16 < 16 ∧ b % 16 < 16 := by
  have hb := b.toNat_lt
  rw [UInt8.lt_iff_toNat_lt, UInt8.lt_iff_toNat_lt, UInt8.toNat_div, UInt8.toNat_mod]
  change b.toNat / 16 < 16 ∧ b.toNat % 16 < 16
  omega

/-- Different digests have different hexadecimal texts. -/
theorem hexlify_injective {bs cs : Bytes} (h : hexlify bs = hexlify cs) : bs = cs := by
  induction bs generalizing cs with
  | nil =>
    cases cs with
    | nil => rfl
    | cons c cs => cases h
  | cons b bs ih =>
    cases cs with
    | nil => cases h
    | cons c cs =>
      simp only [hexlify, List.flatMap_cons, List.cons_append, List.nil_append,
        List.cons.injEq] at h
      obtain ⟨hhigh, hlow, hrest⟩ := h
      have hdiv := hexDigit_injective (halves_lt b).1 (halves_lt c).1 hhigh
      have hmod := hexDigit_injective (halves_lt b).2 (halves_lt c).2 hlow
      rw [← UInt8.toNat_inj, UInt8.toNat_div, UInt8.toNat_div] at hdiv
      rw [← UInt8.toNat_inj, UInt8.toNat_mod, UInt8.toNat_mod] at hmod
      change b.toNat / 16 = c.toNat / 16 at hdiv
      change b.toNat % 16 = c.toNat % 16 at hmod
      rw [ih hrest, UInt8.toNat_inj.1 (show b.toNat = c.toNat by omega)]

/-- `Sha256Builder`, with the bytes hashed so far. -/
structure Sha256Builder where
  ctx : Bytes

namespace Sha256Builder

def init : Sha256Builder := ⟨[]⟩

/-- `Sha256Builder::Update`. -/
def update (b : Sha256Builder) (bytes : Bytes) : Sha256Builder := ⟨b.ctx ++ bytes⟩

/-- `Sha256Builder::Update` of an array: size 0 stands for all of it. -/
def updateArray (b : Sha256Builder) (array : Bytes) (size : Nat) : Sha256Builder :=
  b.update (array.take (if size = 0 then array.length else size))

/-- `Sha256Builder::Finish`. -/
def finish (sha256Final : Bytes → Option Bytes) (b : Sha256Builder) : Option Bytes :=
  (sha256Final b.ctx).map hexlify

end Sha256Builder

/-- What the calls of a task that hashes a file come to: whether the file opens, the bytes of the
successive reads, whether they end at the end of the file, and `SHA256_Final`. -/
structure IntegrityCalls where
  opens : Bool
  reads : List Bytes
  eof : Bool
  sha256Final : Bytes → Option Bytes

namespace IntegrityCalls

def builder (calls : IntegrityCalls) : Sha256Builder :=
  calls.reads.foldl Sha256Builder.update .init

/-- `Sha256Builder::Finish` after all reads. -/
def finish (calls : IntegrityCalls) : Option Bytes := calls.builder.finish calls.sha256Final

/-- `SHA256_Final` succeeds on what was read. -/
def hashes (calls : IntegrityCalls) : Bool := (calls.sha256Final calls.reads.flatten).isSome

theorem builder_ctx (calls : IntegrityCalls) : calls.builder.ctx = calls.reads.flatten := by
  have hfold : ∀ (reads : List Bytes) (b : Sha256Builder),
      (reads.foldl Sha256Builder.update b).ctx = b.ctx ++ reads.flatten := by
    intro reads
    induction reads with
    | nil =>
      intro b
      exact (List.append_nil _).symm
    | cons bytes reads ih =>
      intro b
      rw [List.foldl_cons, ih, List.flatten_cons, ← List.append_assoc]
      rfl
  exact hfold calls.reads .init

theorem finish_isSome (calls : IntegrityCalls) : calls.finish.isSome = calls.hashes := by
  rw [finish, Sha256Builder.finish, builder_ctx, Option.isSome_map]
  rfl

end IntegrityCalls

/-- The SHA-256 of no bytes. -/
def emptyDigest : Bytes :=
  [0xe3, 0xb0, 0xc4, 0x42, 0x98, 0xfc, 0x1c, 0x14, 0x9a, 0xfb, 0xf4, 0xc8, 0x99, 0x6f, 0xb9, 0x24,
   0x27, 0xae, 0x41, 0xe4, 0x64, 0x9b, 0x93, 0x4c, 0xa4, 0x95, 0x99, 0x1b, 0x78, 0x52, 0xb8, 0x55]

/-- The SHA-256 of `abc`. -/
def abcDigest : Bytes :=
  [0xba, 0x78, 0x16, 0xbf, 0x8f, 0x01, 0xcf, 0xea, 0x41, 0x41, 0x40, 0xde, 0x5d, 0xae, 0x22, 0x23,
   0xb0, 0x03, 0x61, 0xa3, 0x96, 0x17, 0x7a, 0x9c, 0xb4, 0x10, 0xff, 0x61, 0xf2, 0x00, 0x15, 0xad]

end Netpull
