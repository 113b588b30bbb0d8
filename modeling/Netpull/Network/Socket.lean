import Mathlib.Data.List.TakeDrop
import Netpull.Network.Ip

/-!
# Socket connections

A connection with everything its system calls will answer: `incoming` is what the peer still
delivers before it closes, and the lists of answers say how the successive calls turn out. Once a
list has run out, its calls transfer all they can.

Protobuf is a parameter: `Protobuf M` is its coding of the messages `M`.
-/

namespace Netpull

inductive Errno
  | eintr
  | epipe
  | other (code : Nat)
deriving DecidableEq, Repr

/-- The answer to a call that transfers bytes: it fails, or transfers at most that many, but one at
least if it can. -/
inductive Answer
  | fail (errno : Errno)
  | upTo (n : Nat)
deriving DecidableEq, Repr

/-- How many bytes a call transfers of the `wanted` ones, when `available` ones are there. -/
def transferred (n wanted available : Nat) : Nat := min (max n 1) (min wanted available)

/-- The next call: its result, and the answers that are left. -/
def nextCall (answers : List Answer) (wanted available : Nat) : Except Errno Nat × List Answer :=
  match answers with
  | [] => (.ok (min wanted available), [])
  | .upTo n :: rest => (.ok (transferred n wanted available), rest)
  | .fail errno :: rest => (.error errno, rest)

/-- No call fails. -/
def NoFail (answers : List Answer) : Prop := ∀ errno, .fail errno ∉ answers

/-- A call that does not fail transfers something, if there is something to transfer. -/
theorem nextCall_eq {answers : List Answer} (h : NoFail answers) (wanted available : Nat) :
    ∃ k rest, nextCall answers wanted available = (.ok k, rest) ∧ NoFail rest ∧ k ≤ wanted ∧
      k ≤ available ∧ (0 < wanted → 0 < available → 0 < k) := by
  cases answers with
  | nil => exact ⟨_, _, rfl, h, by omega, by omega, by omega⟩
  | cons answer rest =>
    have hrest : NoFail rest := fun errno he => h errno (List.mem_cons_of_mem _ he)
    cases answer with
    | fail errno => exact absurd List.mem_cons_self (h errno)
    | upTo n =>
      refine ⟨_, rest, rfl, hrest, ?_, ?_, ?_⟩ <;>
      · unfold transferred
        omega

theorem nextCall_le {answers rest : List Answer} {wanted available k : Nat}
    (h : nextCall answers wanted available = (.ok k, rest)) : k ≤ wanted ∧ k ≤ available := by
  have htransferred : ∀ n, transferred n wanted available ≤ min wanted available :=
    fun n => Nat.min_le_right _ _
  unfold nextCall at h
  split at h
  · simp only [Prod.mk.injEq, Except.ok.injEq] at h
    omega
  · next n _ =>
    have hn := htransferred n
    simp only [Prod.mk.injEq, Except.ok.injEq] at h
    omega
  · cases h

theorem nextCall_pos {answers rest : List Answer} {wanted available k : Nat}
    (h : nextCall answers wanted available = (.ok k, rest)) (hw : 0 < wanted) (ha : 0 < available) :
    0 < k := by
  unfold nextCall at h
  split at h
  · simp only [Prod.mk.injEq, Except.ok.injEq] at h
    omega
  · simp only [Prod.mk.injEq, Except.ok.injEq] at h
    unfold transferred at h
    omega
  · cases h

/-- The answer to `SerializeToFileDescriptor`: it writes the message, or fails after some bytes. -/
inductive WriteAnswer
  | done
  | fail (errno : Errno) (written : Nat)
deriving DecidableEq, Repr

/-- `SocketConnection`. -/
structure SocketConnection where
  peer : IpAddress
  alive : Bool
  incoming : Bytes
  recvs : List Answer
  outgoing : Bytes
  sends : List Answer
  writes : List WriteAnswer
deriving DecidableEq, Repr

/-- The coding of messages by protobuf. -/
structure Protobuf (M : Type) where
  byteSizeLong : M → Nat
  serializeAsString : M → Bytes
  parseFromString : Bytes → Option M

/-- What is assumed of protobuf. -/
structure Protobuf.Lawful {M : Type} (P : Protobuf M) : Prop where
  size : ∀ m, P.byteSizeLong m = (P.serializeAsString m).length
  parse : ∀ m, P.parseFromString (P.serializeAsString m) = some m

/-! ## Byte order -/

/-- The byte order of a host. -/
inductive Endian
  | little
  | big
deriving DecidableEq, Repr

def bigEndian (x : UInt32) : Bytes :=
  [.ofNat (x.toNat / 2 ^ 24), .ofNat (x.toNat / 2 ^ 16), .ofNat (x.toNat / 2 ^ 8), .ofNat x.toNat]

def ofBigEndian (bytes : Bytes) : UInt32 := .ofNat (bytes.foldl (fun x b => x * 2 ^ 8 + b.toNat) 0)

/-- The bytes of a `uint32_t` in memory. -/
def Endian.memory (e : Endian) (x : UInt32) : Bytes :=
  match e with
  | .little => (bigEndian x).reverse
  | .big => bigEndian x

/-- The `uint32_t` whose bytes are in memory. -/
def Endian.ofMemory (e : Endian) (bytes : Bytes) : UInt32 :=
  match e with
  | .little => ofBigEndian bytes.reverse
  | .big => ofBigEndian bytes

/-- `htonl`. -/
def Endian.htonl (e : Endian) (x : UInt32) : UInt32 :=
  match e with
  | .little => ofBigEndian (bigEndian x).reverse
  | .big => x

/-- `ntohl`. -/
def Endian.ntohl (e : Endian) (x : UInt32) : UInt32 := e.htonl x

theorem ofBigEndian_bigEndian (x : UInt32) : ofBigEndian (bigEndian x) = x := by
  have hx := x.toNat_lt
  apply UInt32.toNat_inj.1
  simp only [ofBigEndian, bigEndian, List.foldl_cons, List.foldl_nil, UInt32.toNat_ofNat',
    UInt8.toNat_ofNat']
  omega

theorem bigEndian_ofBigEndian {bytes : Bytes} (h : bytes.length = 4) :
    bigEndian (ofBigEndian bytes) = bytes := by
  match bytes, h with
  | [a, b, c, d], _ =>
    have ha := a.toNat_lt
    have hb := b.toNat_lt
    have hc := c.toNat_lt
    have hd := d.toNat_lt
    simp only [ofBigEndian, bigEndian, List.foldl_cons, List.foldl_nil, UInt32.toNat_ofNat',
      List.cons.injEq, and_true]
    refine ⟨?_, ?_, ?_, ?_⟩ <;>
    · apply UInt8.toNat_inj.1
      rw [UInt8.toNat_ofNat']
      omega

theorem length_bigEndian (x : UInt32) : (bigEndian x).length = 4 := rfl

/-- A swapped size lies in memory in network order. -/
theorem Endian.memory_ntohl (e : Endian) (x : UInt32) : e.memory (e.ntohl x) = bigEndian x := by
  cases e with
  | big => rfl
  | little =>
    have hlen : (bigEndian x).reverse.length = 4 := rfl
    simp only [memory, ntohl, htonl, bigEndian_ofBigEndian hlen, List.reverse_reverse]

/-- Swapping what was read in network order gives the size back. -/
theorem Endian.htonl_ofMemory (e : Endian) (x : UInt32) :
    e.htonl (e.ofMemory (bigEndian x)) = x := by
  cases e with
  | big => exact ofBigEndian_bigEndian x
  | little =>
    have hlen : (bigEndian x).reverse.length = 4 := rfl
    simp only [htonl, ofMemory, bigEndian_ofBigEndian hlen, List.reverse_reverse,
      ofBigEndian_bigEndian]

namespace SocketConnection

/-! ## Reading -/

/-- The loop of `ReadBytes`, over the answers to `recv`. -/
def readBytesLoop (size : Nat) : List Answer → SocketConnection → Option Bytes × SocketConnection
  | [], c =>
    (some (c.incoming.take size), { c with incoming := c.incoming.drop size, recvs := [] })
  | .upTo n :: recvs, c =>
    let k := transferred n size c.incoming.length
    (some (c.incoming.take k), { c with incoming := c.incoming.drop k, recvs })
  | .fail errno :: recvs, c =>
    if errno = .eintr then readBytesLoop size recvs c
    else (none, { c with alive := c.alive && errno ≠ .epipe, recvs })

/-- `SocketConnection::ReadBytes`. -/
def readBytes (c : SocketConnection) (size : Nat) : Option Bytes × SocketConnection :=
  readBytesLoop size c.recvs c

/-- The loop of `ReadAllBytes`, for at most `fuel` rounds; every round but the last reads a byte. -/
def readAllLoop : Nat → Nat → Bytes → SocketConnection → Option Bytes × SocketConnection
  | _, 0, buffer, c => (some buffer, c)
  | 0, _ + 1, _, c => (none, c)
  | fuel + 1, missing + 1, buffer, c =>
    match c.readBytes (missing + 1) with
    | (none, c) => (none, c)
    | (some [], c) => (none, c)
    | (some (b :: bytes), c) => readAllLoop fuel (missing - bytes.length) (buffer ++ b :: bytes) c

/-- `SocketConnection::ReadAllBytes`, with the filled buffer. -/
def readAllBytes (c : SocketConnection) (size : Nat) : Option Bytes × SocketConnection :=
  readAllLoop size size [] c

/-- `SocketConnection::ReadProtobufMessage`. -/
def readProtobufMessage {M : Type} (e : Endian) (P : Protobuf M) (c : SocketConnection) :
    Option M × SocketConnection :=
  match c.readAllBytes 4 with
  | (none, c) => (none, c)
  | (some bytes, c) =>
    match c.readAllBytes (e.htonl (e.ofMemory bytes)).toNat with
    | (none, c) => (none, c)
    | (some buffer, c) => (P.parseFromString buffer, c)

/-! ## Sending -/

/-- The loop of `SendBytes`, over the answers to `send`. -/
def sendBytesLoop (bytes : Bytes) : List Answer → SocketConnection → Option Nat × SocketConnection
  | [], c => (some bytes.length, { c with outgoing := c.outgoing ++ bytes, sends := [] })
  | .upTo n :: sends, c =>
    let k := transferred n bytes.length bytes.length
    (some k, { c with outgoing := c.outgoing ++ bytes.take k, sends })
  | .fail errno :: sends, c =>
    if errno = .eintr then sendBytesLoop bytes sends c
    else (none, { c with alive := c.alive && errno ≠ .epipe, sends })

/-- `SocketConnection::SendBytes`. -/
def sendBytes (c : SocketConnection) (bytes : Bytes) : Option Nat × SocketConnection :=
  sendBytesLoop bytes c.sends c

/-- The loop of `SendAllBytes`, for at most `fuel` rounds; every round sends a byte. -/
def sendAllLoop : Nat → Bytes → SocketConnection → Bool × SocketConnection
  | _, [], c => (true, c)
  | 0, _ :: _, c => (false, c)
  | fuel + 1, b :: bytes, c =>
    match c.sendBytes (b :: bytes) with
    | (none, c) => (false, c)
    | (some n, c) => sendAllLoop fuel ((b :: bytes).drop n) c

/-- `SocketConnection::SendAllBytes`. -/
def sendAllBytes (c : SocketConnection) (bytes : Bytes) : Bool × SocketConnection :=
  sendAllLoop bytes.length bytes c

/-- `SerializeToFileDescriptor` on the descriptor of the connection. -/
def serializeToFileDescriptor {M : Type} (P : Protobuf M) (m : M) (c : SocketConnection) :
    Bool × SocketConnection :=
  match c.writes with
  | [] => (true, { c with outgoing := c.outgoing ++ P.serializeAsString m })
  | .done :: writes => (true, { c with outgoing := c.outgoing ++ P.serializeAsString m, writes })
  | .fail _ written :: writes =>
    (false, { c with outgoing := c.outgoing ++ (P.serializeAsString m).take written, writes })

/-- `SocketConnection::SendProtobufMessage`. -/
def sendProtobufMessage {M : Type} (e : Endian) (P : Protobuf M) (m : M) (c : SocketConnection) :
    Bool × SocketConnection :=
  match c.sendAllBytes (e.memory (e.ntohl (.ofNat (P.byteSizeLong m)))) with
  | (false, c) => (false, c)
  | (true, c) => serializeToFileDescriptor P m c

end SocketConnection

end Netpull
