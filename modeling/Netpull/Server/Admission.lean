import Netpull.Network.IpParse
import Netpull.Server.AcceptLoop

/-!
# Which peers are admitted

The address of a peer is printed and read back, and compared part by part with the ends of the
ranges. `admission_exact` says that this amounts to comparing 32-bit numbers.
-/

namespace Netpull

/-- What the accept loop reads from a connection, if it comes to read its request. -/
def requestRead (cfg : ServerConfig) (conn : SocketConnection) :
    Option (Option PullRequest × SocketConnection) :=
  if IpRange.multiContains cfg.denyIpRanges conn.peer then none
  else if !IpRange.multiContains cfg.allowIpRanges conn.peer then none
  else some (SocketConnection.readProtobufMessage cfg.endian cfg.protobuf conn)

/-- What the loop makes of what it has read. -/
def afterRead (cfg : ServerConfig) (s : ServerState) (a : Accepted) :
    Option (Option PullRequest × SocketConnection) → ServerState × Control
  | none => (s, .next)
  | some (none, _) => (s, .exit 1)
  | some (some req, conn) => (handleRequest cfg s a conn req, a.after cfg req)

theorem handleConnection_eq (cfg : ServerConfig) (s : ServerState) (a : Accepted) :
    handleConnection cfg s a = afterRead cfg s a (requestRead cfg a.conn) := by
  unfold handleConnection requestRead
  split
  · rfl
  · split
    · rfl
    · generalize SocketConnection.readProtobufMessage cfg.endian cfg.protobuf a.conn = r
      obtain ⟨_ | req, conn⟩ := r <;> rfl

theorem requestRead_isSome (cfg : ServerConfig) (conn : SocketConnection) :
    (requestRead cfg conn).isSome = true ↔ Admitted cfg conn.peer := by
  unfold requestRead Admitted
  cases IpRange.multiContains cfg.denyIpRanges conn.peer <;>
    cases IpRange.multiContains cfg.allowIpRanges conn.peer <;> simp

/-- The operators of two addresses are the orders of their values. -/
structure ComparedByValue (x y : IpAddress) : Prop where
  lt : x.lt y = true ↔ x.value < y.value
  le : x.le y = true ↔ x.value ≤ y.value
  gt : x.gt y = true ↔ y.value < x.value
  ge : x.ge y = true ↔ y.value ≤ x.value

/-- **Admission**: the loop reads a request of the peer if and only if no denied and some allowed
range has its address. -/
theorem admission_exact (cfg : ServerConfig)
    (hdeny : ∀ range ∈ cfg.denyIpRanges, range.Octets)
    (hallow : ∀ range ∈ cfg.allowIpRanges, range.Octets) (sinAddr : UInt32) :
    (∃ peer, IpAddress.fromUnixSockaddr sinAddr = some peer ∧ peer.Octets ∧
        peer.value = sinAddr.toNat) ∧
      (∀ x y : IpAddress, x.Octets → y.Octets → ComparedByValue x y) ∧
      ∀ (s : ServerState) (a : Accepted), IpAddress.fromUnixSockaddr sinAddr = some a.conn.peer →
        handleConnection cfg s a = afterRead cfg s a (requestRead cfg a.conn) ∧
          ((requestRead cfg a.conn).isSome = true ↔
            (∀ range ∈ cfg.denyIpRanges, ¬ range.Covers sinAddr.toNat) ∧
              ∃ range ∈ cfg.allowIpRanges, range.Covers sinAddr.toNat) := by
  have hoctets := IpAddress.octets_ofSinAddr sinAddr
  have hvalue := IpAddress.value_ofSinAddr sinAddr
  refine ⟨⟨_, IpAddress.fromUnixSockaddr_eq sinAddr, hoctets, hvalue⟩, ?_, ?_⟩
  · intro x y hx hy
    exact ⟨IpAddress.lt_iff hx hy, IpAddress.le_iff hx hy, IpAddress.gt_iff hx hy,
      IpAddress.ge_iff hx hy⟩
  · intro s a hpeer
    refine ⟨handleConnection_eq cfg s a, ?_⟩
    rw [IpAddress.fromUnixSockaddr_eq] at hpeer
    have hconn : a.conn.peer = IpAddress.ofSinAddr sinAddr := (Option.some.inj hpeer).symm
    have hdenied := IpRange.multiContains_iff hdeny hoctets
    have hallowed := IpRange.multiContains_iff hallow hoctets
    rw [hvalue] at hdenied hallowed
    rw [requestRead_isSome, hconn, Admitted, hallowed, Bool.eq_false_iff, ne_eq, hdenied]
    push Not
    rfl

/-- The server for the local host reads a request of 127.0.0.1 and of no other peer. -/
theorem admission_exact_localServer :
    (∀ range ∈ localServer.denyIpRanges, range.Octets) ∧
      (∀ range ∈ localServer.allowIpRanges, range.Octets) ∧
      (requestRead localServer silentClient.conn).isSome = true := by
  have hdeny : ∀ range ∈ localServer.denyIpRanges, range.Octets := by
    intro range h
    cases h
  have hallow : ∀ range ∈ localServer.allowIpRanges, range.Octets := by
    intro range h
    rw [List.mem_singleton.1 h]
    exact ⟨by decide, by simp⟩
  refine ⟨hdeny, hallow, ?_⟩
  have hexact := (admission_exact localServer hdeny hallow 0x7f000001).2.2
    ⟨fun _ => none, .empty, [], []⟩ silentClient rfl
  exact hexact.2.2 ⟨by simp [localServer], _, List.mem_singleton_self _, rfl⟩

end Netpull
