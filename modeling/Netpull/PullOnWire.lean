import Netpull.Lib.Simulation
import Netpull.PullEnds
import Netpull.Server.Wire

/-!
# A pull, byte by byte

The pull of `EndToEnd` hands whole messages over. Here the client reads the bytes that the threads
of the server write, in pieces of any size, and the connection may be lost between any two of them.
The client still gets exactly the messages, so every such pull is one of whole messages
(`pull_on_wire_refines`), and it comes to its end (`pull_on_wire_ends`).
-/

namespace Netpull

open PullObject Transition

/-- What protobuf brings across: a message whose size is right and fits, and that is parsed back. -/
structure Protobuf.Carries {M : Type} (P : Protobuf M) (m : M) : Prop where
  size : P.byteSizeLong m = (P.serializeAsString m).length
  fits : Fits P m
  parse : P.parseFromString (P.serializeAsString m) = some m

structure WirePullState where
  server : WireState
  client : ClientState
  /-- What the call of `ReadProtobufMessage` has read. -/
  got : Bytes
  /-- The number of bytes that were read in all. -/
  consumed : Nat
  /-- The number of bytes that still arrive, if the connection was lost. -/
  cut : Option Nat

def WirePullState.start (cfg : PullConfig) (readyFiles : ReadyFilesMap) : WirePullState where
  server := .start cfg.session readyFiles
  client := .start cfg.client
  got := []
  consumed := 0
  cut := none

/-- The size in front of a message. -/
def sizeOf4 (got : Bytes) : Nat := (ofBigEndian (got.take 4)).toNat

/-- How many bytes the current call of `ReadAllBytes` still wants: those of the size, or those of the
message. -/
def missing (got : Bytes) : Nat :=
  if got.length < 4 then 4 - got.length else 4 + sizeOf4 got - got.length

namespace WirePullState

/-- What has arrived and was not read. -/
def unread (s : WirePullState) : Bytes :=
  (s.server.wire.take (s.cut.getD s.server.wire.length)).drop s.consumed

/-- Nothing more will arrive: the connection was lost, or the server has closed it. -/
def hungUp (s : WirePullState) : Bool :=
  s.cut.isSome || s.server.session.pc.isOver &&
    s.server.writes.all fun w => s.server.session.pc = .dead ∧ w.writer ≠ .manager

end WirePullState

/-- The events of a pull. `lose k` is the loss of the connection after the first `k` bytes. -/
inductive WirePullEvent
  | server (event : WireEvent)
  | client (event : ClientEvent)
  | recv (k : Nat)
  | received
  | fails
  | lose (k : Nat)
deriving DecidableEq

/-- An event of a pull. The client reads in its main thread: each `recv` brings some of the bytes it
asks for, then the call has `received` a message, or it `fails`. -/
def wirePullStep (P : Protobuf PullResponse) (cfg : PullConfig) (s : WirePullState) :
    WirePullEvent → Option WirePullState
  | .server event => (wireStep P cfg.session s.server event).map fun server => { s with server }
  | .client (.receive _) => none
  | .client event => (clientStep cfg.client s.client event).map fun client => { s with client }
  | .recv k =>
    if s.client.pc = .reading ∧ 0 < k ∧ k ≤ missing s.got ∧ k ≤ s.unread.length then
      some { s with got := s.got ++ s.unread.take k, consumed := s.consumed + k }
    else none
  | .received =>
    if missing s.got = 0 then
      (clientStep cfg.client s.client (.receive (P.parseFromString (s.got.drop 4)))).map
        fun client => { s with client, got := [] }
    else none
  | .fails =>
    if missing s.got ≠ 0 ∧ s.unread = [] ∧ s.hungUp then
      (clientStep cfg.client s.client (.receive none)).map fun client => { s with client }
    else none
  | .lose k =>
    if s.cut = none ∧ s.consumed ≤ k ∧ k ≤ s.server.wire.length then some { s with cut := some k }
    else none

/-! ## Pieces of a frame -/

section Pieces

variable {P : Protobuf PullResponse} {got : Bytes}

/-- A call never reads beyond the message it is at. -/
def Within (got : Bytes) : Prop := 4 < got.length → got.length ≤ 4 + sizeOf4 got

theorem sizeOf4_append {more : Bytes} (h : 4 ≤ got.length) :
    sizeOf4 (got ++ more) = sizeOf4 got := by
  rw [sizeOf4, List.take_append_of_le_length h, sizeOf4]

theorem Within.append (h : Within got) {more : Bytes} (hmore : more.length ≤ missing got) :
    Within (got ++ more) := by
  intro hlong
  rw [List.length_append] at hlong ⊢
  unfold missing at hmore
  split at hmore
  · omega
  · next hsize =>
    rw [Nat.not_lt] at hsize
    rw [sizeOf4_append hsize]
    rcases Nat.eq_or_lt_of_le hsize with heq | hlt
    · omega
    · have := h hlt
      omega

theorem sizeOf4_frame {m : PullResponse} (h : P.Carries m) (rest : Bytes) :
    sizeOf4 (frame P m ++ rest) = (P.serializeAsString m).length := by
  rw [sizeOf4, frame, List.append_assoc, List.take_left' (length_bigEndian _),
    ofBigEndian_bigEndian, UInt32.toNat_ofNat', h.size]
  exact Nat.mod_eq_of_lt h.fits

theorem length_frame (m : PullResponse) :
    (frame P m).length = 4 + (P.serializeAsString m).length := by
  rw [frame, List.length_append, length_bigEndian]

/-- A call that wants no more has read exactly one frame. -/
theorem Within.whole (h : Within got) (hmissing : missing got = 0) {m : PullResponse}
    (hm : P.Carries m) {rest : Bytes} (hpre : got <+: frame P m ++ rest) : got = frame P m := by
  have hsize : 4 ≤ got.length := by
    unfold missing at hmissing
    split at hmissing <;> omega
  obtain ⟨more, hmore⟩ := hpre
  have hsame : sizeOf4 got = (P.serializeAsString m).length := by
    rw [← sizeOf4_frame hm rest, ← hmore, sizeOf4_append hsize]
  have hlength : got.length = (frame P m).length := by
    rw [length_frame]
    unfold missing at hmissing
    rw [if_neg (by omega), hsame] at hmissing
    rcases Nat.eq_or_lt_of_le hsize with heq | hlt
    · omega
    · have hle := h hlt
      omega
  have htake := congrArg (List.take got.length) hmore
  rwa [List.take_left, hlength, List.take_left] at htake

/-- A call that has read a frame wants no more. -/
theorem missing_frame {m : PullResponse} (hm : P.Carries m) (hpre : frame P m <+: got) :
    missing got = 0 := by
  obtain ⟨rest, rfl⟩ := hpre
  have hlength := length_frame (P := P) m
  unfold missing
  rw [sizeOf4_frame hm, List.length_append]
  split <;> omega

/-- What a call that wants no more returns is what `ReadProtobufMessage` returns, however its calls
of `recv` are answered. -/
theorem readProtobufMessage_pieces (e : Endian) (hwithin : Within got) (hmissing : missing got = 0)
    {c : SocketConnection} (hrecvs : OnlyEintr c.recvs) {rest : Bytes}
    (hin : c.incoming = got ++ rest) :
    (c.readProtobufMessage e P).1 = P.parseFromString (got.drop 4) := by
  have hsize : 4 ≤ got.length := by
    unfold missing at hmissing
    split at hmissing <;> omega
  have hlength : got.length = 4 + sizeOf4 got := by
    unfold missing at hmissing
    rw [if_neg (by omega)] at hmissing
    rcases Nat.eq_or_lt_of_le hsize with heq | hlt
    · omega
    · have hle := hwithin hlt
      omega
  have hfour : (ofBigEndian ((got ++ rest).take 4)).toNat = sizeOf4 got := sizeOf4_append hsize
  rw [readProtobufMessage_eq e hrecvs, framedMessage, hin]
  simp only [hfour, List.length_append]
  rw [if_pos (by omega), List.drop_append_of_le_length hsize, List.take_append_of_le_length]
  · rw [List.take_of_length_le]
    rw [List.length_drop]
    omega
  · rw [List.length_drop]
    omega

/-- And if the bytes end where it still wants some, it fails. -/
theorem readProtobufMessage_part (e : Endian) (hmissing : missing got ≠ 0) {c : SocketConnection}
    (hrecvs : OnlyEintr c.recvs) (hin : c.incoming = got) :
    (c.readProtobufMessage e P).1 = none := by
  have hshort : ¬ 4 + sizeOf4 got ≤ got.length := by
    unfold missing at hmissing
    split at hmissing <;> omega
  rw [readProtobufMessage_eq e hrecvs, framedMessage, hin]
  exact if_neg hshort

/-- How many frames are whole in the first bytes of a stream. -/
theorem exists_whole (P : Protobuf PullResponse) (ms : List PullResponse) (b : Nat) :
    ∃ k ≤ ms.length, ∀ n ≤ ms.length, ((ms.take n).flatMap (frame P)).length ≤ b ↔ n ≤ k := by
  induction ms generalizing b with
  | nil => exact ⟨0, Nat.le_refl 0, by simp⟩
  | cons m ms ih =>
    by_cases hfits : (frame P m).length ≤ b
    · obtain ⟨k, hk, hwhole⟩ := ih (b - (frame P m).length)
      refine ⟨k + 1, Nat.succ_le_succ hk, fun n hn => ?_⟩
      cases n with
      | zero => simp
      | succ n =>
        have hn' := hwhole n (Nat.le_of_succ_le_succ hn)
        rw [List.take_succ_cons, List.flatMap_cons, List.length_append]
        omega
    · refine ⟨0, Nat.zero_le _, fun n hn => ?_⟩
      cases n with
      | zero => simp
      | succ n =>
        rw [List.take_succ_cons, List.flatMap_cons, List.length_append]
        omega

theorem length_frames_succ (P : Protobuf PullResponse) (received rest : List PullResponse)
    (m : PullResponse) :
    (((received ++ m :: rest).take (received.length + 1)).flatMap (frame P)).length =
      (received.flatMap (frame P)).length + (frame P m).length := by
  have htake : (received ++ m :: rest).take (received.length + 1) = received ++ [m] := by
    rw [List.append_cons]
    exact List.take_left' (by simp)
  rw [htake, List.flatMap_append, List.flatMap_singleton, List.length_append]

end Pieces

/-! ## Messages from bytes -/

section Simulation

variable {P : Protobuf PullResponse} {cfg : PullConfig} {s s' : WirePullState} {t : PullState}

/-- A pull on the wire and the pull of whole messages it stands for. -/
structure OnWire (P : Protobuf PullResponse) (cfg : PullConfig) (s : WirePullState)
    (t : PullState) : Prop where
  server : t.server = s.server.session
  client : t.client = s.client
  goes : Goes cfg t
  wired : Wired P cfg.session s.server
  carried : ∀ m ∈ s.server.session.stream, P.Carries m
  within : Within s.got
  read : s.client.received.flatMap (frame P) ++ s.got = s.server.wire.take s.consumed
  consumed : s.consumed ≤ s.server.wire.length
  cut : ∀ b, s.cut = some b → s.consumed ≤ b ∧ b ≤ s.server.wire.length
  /-- As many messages still arrive as have their frames before the cut. -/
  whole : s.client.pc.isOver = false → ∀ b, s.cut = some b → ∃ k ≤ s.server.session.stream.length,
    t.cut = some k ∧ ∀ n ≤ s.server.session.stream.length,
      ((s.server.session.stream.take n).flatMap (frame P)).length ≤ b ↔ n ≤ k
  uncut : s.client.pc.isOver = false → s.cut = none → t.cut = none
  failed : s.client.pc = .failed →
    s.cut.isSome ∨ s.server.session.pc = .rejected ∨ s.server.session.pc = .dead

/-- A message that protobuf does not bring across was sent. -/
def Lost (P : Protobuf PullResponse) (s : WirePullState) : Prop :=
  ∃ m ∈ s.server.session.stream, ¬ P.Carries m

theorem OnWire.start (cfg : PullConfig) (readyFiles : ReadyFilesMap) :
    OnWire P cfg (.start cfg readyFiles) (.start cfg readyFiles) where
  server := rfl
  client := rfl
  goes := .start cfg readyFiles
  wired := .start readyFiles
  carried := by rintro m ⟨⟩
  within := fun hlong => absurd hlong (Nat.not_lt_zero 4)
  read := rfl
  consumed := Nat.le_refl 0
  cut := by rintro b ⟨⟩
  whole := by rintro - b ⟨⟩
  uncut := fun _ _ => rfl
  failed := by rintro ⟨⟩

/-- What was read of the next message is a part of the frames that were not read. -/
theorem OnWire.next (h : OnWire P cfg s t) : ∃ tail,
    s.server.session.stream = s.client.received ++ tail ∧ s.got <+: tail.flatMap (frame P) := by
  have hreceived := h.goes.pull.received
  rw [h.server, h.client] at hreceived
  obtain ⟨tail, htail⟩ := hreceived
  refine ⟨tail, htail.symm, s.server.wire.drop s.consumed ++ s.server.writes.flatMap (·.rest), ?_⟩
  have hwire := h.wired.wire
  rw [← htail, List.flatMap_append, ← List.take_append_drop s.consumed s.server.wire, ← h.read,
    List.append_assoc, List.append_assoc] at hwire
  exact List.append_cancel_left hwire

theorem OnWire.length_read (h : OnWire P cfg s t) :
    (s.client.received.flatMap (frame P)).length + s.got.length = s.consumed := by
  have hread := congrArg List.length h.read
  rw [List.length_append, List.length_take] at hread
  have hle := h.consumed
  omega

/-- A call that wants no more has read the next message, which comes in before the cut. -/
theorem OnWire.arrives (h : OnWire P cfg s t) (hpc : s.client.pc = .reading)
    (hmissing : missing s.got = 0) :
    ∃ m, P.Carries m ∧ s.got = frame P m ∧ t.incoming = some (some m) := by
  have hlive : s.client.pc.isOver = false := by
    rw [hpc]
    rfl
  obtain ⟨tail, htail, hpre⟩ := h.next
  cases tail with
  | nil =>
    have hnil : s.got = [] := List.prefix_nil.1 hpre
    rw [hnil] at hmissing
    cases hmissing
  | cons m tail =>
    have hm : P.Carries m := h.carried m (by simp [htail])
    rw [List.flatMap_cons] at hpre
    have hgot := h.within.whole hmissing hm hpre
    refine ⟨m, hm, hgot, ?_⟩
    have hlt : s.client.received.length < s.server.session.stream.length := by
      rw [htail, List.length_append, List.length_cons]
      omega
    have hbefore : s.client.received.length < t.cut.getD s.server.session.stream.length := by
      cases hcut : s.cut with
      | none =>
        rw [h.uncut hlive hcut]
        exact hlt
      | some b =>
        obtain ⟨k, hk, hcut', hwhole⟩ := h.whole hlive b hcut
        rw [hcut', Option.getD_some]
        apply (hwhole _ hlt).1
        rw [htail, length_frames_succ, ← hgot, h.length_read]
        exact (h.cut b hcut).1
    unfold PullState.incoming
    rw [h.server, h.client, if_pos hbefore, htail, List.getElem?_append_right (Nat.le_refl _),
      Nat.sub_self]
    rfl

/-- A call that wants more has not read a whole message. -/
theorem not_frame_of_missing {got : Bytes} (hmissing : missing got ≠ 0) {m : PullResponse}
    (hm : P.Carries m) : ¬ frame P m <+: got :=
  fun hpre => hmissing (missing_frame hm hpre)

/-- A call that fails has nothing to come: in the pull of whole messages the client has received
all that arrives, unless the server died while it was sending. -/
theorem OnWire.hangs (h : OnWire P cfg s t) (hpc : s.client.pc = .reading)
    (hmissing : missing s.got ≠ 0) (hunread : s.unread = []) (hhungUp : s.hungUp = true) :
    t.incoming = some none ∨ s.cut = none ∧ s.server.session.pc = .dead := by
  have hlive : s.client.pc.isOver = false := by
    rw [hpc]
    rfl
  obtain ⟨tail, htail, hpre⟩ := h.next
  -- A message before the end would be read already.
  have hnone : ∀ m rest, tail = m :: rest → ¬ (frame P m).length ≤ s.got.length := by
    rintro m rest rfl hle
    rw [List.flatMap_cons] at hpre
    apply not_frame_of_missing hmissing (h.carried m (by simp [htail]))
    exact List.prefix_of_prefix_length_le (List.prefix_append _ _) hpre hle
  have hread := h.length_read
  rw [WirePullState.unread, List.drop_eq_nil_iff, List.length_take] at hunread
  cases hcut : s.cut with
  | some b =>
    left
    obtain ⟨k, hk, hcut', hwhole⟩ := h.whole hlive b hcut
    obtain ⟨hconsumed, hb⟩ := h.cut b hcut
    rw [hcut, Option.getD_some] at hunread
    have hall : ¬ s.client.received.length < k := by
      intro hlt
      cases tail with
      | nil =>
        rw [htail, List.append_nil] at hk
        omega
      | cons m rest =>
        have hlen := (hwhole (s.client.received.length + 1) (by omega)).2 hlt
        rw [htail, length_frames_succ] at hlen
        exact hnone m rest rfl (by omega)
    unfold PullState.incoming
    rw [h.client, hcut', Option.getD_some, if_neg hall, Option.isSome_some, Bool.true_or,
      if_pos rfl]
  | none =>
    rw [hcut, Option.getD_none, Nat.min_self] at hunread
    rw [WirePullState.hungUp, hcut, Option.isSome_none, Bool.false_or, Bool.and_eq_true] at hhungUp
    obtain ⟨hover, hclosed⟩ := hhungUp
    cases hwrites : s.server.writes with
    | cons w rest =>
      rw [hwrites, List.all_cons, Bool.and_eq_true, decide_eq_true_eq] at hclosed
      exact .inr ⟨rfl, hclosed.1.1⟩
    | nil =>
      left
      have hwire := congrArg List.length h.wired.wire
      rw [hwrites, List.flatMap_nil, List.append_nil] at hwire
      have hall : tail = [] := by
        cases tail with
        | nil => rfl
        | cons m rest =>
          rw [htail, List.flatMap_append, List.flatMap_cons, List.length_append,
            List.length_append] at hwire
          have hconsumed := h.consumed
          exact absurd (by omega) (hnone m rest rfl)
      unfold PullState.incoming
      rw [h.client, h.server, h.uncut hlive hcut, htail, hall, List.append_nil, Option.getD_none,
        if_neg (Nat.lt_irrefl _), hover, Bool.or_true, if_pos rfl]

/-! ## Events -/

/-- An event of a thread of the server is one of the session. -/
theorem OnWire.session (hid : cfg.session.ctx.job.id ≠ []) (hcfg : Servable cfg.session)
    (h : OnWire P cfg s t) {event : SessionEvent} {server : WireState}
    (hs : s.server.act P cfg.session event = some server)
    (hcarried : ∀ m ∈ server.session.stream, P.Carries m) :
    ∃ t', pullStep cfg t (.server event) = some t' ∧ OnWire P cfg { s with server } t' := by
  obtain ⟨session, hstep, hsession, hwire⟩ : ∃ session,
      sessionStep cfg.session s.server.session event = some session ∧
        server.session = session ∧ server.wire = s.server.wire := by
    cases (act_cases hs).1 with
    | quiet session hstep | begins session hstep => exact ⟨session, hstep, rfl, rfl⟩
  have ht : pullStep cfg t (.server event) = some { t with server := session } := by
    rw [pullStep, h.server, hstep]
    rfl
  obtain ⟨new, hsends⟩ := sessionStep_sends hstep
  refine ⟨_, ht, ?_⟩
  constructor
  · exact hsession.symm
  · exact h.client
  · exact h.goes.step hid hcfg ht
  · exact h.wired.act hcfg hs
  · exact hcarried
  · exact h.within
  · rw [hwire]
    exact h.read
  · rw [hwire]
    exact h.consumed
  · rw [hwire]
    exact h.cut
  · intro hlive b hb
    obtain ⟨k, hk, hcut, hwhole⟩ := h.whole hlive b hb
    simp only [hsession, hsends.stream, List.length_append]
    refine ⟨k, by omega, hcut, fun n hn => ?_⟩
    by_cases hle : n ≤ s.server.session.stream.length
    · rw [List.take_append_of_le_length hle]
      exact hwhole n hle
    · -- A frame that is sent after the cut ends after it.
      obtain ⟨m, hm⟩ : ∃ m, new = [m] := by
        apply List.length_eq_one_iff.1
        have hfew := hsends.few
        omega
      have hlength := length_frames_succ P s.server.session.stream [] m
      have hwires := congrArg List.length h.wired.wire
      have hframe := length_frame (P := P) m
      have hbefore := (h.cut b hb).2
      rw [List.length_append] at hwires
      have hfew := hsends.few
      obtain rfl : n = s.server.session.stream.length + 1 := by omega
      rw [hm, hlength]
      omega
  · exact h.uncut
  · intro hpc
    refine (h.failed hpc).imp_right fun hends => ?_
    have hover : s.server.session.pc.isOver = true := by
      rcases hends with hends | hends <;> rw [hends] <;> rfl
    rw [hsession, sessionStep_isOver hstep hover]
    exact hends

/-- What a piece of a frame leaves to send. -/
theorem write_length {s s' : WireState} {i k : Nat}
    (hs : wireStep P cfg.session s (.write i k) = some s') :
    ∃ bytes, s'.wire = s.wire ++ bytes ∧ 0 < bytes.length ∧ s'.session = s.session ∧
      (s'.writes.map (·.rest.length)).sum + bytes.length =
        (s.writes.map (·.rest.length)).sum := by
  obtain ⟨w, hw, hgoes⟩ := Option.bind_eq_some_iff.1 hs
  split at hgoes
  · next hmay =>
    obtain ⟨-, hpos, hk⟩ := hmay
    obtain rfl := Option.some.inj hgoes
    have htake : (w.rest.take k).length = k := by
      rw [List.length_take]
      omega
    refine ⟨w.rest.take k, rfl, by omega, rfl, ?_⟩
    have hbefore := WorkerPool.sum_map_eraseIdx (f := fun w : Write => w.rest.length) hw
    obtain ⟨hi, -⟩ := List.getElem?_eq_some_iff.1 hw
    simp only
    split
    · omega
    · have hset : (s.writes.set i { w with rest := w.rest.drop k })[i]? =
          some { w with rest := w.rest.drop k } := List.getElem?_set_self hi
      have hafter := WorkerPool.sum_map_eraseIdx (f := fun w : Write => w.rest.length) hset
      rw [List.eraseIdx_set_eq] at hafter
      simp only [List.length_drop] at hafter
      omega
  · cases hgoes

def WirePullState.rank (s : WirePullState) : Nat :=
  2 * (s.server.writes.map (·.rest.length)).sum + (s.server.wire.length - s.consumed) +
    if s.cut = none then 1 else 0

/-- A piece of a frame is no event of the session. -/
theorem OnWire.writes (h : OnWire P cfg s t) {i k : Nat} {server : WireState}
    (hs : wireStep P cfg.session s.server (.write i k) = some server) :
    OnWire P cfg { s with server } t ∧ ({ s with server } : WirePullState).rank < s.rank := by
  obtain ⟨bytes, hwire, hpos, hsession, hsum⟩ := write_length hs
  have hconsumed := h.consumed
  refine ⟨⟨?_, h.client, h.goes, h.wired.write hs, ?_, h.within, ?_, ?_, ?_, ?_, h.uncut, ?_⟩, ?_⟩
  · rw [hsession]
    exact h.server
  · rw [hsession]
    exact h.carried
  · rw [hwire, List.take_append_of_le_length h.consumed]
    exact h.read
  · show s.consumed ≤ server.wire.length
    rw [hwire, List.length_append]
    omega
  · intro b hb
    obtain ⟨hbefore, hafter⟩ := h.cut b hb
    refine ⟨hbefore, ?_⟩
    show b ≤ server.wire.length
    rw [hwire, List.length_append]
    omega
  · rw [hsession]
    exact h.whole
  · rw [hsession]
    exact h.failed
  · simp only [WirePullState.rank, hwire, List.length_append]
    omega

/-- The client does something else than reading. -/
theorem OnWire.client_step (hid : cfg.session.ctx.job.id ≠ []) (hcfg : Servable cfg.session)
    (h : OnWire P cfg s t) {event : ClientEvent} (hevent : ∀ resp, event ≠ .receive resp)
    {client : ClientState} (hs : clientStep cfg.client s.client event = some client) :
    ∃ t', pullStep cfg t (.client event) = some t' ∧ OnWire P cfg { s with client } t' := by
  have hlive := clientStep_live hs
  have ht : pullStep cfg t (.client event) = some { t with client } := by
    cases event with
    | receive resp => exact absurd rfl (hevent resp)
    | main | pop i | run j | overrun j wsCol =>
      show (clientStep cfg.client t.client _).map _ = _
      rw [h.client, hs]
      rfl
  have hreceived : client.received = s.client.received := by
    rcases clientStep_received hs with hsame | ⟨resp, hresp, -⟩
    · exact hsame
    · exact absurd hresp (hevent _)
  refine ⟨_, ht, h.server, rfl, h.goes.step hid hcfg ht, h.wired, h.carried, h.within, ?_,
    h.consumed, h.cut, fun _ => h.whole hlive, fun _ => h.uncut hlive, ?_⟩
  · rw [hreceived]
    exact h.read
  · intro hpc
    obtain ⟨-, rfl⟩ := clientStep_failed hs hpc
    exact absurd rfl (hevent none)

/-- A call of `ReadProtobufMessage` returns a message. -/
theorem OnWire.received (hid : cfg.session.ctx.job.id ≠ []) (hcfg : Servable cfg.session)
    (h : OnWire P cfg s t) (hmissing : missing s.got = 0) {client : ClientState}
    (hs : clientStep cfg.client s.client (.receive (P.parseFromString (s.got.drop 4))) =
      some client) :
    ∃ event t', pullStep cfg t event = some t' ∧
      OnWire P cfg { s with client, got := [] } t' := by
  have hlive := clientStep_live hs
  have hpc := reading_of_receive hs
  obtain ⟨m, hm, hgot, hincoming⟩ := h.arrives hpc hmissing
  have hparsed : P.parseFromString (s.got.drop 4) = some m := by
    rw [hgot, frame, List.drop_left' (length_bigEndian _), hm.parse]
  rw [hparsed] at hs
  have ht : pullStep cfg t (.client (.receive (some m))) = some { t with client } := by
    rw [pullStep, if_pos hincoming, h.client, hs]
    rfl
  have hreceived : client.received = s.client.received ++ [m] := by
    cases clientStep_cases hs
    rfl
  refine ⟨_, _, ht, h.server, rfl, h.goes.step hid hcfg ht, h.wired, h.carried,
    fun hlong => absurd hlong (Nat.not_lt_zero 4), ?_, h.consumed, h.cut, fun _ => h.whole hlive,
    fun _ => h.uncut hlive, ?_⟩
  · have hread := h.read
    rw [hgot] at hread
    rw [hreceived, List.flatMap_append, List.flatMap_singleton, List.append_nil]
    exact hread
  · intro hfailed
    obtain ⟨-, hnone⟩ := clientStep_failed hs hfailed
    cases hnone

/-- A call of `ReadProtobufMessage` fails. -/
theorem OnWire.fails (hid : cfg.session.ctx.job.id ≠ []) (hcfg : Servable cfg.session)
    (h : OnWire P cfg s t) (hmissing : missing s.got ≠ 0) (hunread : s.unread = [])
    (hhungUp : s.hungUp = true) {client : ClientState}
    (hs : clientStep cfg.client s.client (.receive none) = some client) :
    ∃ event events t', script (pullStep cfg) t (event :: events) = some t' ∧
      OnWire P cfg { s with client } t' := by
  have hlive := clientStep_live hs
  obtain ⟨hpc, rfl⟩ : s.client.pc = .reading ∧ client = { s.client with pc := .failed } := by
    cases clientStep_cases hs
    exact ⟨by assumption, rfl⟩
  have hfails : ∀ t₁ : PullState, t₁.client = s.client → t₁.incoming = some none →
      pullStep cfg t₁ (.client (.receive none)) =
        some { t₁ with client := { s.client with pc := .failed } } := by
    intro t₁ hclient hincoming
    rw [pullStep, if_pos hincoming, hclient, hs]
    rfl
  have hover : ¬ (ClientPc.failed.isOver = false) := by decide
  rcases h.hangs hpc hmissing hunread hhungUp with hincoming | ⟨hcut, hdead⟩
  · have ht := hfails t h.client hincoming
    refine ⟨.client (.receive none), [], { t with client := { s.client with pc := .failed } },
      by rw [script, ht]; rfl, h.server, rfl, h.goes.step hid hcfg ht, h.wired, h.carried, h.within,
      h.read, h.consumed, h.cut, fun hlive' => absurd hlive' hover, fun hlive' => absurd hlive' hover, fun _ => ?_⟩
    rcases h.goes.fails (by rw [h.client, hpc]) hincoming with hlost | hends
    · cases hcut : s.cut with
      | some b => exact .inl rfl
      | none =>
        rw [h.uncut hlive hcut] at hlost
        cases hlost
    · rw [h.server] at hends
      exact .inr hends
  · -- The message that the server died of is lost with the connection.
    have hreceived := h.goes.pull.received.length_le
    have hlose : pullStep cfg t (.lose t.client.received.length) =
        some { t with cut := some t.client.received.length } := by
      simp only [pullStep]
      exact if_pos ⟨h.uncut hlive hcut, Nat.le_refl _, hreceived⟩
    have hgoes := h.goes.step hid hcfg hlose
    have hincoming : PullState.incoming { t with cut := some t.client.received.length } =
        some none := by
      simp [PullState.incoming]
    have ht := hfails { t with cut := some t.client.received.length } h.client hincoming
    refine ⟨.lose t.client.received.length, [.client (.receive none)],
      ⟨t.server, { s.client with pc := .failed }, some t.client.received.length⟩, ?_, h.server, rfl,
      hgoes.step hid hcfg ht, h.wired, h.carried, h.within, h.read, h.consumed, h.cut,
      fun hlive' => absurd hlive' hover, fun hlive' => absurd hlive' hover,
      fun _ => .inr (.inr hdead)⟩
    rw [script, hlose, Option.bind_some, script, ht]
    rfl

/-- The connection is lost after some byte. -/
theorem OnWire.loses (hid : cfg.session.ctx.job.id ≠ []) (hcfg : Servable cfg.session)
    (h : OnWire P cfg s t) (hlive : s.client.pc.isOver = false) (hcut : s.cut = none) {b : Nat}
    (hconsumed : s.consumed ≤ b) (hb : b ≤ s.server.wire.length) :
    ∃ event t', pullStep cfg t event = some t' ∧ OnWire P cfg { s with cut := some b } t' := by
  obtain ⟨k, hk, hwhole⟩ := exists_whole P s.server.session.stream b
  have hreceived := h.goes.pull.received
  rw [h.server, h.client] at hreceived
  have hreached : s.client.received.length ≤ k := by
    apply (hwhole _ hreceived.length_le).1
    obtain ⟨tail, htail⟩ := hreceived
    have hread := h.length_read
    rw [← htail, List.take_left]
    omega
  have ht : pullStep cfg t (.lose k) = some { t with cut := some k } := by
    simp only [pullStep]
    exact if_pos ⟨h.uncut hlive hcut, by rw [h.client]; exact hreached, by rw [h.server]; exact hk⟩
  refine ⟨_, _, ht, h.server, h.client, h.goes.step hid hcfg ht, h.wired, h.carried, h.within,
    h.read, h.consumed, ?_, ?_, fun _ hnone => (by cases hnone), fun _ => .inl rfl⟩
  · rintro b' ⟨⟩
    exact ⟨hconsumed, hb⟩
  · rintro - b' ⟨⟩
    exact ⟨k, hk, rfl, hwhole⟩

/-- **The pull on the wire is a pull of whole messages**, as long as protobuf brings its messages
across. -/
theorem wirePull_simulates (hid : cfg.session.ctx.job.id ≠ []) (hcfg : Servable cfg.session) :
    Simulates (wirePullStep P cfg) (pullStep cfg) (OnWire P cfg) WirePullState.rank (Lost P) := by
  intro s t event s' h hs hlost
  have hone : ∀ event' : PullEvent, ∀ t', pullStep cfg t event' = some t' → OnWire P cfg s' t' →
      ∃ f fs t', script (pullStep cfg) t (f :: fs) = some t' ∧ OnWire P cfg s' t' := by
    intro event' t' ht h'
    exact ⟨event', [], t', by rw [script, ht]; rfl, h'⟩
  have hcarried : ∀ m ∈ s'.server.session.stream, P.Carries m := by
    intro m hm
    by_contra hnot
    exact hlost ⟨m, hm, hnot⟩
  cases event with
  | server event =>
    obtain ⟨server, hserver, rfl⟩ := Option.map_eq_some_iff.1 hs
    cases event with
    | session event =>
      obtain ⟨t', ht, h'⟩ := h.session hid hcfg hserver hcarried
      exact .inr (hone _ t' ht h')
    | write i k => exact .inl (h.writes hserver)
  | client event =>
    cases event with
    | receive resp => cases hs
    | main | pop i | run j | overrun j wsCol =>
      obtain ⟨client, hclient, rfl⟩ := Option.map_eq_some_iff.1 hs
      obtain ⟨t', ht, h'⟩ := h.client_step hid hcfg (fun _ => ClientEvent.noConfusion) hclient
      exact .inr (hone _ t' ht h')
  | recv k =>
    simp only [wirePullStep] at hs
    split at hs
    · next hmay =>
      obtain ⟨-, hpos, hmissing, hk⟩ := hmay
      obtain rfl := Option.some.inj hs
      have hlength : (s.unread.take k).length = k := by
        rw [List.length_take]
        omega
      have hwire : k ≤ s.server.wire.length - s.consumed := by
        rw [WirePullState.unread, List.length_drop, List.length_take] at hk
        omega
      have hbefore : k ≤ s.cut.getD s.server.wire.length - s.consumed := by
        rw [WirePullState.unread, List.length_drop, List.length_take] at hk
        omega
      have hconsumed := h.consumed
      refine .inl ⟨⟨h.server, h.client, h.goes, h.wired, h.carried, ?_, ?_, ?_, ?_, h.whole,
        h.uncut, h.failed⟩, ?_⟩
      · exact h.within.append (by rw [hlength]; exact hmissing)
      · show _ ++ (s.got ++ s.unread.take k) = s.server.wire.take (s.consumed + k)
        have htake : s.unread.take k = (s.server.wire.drop s.consumed).take k := by
          rw [WirePullState.unread, List.drop_take, List.take_take, Nat.min_eq_left hbefore]
        rw [← List.append_assoc, h.read, htake, ← List.take_add]
      · show s.consumed + k ≤ s.server.wire.length
        omega
      · intro b hb
        have hafter := h.cut b hb
        rw [hb, Option.getD_some] at hbefore
        exact ⟨by show s.consumed + k ≤ b; omega, hafter.2⟩
      · simp only [WirePullState.rank]
        omega
    · cases hs
  | received =>
    simp only [wirePullStep] at hs
    split at hs
    · next hmissing =>
      obtain ⟨client, hclient, rfl⟩ := Option.map_eq_some_iff.1 hs
      obtain ⟨event', t', ht, h'⟩ := h.received hid hcfg hmissing hclient
      exact .inr (hone event' t' ht h')
    · cases hs
  | fails =>
    simp only [wirePullStep] at hs
    split at hs
    · next hmay =>
      obtain ⟨hmissing, hunread, hhungUp⟩ := hmay
      obtain ⟨client, hclient, rfl⟩ := Option.map_eq_some_iff.1 hs
      exact .inr (h.fails hid hcfg hmissing hunread hhungUp hclient)
    · cases hs
  | lose b =>
    simp only [wirePullStep] at hs
    split at hs
    · next hmay =>
      obtain ⟨hcut, hconsumed, hb⟩ := hmay
      obtain rfl := Option.some.inj hs
      cases hlive : s.client.pc.isOver with
      | false =>
        obtain ⟨event', t', ht, h'⟩ := h.loses hid hcfg hlive hcut hconsumed hb
        exact .inr (hone event' t' ht h')
      | true =>
        -- The client has ended, so it does not matter what still arrives.
        have hover : ¬ (s.client.pc.isOver = false) := by simp [hlive]
        refine .inl ⟨⟨h.server, h.client, h.goes, h.wired, h.carried, h.within, h.read, h.consumed,
          ?_, fun hlive' => absurd hlive' hover, fun hlive' => absurd hlive' hover,
          fun _ => .inl rfl⟩, ?_⟩
        · rintro b' ⟨⟩
          exact ⟨hconsumed, hb⟩
        · simp [WirePullState.rank, hcut]
    · cases hs

theorem Lost.step {event : WirePullEvent} (h : Lost P s)
    (hs : wirePullStep P cfg s event = some s') : Lost P s' := by
  obtain ⟨m, hm, hnot⟩ := h
  suffices hstream : s.server.session.stream <+: s'.server.session.stream from
    ⟨m, hstream.subset hm, hnot⟩
  cases event with
  | server event =>
    obtain ⟨server, hserver, rfl⟩ := Option.map_eq_some_iff.1 hs
    rcases wire_simulates P cfg.session s.server event server hserver with hsame | ⟨e, he⟩
    · rw [hsame]
    · exact sessionStep_stream he
  | client event =>
    cases event with
    | receive resp => cases hs
    | main | pop i | run j | overrun j wsCol =>
      obtain ⟨client, -, rfl⟩ := Option.map_eq_some_iff.1 hs
      exact List.prefix_rfl
  | recv k | lose b =>
    simp only [wirePullStep] at hs
    split at hs
    · exact Option.some.inj hs ▸ List.prefix_rfl
    · cases hs
  | received | fails =>
    simp only [wirePullStep] at hs
    split at hs
    · obtain ⟨client, -, rfl⟩ := Option.map_eq_some_iff.1 hs
      exact List.prefix_rfl
    · cases hs

/-- Until the connection is closed, the server goes on. -/
theorem OnWire.server_goes (h : OnWire P cfg s t) (hserver : 0 < cfg.session.workers)
    (hhungUp : s.hungUp = false) : ∃ event server, wireStep P cfg.session s.server event =
      some server := by
  rw [WirePullState.hungUp, Bool.or_eq_false_iff, Bool.and_eq_false_iff] at hhungUp
  -- Somebody sends, or the session can do its next step.
  have hsends : ∀ w ∈ s.server.writes,
      (s.server.session.pc ≠ .dead ∨ w.writer = .manager) → ∃ event server,
        wireStep P cfg.session s.server event = some server := by
    intro w hw hmay
    obtain ⟨i, hi, hget⟩ := List.getElem_of_mem hw
    have hpos := List.length_pos_iff.2 (h.wired.unfinished w hw)
    refine ⟨.write i 1, ?_⟩
    simp only [wireStep, List.getElem?_eq_getElem hi, hget, Option.bind_some]
    exact ⟨_, if_pos ⟨hmay, Nat.one_pos, hpos⟩⟩
  rcases hhungUp.2 with hgoes | hopen
  · cases hwrites : s.server.writes with
    | cons w rest =>
      apply hsends w (by simp [hwrites])
      left
      intro hdead
      rw [hdead] at hgoes
      cases hgoes
    | nil =>
      obtain ⟨event, session, hstep⟩ := h.wired.serves.progress hserver hgoes
      refine ⟨.session event, ?_⟩
      simp only [wireStep, WireState.act, hwrites, List.any_nil, Bool.false_eq_true, if_false, hstep,
        Option.bind_some, Bool.and_false, List.map_nil]
      split <;> exact ⟨_, rfl⟩
  · rw [List.all_eq_false] at hopen
    obtain ⟨w, hw, hnot⟩ := hopen
    apply hsends w hw
    simpa [imp_iff_not_or] using hnot

/-- Until the client has ended something can happen. -/
theorem OnWire.progress (h : OnWire P cfg s t) (hserver : 0 < cfg.session.workers)
    (hclient : 0 < cfg.client.workers) (hlive : s.client.pc.isOver = false) :
    ∃ event s', wirePullStep P cfg s event = some s' := by
  by_cases hpc : s.client.pc = .reading
  · by_cases hmissing : missing s.got = 0
    · obtain ⟨client, hs⟩ := clientStep_receives cfg.client hpc (P.parseFromString (s.got.drop 4))
      exact ⟨.received, _, by rw [wirePullStep, if_pos hmissing, hs]; rfl⟩
    · cases hunread : s.unread with
      | cons byte rest =>
        refine ⟨.recv 1, _, if_pos ⟨hpc, Nat.one_pos, Nat.pos_of_ne_zero hmissing, ?_⟩⟩
        rw [hunread]
        exact Nat.succ_le_succ (Nat.zero_le _)
      | nil =>
        cases hhungUp : s.hungUp with
        | true =>
          obtain ⟨client, hs⟩ := clientStep_receives cfg.client hpc none
          exact ⟨.fails, _, by rw [wirePullStep, if_pos ⟨hmissing, hunread, hhungUp⟩, hs]; rfl⟩
        | false =>
          obtain ⟨event, server, hs⟩ := h.server_goes hserver hhungUp
          exact ⟨.server event, _, by rw [wirePullStep, hs]; rfl⟩
  · have hbalanced := (h.goes.exact_of_live (h.client ▸ hlive)).balanced
    have hworkers := h.goes.workers
    rw [h.client] at hbalanced hworkers
    obtain ⟨event, client, hevent, hs⟩ :=
      ClientState.progress cfg.client hbalanced hlive (hworkers ▸ hclient) hpc
    refine ⟨.client event, { s with client }, ?_⟩
    cases event with
    | receive resp | overrun j wsCol => cases hevent
    | main | pop i | run j =>
      show (clientStep cfg.client s.client _).map _ = _
      rw [hs]
      rfl

/-- What the end of a client says about the pull on the wire. -/
theorem OnWire.ended (hcfg : Servable cfg.session) (h : OnWire P cfg s t)
    (hover : t.client.pc.isOver = true) : Ended cfg ⟨s.server.session, s.client, s.cut⟩ := by
  have hended := h.goes.ended hcfg hover
  unfold Ended at hended ⊢
  rw [h.client, h.server] at hended
  cases hpc : s.client.pc with
  | failed =>
    have hserves := h.wired.serves
    exact (h.failed hpc).imp_right hserves.refused
  | reported incomplete | _ =>
    rw [hpc] at hended
    exact hended

end Simulation

/-! ## Pulls on the wire -/

/-- **A pull on the wire refines the pull of whole messages.** For every tree, every job and every
schedule, however the calls that send and receive are split and wherever the connection is lost: if
protobuf brings the messages across and no send of the server fails, there is a pull of whole
messages in which server and client come to the same. -/
theorem pull_on_wire_refines (P : Protobuf PullResponse) (fs : FileSystem) (ctx : CrawlContext)
    (hid : ctx.job.id ≠ []) {root : Bytes} (habs : isAbsolute root = true)
    (hres : isResolved root = true) {fuel : Nat} (hfuel : fs.tree.dirCount ≤ fuel)
    (integrity : Bytes → IntegrityCalls) (workers : Nat) (client : ClientConfig)
    (readyFiles : ReadyFilesMap) {schedule : List WirePullEvent} {s : WirePullState} :
    let cfg : PullConfig := ⟨.onFileSystem fs fuel ctx root integrity workers, client⟩
    script (wirePullStep P cfg) (.start cfg readyFiles) schedule = some s →
      (∀ m ∈ s.server.session.stream, P.Carries m) →
      ∃ events t, script (pullStep cfg) (.start cfg readyFiles) events = some t ∧
        t.server = s.server.session ∧ t.client = s.client := by
  intro cfg hrun hcarried
  have hcfg : Servable cfg.session := servable_onFileSystem fs ctx habs hres hfuel integrity workers
  have hlost : ¬ Lost P s := fun ⟨m, hm, hnot⟩ => hnot (hcarried m hm)
  obtain ⟨events, t, ht, honWire⟩ := script_refines (wirePull_simulates hid hcfg)
    (fun _ _ _ h hs => h.step hs) (OnWire.start cfg readyFiles) hrun hlost
  exact ⟨events, t, ht, honWire.server, honWire.client⟩

/-- The pull of one file on the wire: first the session, then the client, which reads each message
in two pieces. -/
def oneFileOnWire : List WirePullEvent :=
  oneFileWrites.map .server ++
    oneFileMessages.flatMap fun (resp, bytes) =>
      .recv 4 :: .recv bytes.length :: .received :: (handling resp).map .client

theorem oneFileCoding_carries : ∀ m ∈ oneFileMessages.map (·.1), oneFileCoding.Carries m := by
  have hall : ∀ m ∈ oneFileMessages.map (·.1),
      Fits oneFileCoding m ∧
        oneFileCoding.parseFromString (oneFileCoding.serializeAsString m) = some m := by
    unfold Fits
    decide +kernel
  intro m hm
  exact ⟨rfl, (hall m hm).1, (hall m hm).2⟩

theorem pull_on_wire_refines_oneFile :
    let cfg := oneFilePull helloIntegrity
    ∃ s, script (wirePullStep oneFileCoding cfg) (.start cfg .empty) oneFileOnWire = some s ∧
      s.client.pc = .reported ∅ ∧
      ∃ events t, script (pullStep cfg) (.start cfg .empty) events = some t ∧
        t.server = s.server.session ∧ t.client = s.client := by
  intro cfg
  have hends : (script (wirePullStep oneFileCoding cfg) (.start cfg .empty) oneFileOnWire).map
      (fun s => (s.client.pc, s.server.session.stream)) =
      some (.reported ∅, oneFileMessages.map (·.1)) := by decide +kernel
  obtain ⟨s, hrun, hs⟩ := Option.map_eq_some_iff.1 hends
  obtain ⟨hreported, hstream⟩ := Prod.mk.inj hs
  refine ⟨s, hrun, hreported, ?_⟩
  exact pull_on_wire_refines oneFileCoding oneFile srvContext (by decide) rfl rfl (Nat.le_refl 1)
    helloIntegrity 4 helloClient .empty hrun (hstream ▸ oneFileCoding_carries)

end Netpull
