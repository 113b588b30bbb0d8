import Netpull.Lib.Framing
import Netpull.Network.Socket

/-!
# Frames on a connection

A message is sent as a frame: four bytes of size in network order and its serialization. Whatever
the calls of the sender come to, the bytes it sends are a prefix of the frames of its messages
(`sendProtobufMessages_sent`), and a reader whose calls fail with `EINTR` only takes off one
frame at a time (`exact_readProtobufMessage`).
-/

namespace Netpull

open Framing SocketConnection

variable {M : Type} {P : Protobuf M}

/-- The frame of a message. -/
def frame (P : Protobuf M) (m : M) : Bytes :=
  bigEndian (.ofNat (P.byteSizeLong m)) ++ P.serializeAsString m

/-- Calls that fail are interrupted ones. -/
def OnlyEintr (answers : List Answer) : Prop := ∀ errno, .fail errno ∈ answers → errno = .eintr

namespace SocketConnection

/-! ## Reading -/

theorem transferred_pos {n wanted available : Nat} (hw : 0 < wanted) (ha : 0 < available) :
    0 < transferred n wanted available := by
  unfold transferred
  omega

theorem readBytesLoop_spec (size : Nat) {answers : List Answer} (h : OnlyEintr answers)
    (c : SocketConnection) :
    ∃ k c', readBytesLoop size answers c = (some (c.incoming.take k), c') ∧
      c'.incoming = c.incoming.drop k ∧ OnlyEintr c'.recvs ∧ k ≤ size ∧
      (0 < size → 0 < c.incoming.length → 0 < k) := by
  induction answers with
  | nil => exact ⟨size, _, rfl, rfl, fun _ he => absurd he List.not_mem_nil, Nat.le_refl _, by omega⟩
  | cons answer answers ih =>
    have hrest : OnlyEintr answers := fun errno he => h errno (List.mem_cons_of_mem _ he)
    cases answer with
    | fail errno =>
      rw [readBytesLoop, if_pos (h errno List.mem_cons_self)]
      exact ih hrest
    | upTo n =>
      refine ⟨transferred n size c.incoming.length, _, rfl, rfl, hrest, ?_, transferred_pos⟩
      unfold transferred
      omega

/-- Reading all bytes of what is there gives them and leaves the rest. -/
theorem readAllLoop_eq {fuel missing : Nat} (hfuel : missing ≤ fuel) (buffer : Bytes)
    {c : SocketConnection} (h : OnlyEintr c.recvs) (hsize : missing ≤ c.incoming.length) :
    ∃ c', readAllLoop fuel missing buffer c = (some (buffer ++ c.incoming.take missing), c') ∧
      c'.incoming = c.incoming.drop missing ∧ OnlyEintr c'.recvs := by
  induction fuel generalizing missing buffer c with
  | zero =>
    obtain rfl := Nat.le_zero.1 hfuel
    exact ⟨c, by simp [readAllLoop], rfl, h⟩
  | succ fuel ih =>
    cases missing with
    | zero => exact ⟨c, by simp [readAllLoop], rfl, h⟩
    | succ missing =>
      obtain ⟨k, c', hread, hin, hok, hk, hpos⟩ := readBytesLoop_spec (missing + 1) h c
      have hlen : (c.incoming.take k).length = k := by
        rw [List.length_take]
        omega
      have hpos := hpos (by omega) (by omega)
      rw [readAllLoop, readBytes, hread]
      cases hbytes : c.incoming.take k with
      | nil =>
        rw [hbytes, List.length_nil] at hlen
        omega
      | cons b bytes =>
        rw [hbytes, List.length_cons] at hlen
        have hrest : missing - bytes.length ≤ c'.incoming.length := by
          rw [hin, List.length_drop]
          omega
        obtain ⟨c'', hloop, hin', hok'⟩ := ih (by omega) (buffer ++ b :: bytes) hok hrest
        have hsum : k + (missing - bytes.length) = missing + 1 := by omega
        refine ⟨c'', ?_, ?_, hok'⟩
        · simp only [hloop]
          rw [hin, ← hbytes, List.append_assoc, ← List.take_add, hsum]
        · rw [hin', hin, List.drop_drop, hsum]

/-- Reading more bytes than are there fails and takes them all. -/
theorem readAllLoop_none {fuel missing : Nat} (hfuel : missing ≤ fuel) (buffer : Bytes)
    {c : SocketConnection} (h : OnlyEintr c.recvs) (hsize : c.incoming.length < missing) :
    (readAllLoop fuel missing buffer c).1 = none ∧
      (readAllLoop fuel missing buffer c).2.incoming = [] ∧
      OnlyEintr (readAllLoop fuel missing buffer c).2.recvs := by
  induction fuel generalizing missing buffer c with
  | zero => omega
  | succ fuel ih =>
    cases missing with
    | zero => omega
    | succ missing =>
      obtain ⟨k, c', hread, hin, hok, hk, hpos⟩ := readBytesLoop_spec (missing + 1) h c
      rw [readAllLoop, readBytes, hread]
      cases hbytes : c.incoming.take k with
      | nil =>
        have hnil : c.incoming = [] := by
          by_contra hne
          have hpos := hpos (by omega) (List.length_pos_iff.2 hne)
          rcases List.take_eq_nil_iff.1 hbytes with hk0 | hnil
          · omega
          · exact hne hnil
        exact ⟨rfl, by simp [hin, hnil], hok⟩
      | cons b bytes =>
        have hlen := congrArg List.length hbytes
        rw [List.length_take, List.length_cons] at hlen
        have hrest : c'.incoming.length < missing - bytes.length := by
          rw [hin, List.length_drop]
          omega
        exact ih (by omega) _ hok hrest

theorem readAllBytes_eq {c : SocketConnection} (h : OnlyEintr c.recvs) {size : Nat}
    (hsize : size ≤ c.incoming.length) :
    ∃ c', c.readAllBytes size = (some (c.incoming.take size), c') ∧
      c'.incoming = c.incoming.drop size ∧ OnlyEintr c'.recvs :=
  readAllLoop_eq (Nat.le_refl size) [] h hsize

theorem readAllBytes_none {c : SocketConnection} (h : OnlyEintr c.recvs) {size : Nat}
    (hsize : c.incoming.length < size) :
    (c.readAllBytes size).1 = none ∧ (c.readAllBytes size).2.incoming = [] ∧
      OnlyEintr (c.readAllBytes size).2.recvs :=
  readAllLoop_none (Nat.le_refl size) [] h hsize

end SocketConnection

/-- A message whose size fits into the four bytes. -/
def Fits (P : Protobuf M) (m : M) : Prop := (P.serializeAsString m).length < 2 ^ 32

theorem Fits.size {m : M} (h : Fits P m) (hP : P.Lawful) :
    (UInt32.ofNat (P.byteSizeLong m)).toNat = (P.serializeAsString m).length := by
  rw [UInt32.toNat_ofNat', hP.size]
  exact Nat.mod_eq_of_lt h

/-- What is read after the four bytes of the size. -/
theorem readProtobufMessage_size (e : Endian) {c : SocketConnection} (h : OnlyEintr c.recvs)
    {x : UInt32} {body : Bytes} (hin : c.incoming = bigEndian x ++ body) :
    ∃ c' : SocketConnection, c'.incoming = body ∧ OnlyEintr c'.recvs ∧
      readProtobufMessage e P c = match c'.readAllBytes x.toNat with
        | (none, c) => (none, c)
        | (some buffer, c) => (P.parseFromString buffer, c) := by
  have hsize : 4 ≤ c.incoming.length := by
    rw [hin, List.length_append, length_bigEndian]
    omega
  obtain ⟨c', hread, hin', hok⟩ := readAllBytes_eq h hsize
  refine ⟨c', ?_, hok, ?_⟩
  · rw [hin', hin, List.drop_left' (length_bigEndian x)]
  · rw [readProtobufMessage, hread, hin, List.take_left' (length_bigEndian x)]
    exact congrArg (fun size : UInt32 => match c'.readAllBytes size.toNat with
      | (none, c) => (none, c)
      | (some buffer, c) => (P.parseFromString buffer, c)) (e.htonl_ofMemory x)

theorem readProtobufMessage_short (e : Endian) {c : SocketConnection} (h : OnlyEintr c.recvs)
    (hshort : c.incoming.length < 4) :
    (readProtobufMessage e P c).1 = none ∧ (readProtobufMessage e P c).2.incoming = [] ∧
      OnlyEintr (readProtobufMessage e P c).2.recvs := by
  have hread := readAllBytes_none h hshort
  rw [readProtobufMessage]
  split
  · next c' hc' =>
    rw [hc'] at hread
    exact ⟨rfl, hread.2⟩
  · next bytes c' hc' =>
    rw [hc'] at hread
    cases hread.1

/-- The message whose frame begins some bytes, if the frame is whole and can be parsed. -/
def framedMessage (P : Protobuf M) (bytes : Bytes) : Option M :=
  let size := (ofBigEndian (bytes.take 4)).toNat
  if 4 + size ≤ bytes.length then P.parseFromString ((bytes.drop 4).take size) else none

/-- Whatever arrives, and however it is split, a reader gets the message that is framed at its
beginning. -/
theorem readProtobufMessage_eq (e : Endian) {c : SocketConnection} (h : OnlyEintr c.recvs) :
    (readProtobufMessage e P c).1 = framedMessage P c.incoming := by
  by_cases hshort : c.incoming.length < 4
  · rw [(readProtobufMessage_short e h hshort).1, framedMessage, if_neg (by omega)]
  · have hlen : (c.incoming.take 4).length = 4 := by
      rw [List.length_take]
      omega
    have hin : c.incoming =
        bigEndian (ofBigEndian (c.incoming.take 4)) ++ c.incoming.drop 4 := by
      rw [bigEndian_ofBigEndian hlen, List.take_append_drop]
    obtain ⟨c', hin', hok, hread⟩ := readProtobufMessage_size (P := P) e h hin
    have hlen' : c'.incoming.length = c.incoming.length - 4 := by
      rw [hin', List.length_drop]
    rw [hread, framedMessage]
    by_cases hwhole : (ofBigEndian (c.incoming.take 4)).toNat ≤ c'.incoming.length
    · obtain ⟨c'', hbody, -, -⟩ := readAllBytes_eq hok hwhole
      rw [hbody, hin', if_pos (by omega)]
    · have hnone := (readAllBytes_none hok (Nat.lt_of_not_le hwhole)).1
      rw [if_neg (by omega)]
      split
      · rfl
      · next buffer c'' hc'' =>
        rw [hc''] at hnone
        cases hnone

/-- Reading a message takes off exactly one frame. -/
theorem exact_readProtobufMessage (hP : P.Lawful) (e : Endian) :
    Exact (frame P) SocketConnection.incoming (fun c => OnlyEintr c.recvs) (Fits P)
      (readProtobufMessage e P) where
  whole c m rest hok hm hin := by
    rw [frame, List.append_assoc] at hin
    obtain ⟨c', hin', hok', hread⟩ := readProtobufMessage_size (P := P) e hok hin
    have hsize : (P.serializeAsString m).length ≤ c'.incoming.length := by
      rw [hin', List.length_append]
      omega
    obtain ⟨c'', hbody, hin'', hok''⟩ := readAllBytes_eq hok' hsize
    rw [hread, hm.size hP, hbody]
    refine ⟨?_, ?_, hok''⟩
    · rw [hin', List.take_left]
      exact hP.parse m
    · rw [hin'', hin', List.drop_left]
  part c m hok hm hpre hne := by
    by_cases hshort : c.incoming.length < 4
    · exact readProtobufMessage_short e hok hshort
    · obtain ⟨body, hin⟩ : bigEndian (.ofNat (P.byteSizeLong m)) <+: c.incoming := by
        apply List.prefix_of_prefix_length_le (List.prefix_append _ _) hpre
        rw [length_bigEndian]
        omega
      obtain ⟨c', hin', hok', hread⟩ := readProtobufMessage_size (P := P) e hok hin.symm
      rw [← hin, frame, List.prefix_append_right_inj] at hpre
      have hlt : c'.incoming.length < (P.serializeAsString m).length := by
        rw [hin']
        refine Nat.lt_of_le_of_ne hpre.length_le fun hlen => hne ?_
        rw [← hin, hpre.eq_of_length hlen, frame]
      have hbody := readAllBytes_none hok' hlt
      rw [hread, hm.size hP]
      split
      · next c'' hc'' =>
        rw [hc''] at hbody
        exact ⟨rfl, hbody.2⟩
      · next buffer c'' hc'' =>
        rw [hc''] at hbody
        cases hbody.1
  empty c hok hin := readProtobufMessage_short e hok (by simp [hin])

/-! ## Sending -/

namespace SocketConnection

theorem sendBytesLoop_spec (bytes : Bytes) (hne : bytes ≠ []) (answers : List Answer)
    (c : SocketConnection) :
    (∃ k c', sendBytesLoop bytes answers c = (some k, c') ∧ 0 < k ∧
      c'.outgoing = c.outgoing ++ bytes.take k ∧ c'.writes = c.writes ∧
      ∀ a ∈ c'.sends, a ∈ answers) ∨
    (∃ c', sendBytesLoop bytes answers c = (none, c') ∧ c'.outgoing = c.outgoing ∧
      ¬ OnlyEintr answers) := by
  have hpos := List.length_pos_iff.2 hne
  induction answers with
  | nil =>
    left
    exact ⟨bytes.length, _, rfl, hpos, by simp, rfl, by simp⟩
  | cons answer answers ih =>
    cases answer with
    | upTo n =>
      left
      exact ⟨transferred n bytes.length bytes.length, _, rfl, transferred_pos hpos hpos, rfl, rfl,
        fun a ha => List.mem_cons_of_mem _ ha⟩
    | fail errno =>
      by_cases herr : errno = .eintr
      · rw [sendBytesLoop, if_pos herr]
        rcases ih with ⟨k, c', h1, h2, h3, h4, h5⟩ | ⟨c', h1, h2, h3⟩
        · exact .inl ⟨k, c', h1, h2, h3, h4, fun a ha => List.mem_cons_of_mem _ (h5 a ha)⟩
        · exact .inr ⟨c', h1, h2, fun h => h3 fun errno he => h errno (List.mem_cons_of_mem _ he)⟩
      · right
        rw [sendBytesLoop, if_neg herr]
        exact ⟨_, rfl, rfl, fun h => herr (h errno List.mem_cons_self)⟩

theorem onlyEintr_of_subset {as bs : List Answer} (h : OnlyEintr bs) (hsub : ∀ a ∈ as, a ∈ bs) :
    OnlyEintr as :=
  fun errno he => h errno (hsub _ he)

/-- A call that was to send `bytes` sent a part of them, and all of them if it succeeded. -/
def Sent (c : SocketConnection) (bytes : Bytes) (r : Bool × SocketConnection) : Prop :=
  ∃ sent, sent <+: bytes ∧ r.2.outgoing = c.outgoing ++ sent ∧ (r.1 = true → sent = bytes)

theorem sent_nothing {c c' : SocketConnection} (h : c'.outgoing = c.outgoing) (bytes : Bytes) :
    Sent c bytes (false, c') :=
  ⟨[], List.nil_prefix, by simp [h], by simp⟩

/-- Sending on from where another call stopped. -/
theorem Sent.append {c c' : SocketConnection} {bytes rest : Bytes} {r : Bool × SocketConnection}
    (hc : c'.outgoing = c.outgoing ++ bytes) (h : Sent c' rest r) : Sent c (bytes ++ rest) r := by
  obtain ⟨sent, hpre, hout, hall⟩ := h
  refine ⟨bytes ++ sent, (List.prefix_append_right_inj bytes).2 hpre, ?_, fun hok => ?_⟩
  · rw [hout, hc, List.append_assoc]
  · rw [hall hok]

/-- The call was to send more bytes after these. -/
theorem Sent.weaken {c : SocketConnection} {bytes : Bytes} {c' : SocketConnection}
    (h : Sent c bytes (false, c')) (more : Bytes) : Sent c (bytes ++ more) (false, c') := by
  obtain ⟨sent, hpre, hout, -⟩ := h
  exact ⟨sent, hpre.trans (List.prefix_append _ _), hout, by simp⟩

theorem sendAllLoop_sent (fuel : Nat) (bytes : Bytes) (c : SocketConnection) :
    Sent c bytes (sendAllLoop fuel bytes c) := by
  induction fuel generalizing bytes c with
  | zero =>
    cases bytes with
    | nil => exact ⟨[], List.prefix_refl _, by simp [sendAllLoop], fun _ => rfl⟩
    | cons b bytes => exact sent_nothing rfl _
  | succ fuel ih =>
    cases bytes with
    | nil => exact ⟨[], List.prefix_refl _, by simp [sendAllLoop], fun _ => rfl⟩
    | cons b bytes =>
      rw [sendAllLoop, sendBytes]
      rcases sendBytesLoop_spec (b :: bytes) (by simp) c.sends c with
        ⟨k, c', hsend, -, hout, -⟩ | ⟨c', hsend, hout, -⟩
      · rw [hsend]
        have hrest := (ih ((b :: bytes).drop k) c').append hout
        rwa [List.take_append_drop] at hrest
      · rw [hsend]
        exact sent_nothing hout _

/-- Calls that are only interrupted send everything. -/
theorem sendAllLoop_ok {fuel : Nat} {bytes : Bytes} (hfuel : bytes.length ≤ fuel)
    {c : SocketConnection} (h : OnlyEintr c.sends) :
    (sendAllLoop fuel bytes c).1 = true ∧ OnlyEintr (sendAllLoop fuel bytes c).2.sends ∧
      (sendAllLoop fuel bytes c).2.writes = c.writes := by
  induction fuel generalizing bytes c with
  | zero =>
    obtain rfl := List.length_eq_zero_iff.1 (Nat.le_zero.1 hfuel)
    exact ⟨rfl, h, rfl⟩
  | succ fuel ih =>
    cases bytes with
    | nil => exact ⟨rfl, h, rfl⟩
    | cons b bytes =>
      rw [sendAllLoop, sendBytes]
      rcases sendBytesLoop_spec (b :: bytes) (by simp) c.sends c with
        ⟨k, c', hsend, hpos, -, hwrites, hsub⟩ | ⟨c', -, -, hbad⟩
      · rw [hsend]
        have hlen : ((b :: bytes).drop k).length ≤ fuel := by
          rw [List.length_drop]
          omega
        obtain ⟨h1, h2, h3⟩ := ih hlen (onlyEintr_of_subset h hsub)
        exact ⟨h1, h2, h3.trans hwrites⟩
      · exact absurd h hbad

theorem serializeToFileDescriptor_sent (m : M) (c : SocketConnection) :
    Sent c (P.serializeAsString m) (serializeToFileDescriptor P m c) := by
  unfold serializeToFileDescriptor
  split
  · exact ⟨_, List.prefix_refl _, rfl, fun _ => rfl⟩
  · exact ⟨_, List.prefix_refl _, rfl, fun _ => rfl⟩
  · exact ⟨_, List.take_prefix _ _, rfl, by simp⟩

theorem sendProtobufMessage_sent (e : Endian) (m : M) (c : SocketConnection) :
    Sent c (frame P m) (sendProtobufMessage e P m c) := by
  have hhead := sendAllLoop_sent 4 (bigEndian (.ofNat (P.byteSizeLong m))) c
  rw [sendProtobufMessage, e.memory_ntohl, sendAllBytes, length_bigEndian]
  split
  · next c' hc' =>
    rw [hc'] at hhead
    exact hhead.weaken _
  · next c' hc' =>
    rw [hc'] at hhead
    obtain ⟨sent, -, hout, hall⟩ := hhead
    rw [hall rfl] at hout
    exact (serializeToFileDescriptor_sent m c').append hout

theorem serializeToFileDescriptor_ok (m : M) {c : SocketConnection}
    (hwrites : ∀ w ∈ c.writes, w = .done) :
    (serializeToFileDescriptor P m c).1 = true ∧
      (serializeToFileDescriptor P m c).2.sends = c.sends ∧
      ∀ w ∈ (serializeToFileDescriptor P m c).2.writes, w = .done := by
  unfold serializeToFileDescriptor
  split
  · exact ⟨rfl, rfl, hwrites⟩
  · next writes hc =>
    exact ⟨rfl, rfl, fun w hw => hwrites w (hc ▸ List.mem_cons_of_mem _ hw)⟩
  · next errno written writes hc =>
    cases hwrites (.fail errno written) (hc ▸ List.mem_cons_self)

theorem sendProtobufMessage_ok (e : Endian) (m : M) {c : SocketConnection}
    (h : OnlyEintr c.sends) (hwrites : ∀ w ∈ c.writes, w = .done) :
    (sendProtobufMessage e P m c).1 = true ∧ OnlyEintr (sendProtobufMessage e P m c).2.sends ∧
      ∀ w ∈ (sendProtobufMessage e P m c).2.writes, w = .done := by
  have hlen : (bigEndian (.ofNat (P.byteSizeLong m))).length ≤ 4 := Nat.le_refl 4
  obtain ⟨hok, hsends, hsame⟩ := sendAllLoop_ok hlen h
  rw [sendProtobufMessage, e.memory_ntohl, sendAllBytes, length_bigEndian]
  split
  · next c' hc' =>
    rw [hc'] at hok
    cases hok
  · next c' hc' =>
    rw [hc'] at hsends hsame
    obtain ⟨h1, h2, h3⟩ := serializeToFileDescriptor_ok (P := P) m (hsame ▸ hwrites)
    exact ⟨h1, h2 ▸ hsends, h3⟩

end SocketConnection

/-- Sending messages one after the other, until one cannot be sent. -/
def sendProtobufMessages (e : Endian) (P : Protobuf M) :
    List M → SocketConnection → Bool × SocketConnection
  | [], c => (true, c)
  | m :: ms, c =>
    match sendProtobufMessage e P m c with
    | (false, c) => (false, c)
    | (true, c) => sendProtobufMessages e P ms c

/-- What is sent is a part of the frames of the messages, in their order. -/
theorem sendProtobufMessages_sent (e : Endian) (ms : List M) (c : SocketConnection) :
    Sent c (ms.flatMap (frame P)) (sendProtobufMessages e P ms c) := by
  induction ms generalizing c with
  | nil => exact ⟨[], List.prefix_refl _, by simp [sendProtobufMessages], fun _ => rfl⟩
  | cons m ms ih =>
    have hframe := sendProtobufMessage_sent (P := P) e m c
    rw [sendProtobufMessages, List.flatMap_cons]
    split
    · next c' hc' =>
      rw [hc'] at hframe
      exact hframe.weaken _
    · next c' hc' =>
      rw [hc'] at hframe
      obtain ⟨sent, -, hout, hall⟩ := hframe
      rw [hall rfl] at hout
      exact (ih c').append hout

/-- If calls are only interrupted and protobuf does not fail, all messages are sent. -/
theorem sendProtobufMessages_ok (e : Endian) (ms : List M) {c : SocketConnection}
    (h : OnlyEintr c.sends) (hwrites : ∀ w ∈ c.writes, w = .done) :
    (sendProtobufMessages e P ms c).1 = true := by
  induction ms generalizing c with
  | nil => rfl
  | cons m ms ih =>
    obtain ⟨hok, hsends, hdone⟩ := sendProtobufMessage_ok (P := P) e m h hwrites
    rw [sendProtobufMessages]
    split
    · next c' hc' =>
      rw [hc'] at hok
      cases hok
    · next c' hc' =>
      rw [hc'] at hsends hdone
      exact ih hsends hdone

/-- What a reader makes of a stream that was cut to `p`: it returns the messages whose frames are
whole, in their order, and fails from then on, and it stands at the start of a frame whenever it
has returned a message. -/
def ReadsBack (e : Endian) (P : Protobuf M) (ms : List M) (p : Bytes) (c : SocketConnection) : Prop :=
  ∃ k, Whole (frame P) ms p k ∧
    (∀ n, (calls (readProtobufMessage e P) n c).1 =
      ((ms.take k).take n).map some ++ List.replicate (n - k) none) ∧
    ∀ n ≤ k, (calls (readProtobufMessage e P) n c).2.incoming =
      p.drop ((ms.take n).flatMap (frame P)).length

/-- **Framing round trip.** However the calls of sender and reader are split and interrupted, and
wherever the stream is cut, the reader returns exactly the messages whose frames are whole. -/
theorem framing_roundTrip (hP : P.Lawful) (e e' : Endian) {ms : List M} (hms : ∀ m ∈ ms, Fits P m)
    {c : SocketConnection} (hnew : c.outgoing = []) :
    (OnlyEintr c.sends → (∀ w ∈ c.writes, w = .done) →
      (sendProtobufMessages e P ms c).2.outgoing = ms.flatMap (frame P)) ∧
    ∀ p, p <+: (sendProtobufMessages e P ms c).2.outgoing → ∀ r : SocketConnection,
      r.incoming = p → OnlyEintr r.recvs → ReadsBack e' P ms p r := by
  obtain ⟨sent, hpre, hout, hall⟩ := sendProtobufMessages_sent (P := P) e ms c
  rw [hnew, List.nil_append] at hout
  rw [hout]
  refine ⟨fun hsends hwrites => hall (sendProtobufMessages_ok e ms hsends hwrites), ?_⟩
  rintro p hp r rfl hrecvs
  exact calls_prefix (exact_readProtobufMessage hP e') hms hrecvs (hp.trans hpre)

/-- The coding of two requests: one without a field, and one for the file `0f`. -/
def twoRequests : Protobuf Bool where
  byteSizeLong m := if m then 6 else 0
  serializeAsString m := if m then [0x1a, 4, 0x0a, 2, 48, 102] else []
  parseFromString bytes :=
    if bytes = [] then some false
    else if bytes = [0x1a, 4, 0x0a, 2, 48, 102] then some true
    else none

/-- A connection with interrupted and short calls and what arrives on it. -/
def shakyConnection (incoming : Bytes) : SocketConnection where
  peer := ⟨127, 0, 0, 1⟩
  alive := true
  incoming := incoming
  recvs := [.upTo 1, .fail .eintr, .upTo 2]
  outgoing := []
  sends := [.fail .eintr, .upTo 3]
  writes := []

theorem framing_roundTrip_twoRequests :
    (OnlyEintr (shakyConnection []).sends → (∀ w ∈ (shakyConnection []).writes, w = .done) →
      (sendProtobufMessages .little twoRequests [true, false] (shakyConnection [])).2.outgoing =
        [true, false].flatMap (frame twoRequests)) ∧
    ∀ p, p <+: (sendProtobufMessages .little twoRequests [true, false]
        (shakyConnection [])).2.outgoing →
      ∀ r : SocketConnection, r.incoming = p → OnlyEintr r.recvs →
        ReadsBack .big twoRequests [true, false] p r :=
  framing_roundTrip ⟨by decide, by decide⟩ .little .big (by simp [Fits, twoRequests]) rfl

end Netpull
