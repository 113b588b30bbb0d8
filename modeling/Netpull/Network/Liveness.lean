import Netpull.Network.Framing

/-!
# Dead connections

`alive` is meant to tell whether an operation on the connection has met a broken pipe. `ReadBytes`
and `SendBytes` keep it up to date; `SerializeToFileDescriptor` writes to the descriptor past them
(`knowsDeath_iff`). Logging is taken to leave `errno` alone.
-/

namespace Netpull

/-! ## Sequences of calls -/

/-- A call on a connection. -/
inductive ConnectionCall (M : Type)
  | readBytes (size : Nat)
  | readAllBytes (size : Nat)
  | sendBytes (bytes : Bytes)
  | sendAllBytes (bytes : Bytes)
  | readProtobufMessage
  | sendProtobufMessage (message : M)

namespace SocketConnection

variable {M : Type}

/-- The connection after a call. -/
def call (e : Endian) (P : Protobuf M) (c : SocketConnection) : ConnectionCall M → SocketConnection
  | .readBytes size => (c.readBytes size).2
  | .readAllBytes size => (c.readAllBytes size).2
  | .sendBytes bytes => (c.sendBytes bytes).2
  | .sendAllBytes bytes => (c.sendAllBytes bytes).2
  | .readProtobufMessage => (c.readProtobufMessage e P).2
  | .sendProtobufMessage message => (c.sendProtobufMessage e P message).2

/-- The answers given between two states, from the lists of those still to come. -/
def given {α : Type} (before after : List α) : List α := before.take (before.length - after.length)

def RecvBroke (c c' : SocketConnection) : Prop := .fail .epipe ∈ given c.recvs c'.recvs

def SendBroke (c c' : SocketConnection) : Prop := .fail .epipe ∈ given c.sends c'.sends

/-- A write that protobuf made has met a broken pipe. -/
def WriteBroke (c c' : SocketConnection) : Prop :=
  ∃ written, .fail .epipe written ∈ given c.writes c'.writes

/-- Between two states, the connection has come to be known as dead exactly if an operation has met a
broken pipe. -/
def KnowsDeath (c c' : SocketConnection) : Prop :=
  c'.alive = false ↔ RecvBroke c c' ∨ SendBroke c c' ∨ WriteBroke c c'

/-! ## What each call does to `alive` -/

/-- From `c` to `c'` these answers were given, and the flag was cleared if a transfer failed with
`EPIPE`. -/
structure Steps (c c' : SocketConnection) (recvs sends : List Answer) (writes : List WriteAnswer) :
    Prop where
  recvs_eq : c.recvs = recvs ++ c'.recvs
  sends_eq : c.sends = sends ++ c'.sends
  writes_eq : c.writes = writes ++ c'.writes
  alive_iff : c'.alive = true ↔ c.alive = true ∧ .fail .epipe ∉ recvs ∧ .fail .epipe ∉ sends

/-- `c'` comes after `c`. -/
def After (c c' : SocketConnection) : Prop := ∃ recvs sends writes, Steps c c' recvs sends writes

theorem After.refl (c : SocketConnection) : After c c :=
  ⟨[], [], [], rfl, rfl, rfl, by simp⟩

theorem After.trans {c c' c'' : SocketConnection} (h : After c c') (h' : After c' c'') :
    After c c'' := by
  obtain ⟨recvs, sends, writes, hs⟩ := h
  obtain ⟨recvs', sends', writes', hs'⟩ := h'
  refine ⟨recvs ++ recvs', sends ++ sends', writes ++ writes', ?_, ?_, ?_, ?_⟩
  · rw [hs.recvs_eq, hs'.recvs_eq, List.append_assoc]
  · rw [hs.sends_eq, hs'.sends_eq, List.append_assoc]
  · rw [hs.writes_eq, hs'.writes_eq, List.append_assoc]
  · rw [hs'.alive_iff, hs.alive_iff, List.mem_append, List.mem_append]
    tauto

/-- A call was given answers up to `rest`, and cleared the flag if one of them was a broken pipe. -/
def Used (alive : Bool) (answers rest : List Answer) (alive' : Bool) : Prop :=
  ∃ used, answers = used ++ rest ∧ (alive' = true ↔ alive = true ∧ .fail .epipe ∉ used)

namespace Used

variable {alive alive' : Bool} {answers rest : List Answer}

theorem nil (alive : Bool) : Used alive [] [] alive := ⟨[], rfl, by simp⟩

theorem upTo (alive : Bool) (n : Nat) (rest : List Answer) :
    Used alive (.upTo n :: rest) rest alive :=
  ⟨[.upTo n], rfl, by simp⟩

/-- After an interruption the call is made again. -/
theorem interrupted (h : Used alive answers rest alive') :
    Used alive (.fail .eintr :: answers) rest alive' := by
  obtain ⟨used, rfl, halive⟩ := h
  refine ⟨.fail .eintr :: used, rfl, ?_⟩
  rw [halive, List.mem_cons]
  simp

theorem failed (alive : Bool) (errno : Errno) (rest : List Answer) :
    Used alive (.fail errno :: rest) rest (alive && errno ≠ .epipe) := by
  refine ⟨[.fail errno], rfl, ?_⟩
  simp only [Bool.and_eq_true, decide_eq_true_eq, List.mem_singleton, Answer.fail.injEq]
  exact and_congr_right fun _ => not_congr eq_comm

end Used

theorem readBytesLoop_used (size : Nat) (recvs : List Answer) (c : SocketConnection) :
    Used c.alive recvs (readBytesLoop size recvs c).2.recvs (readBytesLoop size recvs c).2.alive ∧
      (readBytesLoop size recvs c).2.sends = c.sends ∧
      (readBytesLoop size recvs c).2.writes = c.writes := by
  induction recvs with
  | nil => exact ⟨.nil _, rfl, rfl⟩
  | cons answer recvs ih =>
    cases answer with
    | upTo n => exact ⟨.upTo _ n recvs, rfl, rfl⟩
    | fail errno =>
      rw [readBytesLoop]
      split
      · next hintr => exact ⟨hintr ▸ ih.1.interrupted, ih.2⟩
      · exact ⟨.failed _ errno recvs, rfl, rfl⟩

theorem sendBytesLoop_used (bytes : Bytes) (sends : List Answer) (c : SocketConnection) :
    Used c.alive sends (sendBytesLoop bytes sends c).2.sends
        (sendBytesLoop bytes sends c).2.alive ∧
      (sendBytesLoop bytes sends c).2.recvs = c.recvs ∧
      (sendBytesLoop bytes sends c).2.writes = c.writes := by
  induction sends with
  | nil => exact ⟨.nil _, rfl, rfl⟩
  | cons answer sends ih =>
    cases answer with
    | upTo n => exact ⟨.upTo _ n sends, rfl, rfl⟩
    | fail errno =>
      rw [sendBytesLoop]
      split
      · next hintr => exact ⟨hintr ▸ ih.1.interrupted, ih.2⟩
      · exact ⟨.failed _ errno sends, rfl, rfl⟩

theorem after_readBytes (c : SocketConnection) (size : Nat) : After c (c.readBytes size).2 := by
  obtain ⟨⟨used, hused, halive⟩, hsends, hwrites⟩ := readBytesLoop_used size c.recvs c
  exact ⟨used, [], [], hused, hsends.symm, hwrites.symm, by rw [readBytes, halive]; simp⟩

theorem after_sendBytes (c : SocketConnection) (bytes : Bytes) :
    After c (c.sendBytes bytes).2 := by
  obtain ⟨⟨used, hused, halive⟩, hrecvs, hwrites⟩ := sendBytesLoop_used bytes c.sends c
  exact ⟨[], used, [], hrecvs.symm, hused, hwrites.symm, by rw [sendBytes, halive]; simp⟩

theorem after_readAllLoop (fuel missing : Nat) (buffer : Bytes) (c : SocketConnection) :
    After c (readAllLoop fuel missing buffer c).2 := by
  induction fuel generalizing missing buffer c with
  | zero => cases missing <;> exact After.refl c
  | succ fuel ih =>
    cases missing with
    | zero => exact After.refl c
    | succ missing =>
      have hread := after_readBytes c (missing + 1)
      rw [readAllLoop]
      split
      · next hresult => rwa [hresult] at hread
      · next hresult => rwa [hresult] at hread
      · next hresult =>
        rw [hresult] at hread
        exact hread.trans (ih _ _ _)

theorem after_sendAllLoop (fuel : Nat) (bytes : Bytes) (c : SocketConnection) :
    After c (sendAllLoop fuel bytes c).2 := by
  induction fuel generalizing bytes c with
  | zero => cases bytes <;> exact After.refl c
  | succ fuel ih =>
    cases bytes with
    | nil => exact After.refl c
    | cons b bytes =>
      have hsend := after_sendBytes c (b :: bytes)
      rw [sendAllLoop]
      split
      · next hresult => rwa [hresult] at hsend
      · next hresult =>
        rw [hresult] at hsend
        exact hsend.trans (ih _ _)

theorem after_readProtobufMessage (e : Endian) (P : Protobuf M) (c : SocketConnection) :
    After c (c.readProtobufMessage e P).2 := by
  have hsize : After c (c.readAllBytes 4).2 := after_readAllLoop 4 4 [] c
  rw [readProtobufMessage]
  split
  · next hresult => rwa [hresult] at hsize
  · next bytes c₁ hresult =>
    rw [hresult] at hsize
    have hbuffer : After c₁ (c₁.readAllBytes (e.htonl (e.ofMemory bytes)).toNat).2 :=
      after_readAllLoop _ _ [] c₁
    split
    · next hresult' =>
      rw [hresult'] at hbuffer
      exact hsize.trans hbuffer
    · next hresult' =>
      rw [hresult'] at hbuffer
      exact hsize.trans hbuffer

/-- Protobuf writes to the descriptor, whatever comes of it. -/
theorem after_serializeToFileDescriptor (P : Protobuf M) (m : M) (c : SocketConnection) :
    After c (serializeToFileDescriptor P m c).2 := by
  unfold serializeToFileDescriptor
  split
  · next hwrites => exact ⟨[], [], [], rfl, rfl, rfl, by simp⟩
  · next writes hwrites => exact ⟨[], [], [.done], rfl, rfl, hwrites, by simp⟩
  · next errno written writes hwrites =>
    exact ⟨[], [], [.fail errno written], rfl, rfl, hwrites, by simp⟩

theorem after_sendProtobufMessage (e : Endian) (P : Protobuf M) (m : M) (c : SocketConnection) :
    After c (c.sendProtobufMessage e P m).2 := by
  have hsize : After c (c.sendAllBytes (e.memory (e.ntohl (.ofNat (P.byteSizeLong m))))).2 :=
    after_sendAllLoop _ _ c
  rw [sendProtobufMessage]
  split
  · next hresult => rwa [hresult] at hsize
  · next c₁ hresult =>
    rw [hresult] at hsize
    exact hsize.trans (after_serializeToFileDescriptor P m c₁)

theorem after_call (e : Endian) (P : Protobuf M) (c : SocketConnection) (op : ConnectionCall M) :
    After c (c.call e P op) := by
  cases op with
  | readBytes size => exact after_readBytes c size
  | readAllBytes size => exact after_readAllLoop size size [] c
  | sendBytes bytes => exact after_sendBytes c bytes
  | sendAllBytes bytes => exact after_sendAllLoop _ bytes c
  | readProtobufMessage => exact after_readProtobufMessage e P c
  | sendProtobufMessage message => exact after_sendProtobufMessage e P message c

theorem after_calls (e : Endian) (P : Protobuf M) (c : SocketConnection)
    (ops : List (ConnectionCall M)) : After c (ops.foldl (call e P) c) := by
  induction ops generalizing c with
  | nil => exact After.refl c
  | cons op ops ih => exact (after_call e P c op).trans (ih _)

/-! ## Dead connections -/

theorem given_eq {α : Type} {before used after : List α} (h : before = used ++ after) :
    given before after = used := by
  rw [given, h, List.length_append, Nat.add_sub_cancel, List.take_left]

/-- **A dead connection is known to be dead** after some calls exactly if protobuf has not met a
broken pipe, or `recv` or `send` has met one too. -/
theorem knowsDeath_iff (e : Endian) (P : Protobuf M) {c : SocketConnection} (h : c.alive = true)
    (ops : List (ConnectionCall M)) :
    KnowsDeath c (ops.foldl (call e P) c) ↔
      (WriteBroke c (ops.foldl (call e P) c) →
        RecvBroke c (ops.foldl (call e P) c) ∨ SendBroke c (ops.foldl (call e P) c)) := by
  obtain ⟨recvs, sends, writes, hs⟩ := after_calls e P c ops
  have halive := hs.alive_iff
  unfold KnowsDeath WriteBroke RecvBroke SendBroke
  rw [given_eq hs.recvs_eq, given_eq hs.sends_eq, given_eq hs.writes_eq, ← Bool.not_eq_true, halive]
  tauto

/-- A connection on which protobuf will meet a broken pipe. -/
def brokenConnection : SocketConnection := { shakyConnection [] with writes := [.fail .epipe 0] }

theorem knowsDeath_iff_broken :
    let c' := [ConnectionCall.readBytes 1, .sendProtobufMessage true].foldl
      (call .little twoRequests) brokenConnection
    KnowsDeath brokenConnection c' ↔
      (WriteBroke brokenConnection c' →
        RecvBroke brokenConnection c' ∨ SendBroke brokenConnection c') :=
  knowsDeath_iff .little twoRequests rfl [.readBytes 1, .sendProtobufMessage true]

/-- After the broken pipe that protobuf has met, the connection passes for alive. -/
theorem protobuf_epipe_unnoticed :
    let c' := brokenConnection.call .little twoRequests (.sendProtobufMessage true)
    (brokenConnection.sendProtobufMessage .little twoRequests true).1 = false ∧
    given brokenConnection.writes c'.writes = [.fail .epipe 0] ∧ c'.alive = true ∧
    ¬ KnowsDeath brokenConnection c' := by
  refine ⟨rfl, rfl, rfl, fun h => ?_⟩
  have hdead := h.2 (.inr (.inr ⟨0, List.mem_singleton_self _⟩))
  cases hdead

end SocketConnection

end Netpull
