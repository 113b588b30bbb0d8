import Netpull.Network.Socket

/-!
# FileStreamTask of the client

Takes the bytes of a file off a connection through a pipe, until it has as many as the object
message said. The size of the message is an `int32`, the counter an unsigned 64-bit number.
-/

namespace Netpull

/-- The variables of the loops, with what can still be taken off the connection before its end, the
pipe, and the content of the destination file. -/
structure StreamState where
  ins : List Answer
  outs : List Answer
  stream : Bytes
  pipe : Bytes
  file : Bytes
  offset : Nat
  totalBytes : UInt64
  totalBytesTransferred : Int64
deriving DecidableEq, Repr

/-- How the loop ends: with the size reached, at the end of the connection, or with an error. -/
inductive StreamEnd
  | finished
  | serverEnded
  | failed
deriving DecidableEq, Repr

/-- `kSpliceBuffer`. -/
def kSpliceBuffer : Nat := 16 * 1024

/-- A write into a file at an offset. -/
def overwrite (file : Bytes) (offset : Nat) (bytes : Bytes) : Bytes :=
  file.take offset ++ bytes ++ file.drop (offset + bytes.length)

/-- The inner loop, for at most `fuel` rounds; every round moves a byte out of the pipe. -/
def drainLoop : Nat → Nat → StreamState → Option StreamState
  | _, 0, s => some s
  | 0, _ + 1, _ => none
  | fuel + 1, expectedBytes + 1, s =>
    match nextCall s.outs (expectedBytes + 1) s.pipe.length with
    | (.error _, _) => none
    | (.ok sentBytes, outs) =>
      drainLoop fuel (expectedBytes + 1 - sentBytes)
        { s with
          outs
          pipe := s.pipe.drop sentBytes
          file := overwrite s.file s.offset (s.pipe.take sentBytes)
          offset := s.offset + sentBytes
          totalBytesTransferred := s.totalBytesTransferred + .ofNat sentBytes }

/-- The comparison of the `uint64_t` counter with the `int32` size, which is sign-extended. -/
def belowSize (totalBytes : UInt64) (bytes : Int32) : Bool := totalBytes < bytes.toInt64.toUInt64

/-- The outer loop, for at most `fuel` rounds; every round takes a byte off the connection. -/
def streamLoop (bytes : Int32) : Nat → StreamState → StreamEnd × StreamState
  | 0, s => (if belowSize s.totalBytes bytes then .serverEnded else .finished, s)
  | fuel + 1, s =>
    if belowSize s.totalBytes bytes then
      match nextCall s.ins kSpliceBuffer s.stream.length with
      | (.error _, ins) => (.failed, { s with ins })
      | (.ok 0, ins) => (.serverEnded, { s with ins })
      | (.ok (k + 1), ins) =>
        let s' : StreamState :=
          { s with
            ins
            stream := s.stream.drop (k + 1)
            pipe := s.pipe ++ s.stream.take (k + 1)
            totalBytes := s.totalBytes + .ofNat (k + 1) }
        match drainLoop (k + 1) (k + 1) s' with
        | none => (.failed, s')
        | some s' => streamLoop bytes fuel s'
    else (.finished, s)

/-- The loop on a new connection that delivers `stream`, into a file that holds `file`. -/
def receive (bytes : Int32) (ins outs : List Answer) (stream file : Bytes) :
    StreamEnd × StreamState :=
  streamLoop bytes stream.length
    { ins, outs, stream, pipe := [], file, offset := 0, totalBytes := 0, totalBytesTransferred := 0 }

/-- Emptying the pipe touches neither the connection nor the counter. -/
theorem drainLoop_eq {fuel expectedBytes : Nat} (hfuel : expectedBytes ≤ fuel) {s : StreamState}
    (houts : NoFail s.outs) (hpipe : s.pipe.length = expectedBytes) :
    ∃ s', drainLoop fuel expectedBytes s = some s' ∧ s'.pipe = [] ∧ NoFail s'.outs ∧
      s'.ins = s.ins ∧ s'.stream = s.stream ∧ s'.totalBytes = s.totalBytes := by
  induction fuel generalizing expectedBytes s with
  | zero =>
    obtain rfl := Nat.le_zero.1 hfuel
    exact ⟨s, rfl, List.length_eq_zero_iff.1 hpipe, houts, rfl, rfl, rfl⟩
  | succ fuel ih =>
    cases expectedBytes with
    | zero => exact ⟨s, rfl, List.length_eq_zero_iff.1 hpipe, houts, rfl, rfl, rfl⟩
    | succ expectedBytes =>
      obtain ⟨k, rest, hcall, hrest, -, hk, hpos⟩ :=
        nextCall_eq houts (expectedBytes + 1) s.pipe.length
      have hpos := hpos (by omega) (by omega)
      rw [drainLoop, hcall]
      apply ih
      · omega
      · exact hrest
      · rw [List.length_drop]
        omega

/-- What the loop leaves. -/
structure StreamResult (bytes : Int32) (s : StreamState) (r : StreamEnd × StreamState) : Prop where
  consumed : r.2.totalBytes.toNat + r.2.stream.length = s.totalBytes.toNat + s.stream.length
  finished : r.1 = .finished → belowSize r.2.totalBytes bytes = false ∧
    (r.2.totalBytes = s.totalBytes ∨
      r.2.totalBytes.toNat < bytes.toInt64.toUInt64.toNat + kSpliceBuffer)
  otherwise : r.1 ≠ .finished → r.1 = .serverEnded ∧ belowSize r.2.totalBytes bytes = true ∧
    r.2.stream = []

theorem belowSize_iff {totalBytes : UInt64} {bytes : Int32} :
    belowSize totalBytes bytes = true ↔ totalBytes.toNat < bytes.toInt64.toUInt64.toNat := by
  unfold belowSize
  rw [decide_eq_true_iff, UInt64.lt_iff_toNat_lt]

/-- If no call fails, the loop takes bytes off the connection until the counter is not below the
size any more or nothing is left. -/
theorem streamLoop_result (bytes : Int32) {fuel : Nat} {s : StreamState}
    (hfuel : s.stream.length ≤ fuel) (hins : NoFail s.ins) (houts : NoFail s.outs)
    (hpipe : s.pipe = []) (htotal : s.totalBytes.toNat + s.stream.length < 2 ^ 64) :
    StreamResult bytes s (streamLoop bytes fuel s) := by
  induction fuel generalizing s with
  | zero =>
    have hnil := List.length_eq_zero_iff.1 (Nat.le_zero.1 hfuel)
    rw [streamLoop]
    cases hbelow : belowSize s.totalBytes bytes with
    | true => exact ⟨rfl, by simp, by simp [hbelow, hnil]⟩
    | false => exact ⟨rfl, by simp [hbelow], by simp⟩
  | succ fuel ih =>
    rw [streamLoop]
    by_cases hbelow : belowSize s.totalBytes bytes = true
    · rw [if_pos hbelow]
      obtain ⟨k, rest, hcall, hrest, hwanted, havailable, hpos⟩ :=
        nextCall_eq hins kSpliceBuffer s.stream.length
      rw [hcall]
      cases k with
      | zero =>
        have hnil : s.stream = [] := by
          by_contra hne
          have := hpos (by decide) (List.length_pos_iff.2 hne)
          omega
        exact ⟨rfl, by simp, fun _ => ⟨rfl, hbelow, hnil⟩⟩
      | succ k =>
        have hpiped : (s.pipe ++ s.stream.take (k + 1)).length = k + 1 := by
          rw [hpipe, List.nil_append, List.length_take]
          omega
        have hcount : (s.totalBytes + .ofNat (k + 1)).toNat = s.totalBytes.toNat + (k + 1) := by
          rw [UInt64.toNat_add, UInt64.toNat_ofNat']
          omega
        obtain ⟨s', hdrain, hpipe', houts', hins', hstream', htotal'⟩ := drainLoop_eq
          (s := { s with ins := rest, stream := s.stream.drop (k + 1),
                         pipe := s.pipe ++ s.stream.take (k + 1),
                         totalBytes := s.totalBytes + .ofNat (k + 1) })
          (Nat.le_refl (k + 1)) houts hpiped
        have hlen : s'.stream.length = s.stream.length - (k + 1) := by
          rw [hstream', List.length_drop]
        have hnext : s'.totalBytes.toNat = s.totalBytes.toNat + (k + 1) := by
          rw [htotal', hcount]
        simp only [hdrain]
        obtain ⟨hconsumed, hfinished, hotherwise⟩ :=
          ih (s := s') (by omega) (hins' ▸ hrest) houts' hpipe' (by omega)
        refine ⟨by omega, fun hend => ?_, hotherwise⟩
        obtain ⟨hreached, hclose⟩ := hfinished hend
        refine ⟨hreached, .inr ?_⟩
        rcases hclose with hsame | hclose
        · have := belowSize_iff.1 hbelow
          rw [hsame]
          omega
        · exact hclose
    · rw [if_neg hbelow]
      have hbelow := Bool.eq_false_iff.2 hbelow
      exact ⟨rfl, fun _ => ⟨hbelow, .inl rfl⟩, by simp⟩

/-! ## What is written -/

/-- The file holds what was written so far and, behind it, what it held before. -/
structure Written (prior written : Bytes) (s : StreamState) : Prop where
  file : s.file = written ++ prior.drop written.length
  offset : s.offset = written.length

theorem Written.overwrite_eq {prior written : Bytes} {s : StreamState} (h : Written prior written s)
    (bytes : Bytes) : overwrite s.file s.offset bytes =
      (written ++ bytes) ++ prior.drop (written ++ bytes).length := by
  have hdrop : (written ++ prior.drop written.length).drop (written.length + bytes.length) =
      prior.drop (written.length + bytes.length) := by
    rw [← List.drop_drop, List.drop_left, List.drop_drop]
  rw [overwrite, h.file, h.offset, List.take_left, hdrop, List.length_append]

/-- What comes out of the pipe is written behind what was written before. -/
theorem drainLoop_written {fuel expectedBytes : Nat} {prior written : Bytes} {s s' : StreamState}
    (h : Written prior written s) (hpipe : s.pipe.length = expectedBytes)
    (hdrain : drainLoop fuel expectedBytes s = some s') :
    Written prior (written ++ s.pipe) s' ∧ s'.pipe = [] ∧ s'.stream = s.stream ∧
      s'.totalBytes = s.totalBytes := by
  induction fuel generalizing expectedBytes written s with
  | zero =>
    cases expectedBytes with
    | zero =>
      obtain rfl := Option.some.inj hdrain
      have hnil := List.length_eq_zero_iff.1 hpipe
      rw [hnil, List.append_nil]
      exact ⟨h, rfl, rfl, rfl⟩
    | succ expectedBytes => cases hdrain
  | succ fuel ih =>
    cases expectedBytes with
    | zero =>
      obtain rfl := Option.some.inj hdrain
      have hnil := List.length_eq_zero_iff.1 hpipe
      rw [hnil, List.append_nil]
      exact ⟨h, rfl, rfl, rfl⟩
    | succ expectedBytes =>
      rw [drainLoop] at hdrain
      split at hdrain
      · cases hdrain
      · next sentBytes outs hcall =>
        obtain ⟨hwanted, havailable⟩ := nextCall_le hcall
        have hwritten : Written prior (written ++ s.pipe.take sentBytes)
            { s with
              outs
              pipe := s.pipe.drop sentBytes
              file := overwrite s.file s.offset (s.pipe.take sentBytes)
              offset := s.offset + sentBytes
              totalBytesTransferred := s.totalBytesTransferred + .ofNat sentBytes } := by
          refine ⟨h.overwrite_eq _, ?_⟩
          simp only [List.length_append, List.length_take, h.offset]
          omega
        obtain ⟨hwritten', hrest⟩ := ih hwritten
          (by simp only [List.length_drop]; omega) hdrain
        rw [List.append_assoc, List.take_append_drop] at hwritten'
        exact ⟨hwritten', hrest⟩

/-- A loop that leaves normally has written a part of what the connection delivers, at least as long
as the size says. -/
theorem streamLoop_written (bytes : Int32) {fuel : Nat} {prior written : Bytes} {s : StreamState}
    (h : Written prior written s) (hpipe : s.pipe = [])
    (hcount : s.totalBytes.toNat = written.length)
    (hlen : written.length + s.stream.length < 2 ^ 64)
    (hend : (streamLoop bytes fuel s).1 = .finished) :
    ∃ w, Written prior w (streamLoop bytes fuel s).2 ∧
      w ++ (streamLoop bytes fuel s).2.stream = written ++ s.stream ∧
      bytes.toInt64.toUInt64.toNat ≤ w.length := by
  have hdone : ∀ s : StreamState, belowSize s.totalBytes bytes = false →
      bytes.toInt64.toUInt64.toNat ≤ s.totalBytes.toNat := by
    intro s hbelow
    exact Nat.not_lt.1 (mt belowSize_iff.2 (Bool.eq_false_iff.1 hbelow))
  induction fuel generalizing written s with
  | zero =>
    rw [streamLoop] at hend ⊢
    cases hbelow : belowSize s.totalBytes bytes with
    | true => simp [hbelow] at hend
    | false => exact ⟨written, h, rfl, hcount ▸ hdone s hbelow⟩
  | succ fuel ih =>
    rw [streamLoop] at hend ⊢
    by_cases hbelow : belowSize s.totalBytes bytes = true
    · rw [if_pos hbelow] at hend ⊢
      split at hend
      · cases hend
      · cases hend
      · next k ins hcall =>
        obtain ⟨hwanted, havailable⟩ := nextCall_le hcall
        simp only at hend ⊢
        have hpiped : (s.pipe ++ s.stream.take (k + 1)).length = k + 1 := by
          rw [hpipe, List.nil_append, List.length_take]
          omega
        split at hend
        · cases hend
        · next s' hdrain =>
          obtain ⟨hwritten, hpipe', hstream, htotal⟩ :=
            drainLoop_written (by exact ⟨h.file, h.offset⟩) hpiped hdrain
          rw [hpipe, List.nil_append] at hwritten
          have hcount' : s'.totalBytes.toNat = (written ++ s.stream.take (k + 1)).length := by
            rw [htotal, UInt64.toNat_add, UInt64.toNat_ofNat', List.length_append,
              List.length_take]
            omega
          have hlen' : (written ++ s.stream.take (k + 1)).length + s'.stream.length < 2 ^ 64 := by
            simp only [hstream, List.length_append, List.length_take, List.length_drop]
            omega
          obtain ⟨w, hw, hsplit, hsize⟩ := ih hwritten hpipe' hcount' hlen' hend
          refine ⟨w, hw, hsplit.trans ?_, hsize⟩
          rw [hstream, List.append_assoc, List.take_append_drop]
    · rw [if_neg hbelow] at hend ⊢
      exact ⟨written, h, rfl, hcount ▸ hdone s (Bool.eq_false_iff.2 hbelow)⟩

end Netpull
