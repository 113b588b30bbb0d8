import Netpull.Network.Socket

/-!
# FileStreamTask of the server

Sends the content of a file with `sendfile`, as many bytes as the file had when it was found.
-/

namespace Netpull

/-- The variables of the loop, with the bytes sent so far. -/
structure SendfileState where
  answers : List Answer
  position : Nat
  bytesRemaining : UInt64
  sent : Bytes
deriving DecidableEq, Repr

/-- How the task ends: everything is sent, `sendfile` returned 0, or it failed. -/
inductive SendfileEnd
  | complete
  | short
  | failed
deriving DecidableEq, Repr

/-- `kMaxSendfileBuffer`. -/
def kMaxSendfileBuffer : Nat := 2 ^ 63 - 1

/-- The loop of `FileStreamTask::Run`, for at most `fuel` rounds; every round sends a byte. -/
def sendfileLoop (content : Bytes) : Nat → SendfileState → SendfileEnd × SendfileState
  | 0, s => (if s.bytesRemaining = 0 then .complete else .short, s)
  | fuel + 1, s =>
    if s.bytesRemaining = 0 then (.complete, s)
    else
      match nextCall s.answers (min kMaxSendfileBuffer s.bytesRemaining.toNat)
        (content.length - s.position) with
      | (.error _, answers) => (.failed, { s with answers })
      | (.ok 0, answers) => (.short, { s with answers })
      | (.ok (k + 1), answers) =>
        sendfileLoop content fuel
          { answers
            position := s.position + (k + 1)
            bytesRemaining := s.bytesRemaining - .ofNat (k + 1)
            sent := s.sent ++ (content.drop s.position).take (k + 1) }

/-- The loop with enough rounds, for a file of `bytes` bytes. -/
def sendfile (content : Bytes) (answers : List Answer) (bytes : UInt64) :
    SendfileEnd × SendfileState :=
  sendfileLoop content bytes.toNat
    { answers, position := 0, bytesRemaining := bytes, sent := [] }

theorem sendfileLoop_complete {content : Bytes} {fuel : Nat} {s : SendfileState}
    (hfuel : s.bytesRemaining.toNat ≤ fuel) (hanswers : NoFail s.answers)
    (hcontent : s.position + s.bytesRemaining.toNat ≤ content.length) :
    (sendfileLoop content fuel s).1 = .complete ∧
      (sendfileLoop content fuel s).2.sent =
        s.sent ++ (content.drop s.position).take s.bytesRemaining.toNat := by
  induction fuel generalizing s with
  | zero =>
    have hzero : s.bytesRemaining.toNat = 0 := by omega
    have hdone : s.bytesRemaining = 0 := UInt64.toNat_inj.1 hzero
    simp [sendfileLoop, hdone]
  | succ fuel ih =>
    by_cases hdone : s.bytesRemaining = 0
    · simp [sendfileLoop, hdone]
    · have hpos : 0 < s.bytesRemaining.toNat :=
        Nat.pos_of_ne_zero fun h => hdone (UInt64.toNat_inj.1 h)
      have hlt := s.bytesRemaining.toNat_lt
      obtain ⟨k, rest, hcall, hrest, hwanted, havailable, hk⟩ := nextCall_eq hanswers
        (min kMaxSendfileBuffer s.bytesRemaining.toNat) (content.length - s.position)
      have hk := hk (by unfold kMaxSendfileBuffer; omega) (by omega)
      rw [sendfileLoop, if_neg hdone, hcall]
      obtain ⟨k, rfl⟩ := Nat.exists_eq_succ_of_ne_zero (Nat.pos_iff_ne_zero.1 hk)
      have hle : UInt64.ofNat (k + 1) ≤ s.bytesRemaining := by
        rw [UInt64.le_iff_toNat_le, UInt64.toNat_ofNat']
        omega
      have hremaining : (s.bytesRemaining - .ofNat (k + 1)).toNat =
          s.bytesRemaining.toNat - (k + 1) := by
        rw [UInt64.toNat_sub_of_le _ _ hle, UInt64.toNat_ofNat']
        omega
      obtain ⟨hend, hsent⟩ := ih
        (s := ⟨rest, s.position + (k + 1), s.bytesRemaining - .ofNat (k + 1),
          s.sent ++ (content.drop s.position).take (k + 1)⟩)
        (by simp only [hremaining]; omega) hrest (by simp only [hremaining]; omega)
      refine ⟨hend, hsent.trans ?_⟩
      simp only [hremaining]
      have hsum : s.bytesRemaining.toNat = (k + 1) + (s.bytesRemaining.toNat - (k + 1)) := by omega
      rw [List.append_assoc, ← List.drop_drop, ← List.take_add, ← hsum]

/-- A file that has at least as many bytes as when it was found is sent up to that size. -/
theorem sendfile_complete {content : Bytes} {answers : List Answer} (h : NoFail answers)
    {bytes : UInt64} (hbytes : bytes.toNat ≤ content.length) :
    (sendfile content answers bytes).1 = .complete ∧
      (sendfile content answers bytes).2.sent = content.take bytes.toNat := by
  have hstart : 0 + bytes.toNat ≤ content.length := by omega
  exact sendfileLoop_complete (Nat.le_refl _) h hstart

/-- However the loop ends, it has sent the beginning of the content. -/
theorem sent_of_sendfileLoop {content : Bytes} {fuel : Nat} {s : SendfileState}
    (h : s.sent = content.take s.position) :
    (sendfileLoop content fuel s).2.sent <+: content := by
  induction fuel generalizing s with
  | zero =>
    rw [sendfileLoop, h]
    exact List.take_prefix _ _
  | succ fuel ih =>
    rw [sendfileLoop]
    split
    · rw [h]
      exact List.take_prefix _ _
    · split
      · rw [h]
        exact List.take_prefix _ _
      · rw [h]
        exact List.take_prefix _ _
      · next k _ _ =>
        apply ih
        simp only [h]
        exact (List.take_add (i := s.position) (j := k + 1)).symm

theorem sent_of_sendfile (content : Bytes) (answers : List Answer) (bytes : UInt64) :
    (sendfile content answers bytes).2.sent <+: content := by
  apply sent_of_sendfileLoop
  rfl

end Netpull
