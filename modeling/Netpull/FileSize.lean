import Netpull.Client.FileStream
import Netpull.Server.ClientSendCrawler
import Netpull.Server.FileStream

/-!
# File sizes between server and client

A size passes through three types: `off_t` at the server, an `int32` on the wire, and a comparison
of the sign-extended `int32` with an unsigned 64-bit counter at the client. `sizes_agree_iff` says
for which sizes the client takes exactly what the server sends.
-/

namespace Netpull

theorem toNat_toUInt64 (x : Int64) :
    (x.toUInt64.toNat : Int) = if x.toInt < 0 then x.toInt + 2 ^ 64 else x.toInt := by
  have hnat : x.toUInt64.toNat = x.toBitVec.toNat := rfl
  have hint : x.toInt = x.toBitVec.toInt := rfl
  have hlt := x.toBitVec.isLt
  rw [hnat, hint, BitVec.toInt_eq_toNat_cond]
  split <;> split <;> omega

/-- The size the client compares with. -/
def wireSize (stSize : Int64) : Nat := (transferBytes stSize).toInt64.toUInt64.toNat

/-- Below 2^31 the client compares with the size itself, from there on with a size that is too small
by at least 2^32, or with one no file has. -/
theorem wireSize_cases {stSize : Int64} (h : 0 ≤ stSize) :
    (stSize.toNatClampNeg < 2 ^ 31 ∧ wireSize stSize = stSize.toNatClampNeg) ∨
    (2 ^ 31 ≤ stSize.toNatClampNeg ∧
      (wireSize stSize + 2 ^ 32 ≤ stSize.toNatClampNeg ∨ 2 ^ 63 ≤ wireSize stSize)) := by
  have hnonneg : 0 ≤ stSize.toInt := by simpa [Int64.le_iff_toInt_le] using h
  have hlt := Int64.toInt_lt stSize
  have hnat : (stSize.toNatClampNeg : Int) = stSize.toInt := by
    rw [← Int64.toNat_toInt, Int.toNat_of_nonneg hnonneg]
  have hwire := toNat_toUInt64 (transferBytes stSize).toInt64
  rw [Int32.toInt_toInt64, transferBytes, Int64.toInt_toInt32, Int.bmod_def] at hwire
  unfold wireSize transferBytes
  split at hwire <;> split at hwire <;> omega

/-- Server and client agree on a file: all of it is sent, and the client leaves its loop normally
with exactly that many bytes. -/
structure SizesAgree (stSize : Int64) (content : Bytes) (sends ins outs : List Answer)
    (file : Bytes) : Prop where
  sent : (sendfile content sends (readyBytes stSize)).2.sent = content
  finished : (receive (transferBytes stSize) ins outs content file).1 = .finished
  consumed : (receive (transferBytes stSize) ins outs content file).2.stream = []
  counted : (receive (transferBytes stSize) ins outs content file).2.totalBytes.toNat =
    stSize.toNatClampNeg

/-- How the client's loop can end on all the bytes of a file. -/
structure Received (stSize : Int64) (r : StreamEnd × StreamState) : Prop where
  consumed : r.2.totalBytes.toNat + r.2.stream.length = stSize.toNatClampNeg
  finished : r.1 = .finished → wireSize stSize ≤ r.2.totalBytes.toNat ∧
    (r.2.totalBytes.toNat = 0 ∨ r.2.totalBytes.toNat < wireSize stSize + kSpliceBuffer)
  otherwise : r.1 ≠ .finished → r.2.totalBytes.toNat < wireSize stSize ∧ r.2.stream = []

theorem toNatClampNeg_lt (x : Int64) : x.toNatClampNeg < 2 ^ 63 := by
  rw [← Int64.toNat_toInt]
  have := Int64.toInt_lt x
  omega

theorem receive_received {stSize : Int64} {content : Bytes}
    (hcontent : content.length = stSize.toNatClampNeg) {ins outs : List Answer}
    (hins : NoFail ins) (houts : NoFail outs) (file : Bytes) :
    Received stSize (receive (transferBytes stSize) ins outs content file) := by
  have hlt := toNatClampNeg_lt stSize
  obtain ⟨hconsumed, hfinished, hotherwise⟩ := streamLoop_result (transferBytes stSize)
    (s := ⟨ins, outs, content, [], file, 0, 0, 0⟩) (Nat.le_refl content.length) hins houts rfl
    (by simp; omega)
  refine ⟨hconsumed.trans ?_, fun hend => ?_, fun hend => ?_⟩
  · simpa using hcontent
  · obtain ⟨hreached, hclose⟩ := hfinished hend
    have hle := mt belowSize_iff.2 (Bool.eq_false_iff.1 hreached)
    refine ⟨Nat.not_lt.1 hle, hclose.imp_left fun hsame => ?_⟩
    rw [receive, hsame]
    rfl
  · obtain ⟨-, hbelow, hnil⟩ := hotherwise hend
    exact ⟨belowSize_iff.1 hbelow, hnil⟩

namespace Received

variable {stSize : Int64} {r : StreamEnd × StreamState}

theorem of_small (hr : Received stSize r) (h : 0 ≤ stSize)
    (hsmall : stSize.toNatClampNeg < 2 ^ 31) :
    r.1 = .finished ∧ r.2.totalBytes.toNat = stSize.toNatClampNeg := by
  have hwire : wireSize stSize = stSize.toNatClampNeg := by
    rcases wireSize_cases h with ⟨-, hwire⟩ | ⟨hlarge, -⟩
    · exact hwire
    · omega
  have hconsumed := hr.consumed
  have hend : r.1 = .finished := by
    by_contra hend
    obtain ⟨hbelow, hnil⟩ := hr.otherwise hend
    rw [hnil, List.length_nil] at hconsumed
    omega
  have hreached := (hr.finished hend).1
  exact ⟨hend, by omega⟩

theorem of_large (hr : Received stSize r) (h : 0 ≤ stSize)
    (hlarge : 2 ^ 31 ≤ stSize.toNatClampNeg) :
    ¬ (r.1 = .finished ∧ r.2.totalBytes.toNat = stSize.toNatClampNeg) := by
  rintro ⟨hend, hcounted⟩
  obtain ⟨hreached, hclose⟩ := hr.finished hend
  have hlt := toNatClampNeg_lt stSize
  have hbuffer : kSpliceBuffer = 16384 := rfl
  rcases wireSize_cases h with ⟨hsmall, -⟩ | ⟨-, hwire⟩ <;> omega

end Received

/-- **Sizes agree below 2^31**, and for no larger file, however the stream is split. -/
theorem sizes_agree_iff {stSize : Int64} (h : 0 ≤ stSize) {content : Bytes}
    (hcontent : content.length = stSize.toNatClampNeg) {sends ins outs : List Answer}
    (hsends : NoFail sends) (hins : NoFail ins) (houts : NoFail outs) (file : Bytes) :
    SizesAgree stSize content sends ins outs file ↔ stSize.toNatClampNeg < 2 ^ 31 := by
  have hreceived := receive_received hcontent hins houts file
  constructor
  · intro hagree
    by_contra hlarge
    exact hreceived.of_large h (Nat.not_lt.1 hlarge) ⟨hagree.finished, hagree.counted⟩
  · intro hsmall
    obtain ⟨hend, hcounted⟩ := hreceived.of_small h hsmall
    have hconsumed := hreceived.consumed
    have hbytes : (readyBytes stSize).toNat = stSize.toNatClampNeg :=
      Int64.toNat_toUInt64_of_le h
    refine ⟨?_, hend, List.length_eq_zero_iff.1 (by omega), hcounted⟩
    rw [(sendfile_complete hsends (by omega)).2, hbytes, ← hcontent, List.take_length]

theorem sizes_agree_iff_hello :
    SizesAgree 5 (text "hello") [.upTo 2] [.upTo 3] [.upTo 1] [] ↔
      (5 : Int64).toNatClampNeg < 2 ^ 31 :=
  sizes_agree_iff (by decide) rfl (by simp [NoFail]) (by simp [NoFail]) (by simp [NoFail]) []

/-- A file of 2^31 bytes is announced with the size -2^31, which the client never reaches; one of
2^32 bytes is announced as empty, and the client takes nothing. -/
theorem two_gigabytes_disagree :
    ¬ SizesAgree 0x80000000 (List.replicate 0x80000000 0) [] [] [] [] ∧
      ¬ SizesAgree 0x100000000 (List.replicate 0x100000000 0) [] [] [] [] := by
  have hnone : NoFail [] := by simp [NoFail]
  constructor
  · intro hagree
    have hreceived : Received 0x80000000 (receive (transferBytes 0x80000000) [] []
        (List.replicate 0x80000000 0) []) :=
      receive_received (List.length_replicate.trans (by decide)) hnone hnone []
    exact hreceived.of_large (by decide) (by decide) ⟨hagree.finished, hagree.counted⟩
  · intro hagree
    have hreceived : Received 0x100000000 (receive (transferBytes 0x100000000) [] []
        (List.replicate 0x100000000 0) []) :=
      receive_received (List.length_replicate.trans (by decide)) hnone hnone []
    exact hreceived.of_large (by decide) (by decide) ⟨hagree.finished, hagree.counted⟩

end Netpull
