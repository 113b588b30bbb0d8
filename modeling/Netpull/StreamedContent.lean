import Netpull.FileSize

/-!
# What is streamed into a file

Server and client copy a file in three loops, `sendfile` at the server and two around `splice` at the
client, and each call may move fewer bytes than it is asked for. The bytes arrive in order, whatever
the calls do; but the destination file is opened without `O_TRUNC`, so what it held before stays
behind them (`streamedExactly_iff`).
-/

namespace Netpull

/-- The content of the destination file after `openat` with `O_CREAT` and without `O_TRUNC`. -/
def openCreated (prior : Option Bytes) : Bytes := prior.getD []

/-- Whatever the calls of server and client do, and wherever the connection breaks, a client that
leaves its loop normally has the content of the source in its file. -/
def StreamedExactly (stSize : Int64) (content : Bytes) (prior : Option Bytes) : Prop :=
  ∀ sends ins outs stream, stream <+: (sendfile content sends (readyBytes stSize)).2.sent →
    (receive (transferBytes stSize) ins outs stream (openCreated prior)).1 = .finished →
      (receive (transferBytes stSize) ins outs stream (openCreated prior)).2.file = content

/-- A loop that leaves normally has written the whole source over the beginning of the file. -/
theorem receive_file {stSize : Int64} (h : 0 ≤ stSize) {content : Bytes}
    (hcontent : content.length = stSize.toNatClampNeg) (hsmall : content.length < 2 ^ 31)
    {ins outs : List Answer} {stream file : Bytes} (hstream : stream <+: content)
    (hend : (receive (transferBytes stSize) ins outs stream file).1 = .finished) :
    (receive (transferBytes stSize) ins outs stream file).2.file =
      content ++ file.drop content.length := by
  have hlen : stream.length ≤ content.length := hstream.length_le
  have hwire : wireSize stSize = content.length := by
    rcases wireSize_cases h with ⟨-, hwire⟩ | ⟨hlarge, -⟩
    · rw [hwire, hcontent]
    · omega
  have hnothing : Written file [] ⟨ins, outs, stream, [], file, 0, 0, 0⟩ := ⟨rfl, rfl⟩
  obtain ⟨w, hw, hsplit, hsize⟩ := streamLoop_written (transferBytes stSize) hnothing rfl rfl
    (by simp only [List.length_nil]; omega) hend
  have hsize' : content.length ≤ w.length := hwire ▸ hsize
  have hprefix : w <+: content := by
    rw [List.nil_append] at hsplit
    exact List.IsPrefix.trans ⟨_, hsplit⟩ hstream
  have hall : w = content := hprefix.eq_of_length_le hsize'
  rw [receive, hw.file, hall]

/-- **The source is what is streamed** if and only if the file was not longer before. -/
theorem streamedExactly_iff {stSize : Int64} (h : 0 ≤ stSize) {content : Bytes}
    (hcontent : content.length = stSize.toNatClampNeg) (hsmall : content.length < 2 ^ 31)
    (prior : Option Bytes) :
    StreamedExactly stSize content prior ↔
      ∀ old, prior = some old → old.length ≤ content.length := by
  constructor
  · rintro hexact old rfl
    have hnone : NoFail [] := by simp [NoFail]
    have hbytes : (readyBytes stSize).toNat = content.length :=
      (Int64.toNat_toUInt64_of_le h).trans hcontent.symm
    have hsent : (sendfile content [] (readyBytes stSize)).2.sent = content := by
      rw [(sendfile_complete hnone hbytes.le).2, hbytes, List.take_length]
    have hend : (receive (transferBytes stSize) [] [] content (openCreated (some old))).1 =
        .finished :=
      ((receive_received hcontent hnone hnone _).of_small h (by omega)).1
    have hfile := hexact [] [] [] content (by rw [hsent]) hend
    rw [receive_file h hcontent hsmall List.prefix_rfl hend] at hfile
    have hrest := List.append_right_eq_self.1 hfile
    exact List.drop_eq_nil_iff.1 hrest
  · intro hprior sends ins outs stream hstream hend
    have hdrop : (openCreated prior).drop content.length = [] := by
      cases prior with
      | none => exact List.drop_nil
      | some old => exact List.drop_eq_nil_iff.2 (hprior old rfl)
    rw [receive_file h hcontent hsmall (hstream.trans (sent_of_sendfile _ _ _)) hend, hdrop,
      List.append_nil]

/-- Five bytes into a file of four. -/
theorem streamedExactly_hello : StreamedExactly 5 (text "hello") (some (text "abcd")) := by
  refine (streamedExactly_iff (by decide) rfl (by decide) _).2 ?_
  rintro old ⟨⟩
  decide

/-- Five bytes into a file that held eleven: the last six stay. -/
theorem longer_file_keeps_tail :
    (receive (transferBytes 5) [] [] (text "hello") (openCreated (some (text "older bytes")))).1 =
        .finished ∧
      (receive (transferBytes 5) [] [] (text "hello")
          (openCreated (some (text "older bytes")))).2.file = text "hello bytes" ∧
      ¬ StreamedExactly 5 (text "hello") (some (text "older bytes")) := by
  have hrun : (receive (transferBytes 5) [] [] (text "hello")
      (openCreated (some (text "older bytes")))).1 = .finished := rfl
  have hfile : (receive (transferBytes 5) [] [] (text "hello")
      (openCreated (some (text "older bytes")))).2.file = text "hello bytes" := rfl
  have hsent : text "hello" <+: (sendfile (text "hello") [] (readyBytes 5)).2.sent := by
    decide
  refine ⟨hrun, hfile, ?_⟩
  intro hexact
  have hsame := hexact [] [] [] (text "hello") hsent hrun
  rw [hfile] at hsame
  revert hsame
  decide

end Netpull
