import Mathlib.Algebra.Order.Field.Rat
import Mathlib.Algebra.Order.Field.Basic
import Netpull.Client.ProgressBuilder
import Netpull.FileSize
import Netpull.IntegrityLoops

/-!
# The calls of BuildLine

The loops of the client's tasks with the values that they pass to `BuildLine`: a counter, divided by
the size of the object message in `FileStreamTask`, and by what `lseek` returns in
`FileIntegrityTask`. Without the calls they are the loops of the other modules (`streamCalls_snd`,
`integrityCalls_snd`).

* A size that is not negative keeps the first loop in range. Under a negative one it goes on after
  its first trip, and passes a negative quotient.
* The second loop is in range but for an empty file: it calls `BuildLine` before it knows whether
  there is anything to read, and divides by zero.
-/

namespace Netpull

/-! ## The program -/

/-- What a loop passes to `BuildLine`: `static_cast<double>(numerator) / divisor`. -/
structure BuildLineCall where
  numerator : UInt64
  divisor : Int
deriving DecidableEq, Repr

/-- The contract of `BuildLine`. -/
structure BuildLineCall.InRange (c : BuildLineCall) : Prop where
  divisor : c.divisor ≠ 0
  nonneg : 0 ≤ (c.numerator.toNat : ℚ) / c.divisor
  le_one : (c.numerator.toNat : ℚ) / c.divisor ≤ 1

/-- The loop of `FileStreamTask::Run`, with its calls of `BuildLine`. -/
def streamCalls (bytes : Int32) : Nat → StreamState → List BuildLineCall × StreamEnd × StreamState
  | 0, s =>
    if belowSize s.totalBytes bytes then ([⟨s.totalBytes, bytes.toInt⟩], .serverEnded, s)
    else ([], .finished, s)
  | fuel + 1, s =>
    if belowSize s.totalBytes bytes then
      let call : BuildLineCall := ⟨s.totalBytes, bytes.toInt⟩
      match nextCall s.ins kSpliceBuffer s.stream.length with
      | (.error _, ins) => ([call], .failed, { s with ins })
      | (.ok 0, ins) => ([call], .serverEnded, { s with ins })
      | (.ok (k + 1), ins) =>
        let s' : StreamState :=
          { s with
            ins
            stream := s.stream.drop (k + 1)
            pipe := s.pipe ++ s.stream.take (k + 1)
            totalBytes := s.totalBytes + .ofNat (k + 1) }
        match drainLoop (k + 1) (k + 1) s' with
        | none => ([call], .failed, s')
        | some s' =>
          let (calls, result) := streamCalls bytes fuel s'
          (call :: calls, result)
    else ([], .finished, s)

/-- The calls on a new connection that delivers `stream`, into a file that holds `file`. -/
def receiveCalls (bytes : Int32) (ins outs : List Answer) (stream file : Bytes) :
    List BuildLineCall :=
  (streamCalls bytes stream.length
    { ins, outs, stream, pipe := [], file, offset := 0, totalBytes := 0,
      totalBytesTransferred := 0 }).1

/-- `lseek` to the end of a file as a `size_t`: its size, or `-1` if an `off_t` does not hold it. -/
def lseekEnd (file : Bytes) : UInt64 :=
  if file.length < 2 ^ 63 then .ofNat file.length else .ofInt (-1)

/-- The loop of `FileIntegrityTask::Run`, with its calls of `BuildLine`. -/
def integrityCalls (totalBytes : UInt64) : Nat → OpenFile → Bytes → Sha256Builder → UInt64 →
    List BuildLineCall × Option Sha256Builder
  | 0, _, _, _, _ => ([], none)
  | fuel + 1, f, buffer, builder, totalBytesProcessed =>
    let call : BuildLineCall := ⟨totalBytesProcessed, totalBytes.toNat⟩
    match f.read buffer.length with
    | (.error _, _) => ([call], none)
    | (.ok bytes, f) =>
      if bytes = [] then ([call], some builder)
      else
        let buffer := fillFront buffer bytes
        let (calls, result) := integrityCalls totalBytes fuel f buffer
          (builder.updateArray buffer bytes.length) (totalBytesProcessed + .ofNat bytes.length)
        (call :: calls, result)

/-- The calls for a file; `fuel` bounds the trips after the first one. -/
def checkCalls (fuel : Nat) (file : Bytes) (answers : List Answer) (buffer : Bytes) :
    List BuildLineCall :=
  (integrityCalls (lseekEnd file) (fuel + 1) ⟨file, answers⟩ buffer .init 0).1

theorem streamCalls_snd (bytes : Int32) (fuel : Nat) (s : StreamState) :
    (streamCalls bytes fuel s).2 = streamLoop bytes fuel s := by
  induction fuel generalizing s with
  | zero =>
    rw [streamCalls, streamLoop]
    split <;> rfl
  | succ fuel ih =>
    rw [streamCalls, streamLoop]
    by_cases hbelow : belowSize s.totalBytes bytes = true
    · rw [if_pos hbelow, if_pos hbelow]
      cases hcall : nextCall s.ins kSpliceBuffer s.stream.length with
      | mk result ins =>
        cases result with
        | error errno => rfl
        | ok k =>
          cases k with
          | zero => rfl
          | succ k =>
            simp only
            cases drainLoop (k + 1) (k + 1)
              { s with
                ins
                stream := s.stream.drop (k + 1)
                pipe := s.pipe ++ s.stream.take (k + 1)
                totalBytes := s.totalBytes + .ofNat (k + 1) } with
            | none => rfl
            | some s' => exact ih s'
    · rw [if_neg hbelow, if_neg hbelow]

theorem integrityCalls_snd (totalBytes : UInt64) (fuel : Nat) (f : OpenFile) (buffer : Bytes)
    (builder : Sha256Builder) (totalBytesProcessed : UInt64) :
    (integrityCalls totalBytes fuel f buffer builder totalBytesProcessed).2 =
      clientLoop fuel f buffer builder := by
  induction fuel generalizing f buffer builder totalBytesProcessed with
  | zero => rfl
  | succ fuel ih =>
    rw [integrityCalls, clientLoop]
    cases hread : f.read buffer.length with
    | mk result f' =>
      cases result with
      | error errno => rfl
      | ok bytes =>
        simp only
        split
        · rfl
        · exact ih _ _ _ _

/-! ## Values in range -/

namespace BuildLineCall

variable {c : BuildLineCall}

/-- Under a negative size only the quotient zero is in range. -/
theorem inRange_iff : c.InRange ↔
    c.divisor ≠ 0 ∧ (c.numerator.toNat = 0 ∨ (c.numerator.toNat : Int) ≤ c.divisor) := by
  obtain ⟨numerator, divisor⟩ := c
  constructor
  · rintro ⟨hdivisor, hnonneg, hle⟩
    refine ⟨hdivisor, ?_⟩
    rcases lt_or_gt_of_ne hdivisor with hneg | hpos
    · left
      by_contra hne
      have hnumerator : (0 : ℚ) < numerator.toNat := by exact_mod_cast Nat.pos_of_ne_zero hne
      have hdiv : (numerator.toNat : ℚ) / divisor < 0 :=
        div_neg_of_pos_of_neg hnumerator (by exact_mod_cast hneg)
      exact absurd hnonneg (not_le.2 hdiv)
    · right
      have hpos : (0 : ℚ) < divisor := by exact_mod_cast hpos
      exact_mod_cast (div_le_one hpos).1 hle
  · rintro ⟨hdivisor, hzero | hle⟩
    · simp only at hzero
      refine ⟨hdivisor, ?_, ?_⟩ <;> simp [hzero]
    · simp only at hdivisor hle
      have hpos : 0 < divisor := by omega
      have hpos : (0 : ℚ) < divisor := by exact_mod_cast hpos
      refine ⟨hdivisor, div_nonneg (Nat.cast_nonneg _) hpos.le, (div_le_one hpos).2 ?_⟩
      exact_mod_cast hle

/-- A call in range gives `BuildLine` a progress as its contract has it. -/
theorem InRange.progress (h : c.InRange) :
    ∃ p : Progress, ∀ k, p.trunc k = (k * c.numerator.toNat).tdiv c.divisor := by
  obtain ⟨hdivisor, hzero | hle⟩ := inRange_iff.1 h
  · refine ⟨⟨fun _ => 0, fun k hk => ⟨le_rfl, hk⟩, fun k hk => ⟨hk, le_rfl⟩⟩, fun k => ?_⟩
    rw [hzero]
    simp
  · have hpos : 0 < c.divisor := by omega
    have hbound : ∀ k : Int, 0 ≤ k → 0 ≤ (k * c.numerator.toNat).tdiv c.divisor ∧
        (k * c.numerator.toNat).tdiv c.divisor ≤ k := by
      intro k hk
      have hmul : k * c.numerator.toNat ≤ k * c.divisor := Int.mul_le_mul_of_nonneg_left hle hk
      have hnonneg : 0 ≤ k * (c.numerator.toNat : Int) := Int.mul_nonneg hk (Int.natCast_nonneg _)
      rw [Int.tdiv_eq_ediv_of_nonneg hnonneg]
      exact ⟨Int.ediv_nonneg hnonneg hpos.le, Int.ediv_le_of_le_mul hpos hmul⟩
    refine ⟨⟨fun k => (k * c.numerator.toNat).tdiv c.divisor, hbound, fun k hk => ?_⟩, fun _ => rfl⟩
    have hneg := hbound (-k) (by omega)
    rw [Int.neg_mul, Int.neg_tdiv] at hneg
    omega

end BuildLineCall

/-! ## The stream -/

/-- The splices out of the pipe move as many bytes, and none of them fails before. -/
def movesAll : List Answer → Nat → Bool
  | _, 0 => true
  | [], _ + 1 => true
  | .fail _ :: _, _ + 1 => false
  | .upTo n :: rest, k + 1 => movesAll rest (k + 1 - transferred n (k + 1) (k + 1))

/-- Something is taken off the connection, and moved into the file. -/
def firstTrip (ins outs : List Answer) (stream : Bytes) : Bool :=
  match nextCall ins kSpliceBuffer stream.length with
  | (.ok k, _) => 0 < k && movesAll outs k
  | (.error _, _) => false

theorem drainLoop_isSome {fuel expectedBytes : Nat} (hfuel : expectedBytes ≤ fuel) {s : StreamState}
    (hpipe : s.pipe.length = expectedBytes) :
    (drainLoop fuel expectedBytes s).isSome = movesAll s.outs expectedBytes := by
  induction fuel generalizing expectedBytes s with
  | zero =>
    obtain rfl := Nat.le_zero.1 hfuel
    rw [drainLoop, movesAll]
    rfl
  | succ fuel ih =>
    cases expectedBytes with
    | zero =>
      rw [drainLoop, movesAll]
      rfl
    | succ expectedBytes =>
      rw [drainLoop, hpipe]
      cases houts : s.outs with
      | nil =>
        simp only [nextCall, Nat.min_self, Nat.sub_self, movesAll, drainLoop, Option.isSome_some]
      | cons answer rest =>
        cases answer with
        | fail errno => rfl
        | upTo n =>
          have hmoved : 1 ≤ transferred n (expectedBytes + 1) (expectedBytes + 1) := by
            unfold transferred
            omega
          simp only [nextCall, movesAll]
          rw [ih (by omega)]
          rw [List.length_drop, hpipe]

/-- The loop passes a counter that is below the size, as the loop compares them. -/
theorem streamCalls_below {bytes : Int32} {fuel : Nat} {s : StreamState} {c : BuildLineCall}
    (hc : c ∈ (streamCalls bytes fuel s).1) :
    belowSize c.numerator bytes = true ∧ c.divisor = bytes.toInt := by
  induction fuel generalizing s with
  | zero =>
    rw [streamCalls] at hc
    split at hc
    · next hbelow =>
      obtain rfl := List.mem_singleton.1 hc
      exact ⟨hbelow, rfl⟩
    · cases hc
  | succ fuel ih =>
    rw [streamCalls] at hc
    split at hc
    · next hbelow =>
      have hcall : c = ⟨s.totalBytes, bytes.toInt⟩ →
          belowSize c.numerator bytes = true ∧ c.divisor = bytes.toInt := by
        rintro rfl
        exact ⟨hbelow, rfl⟩
      split at hc
      · exact hcall (List.mem_singleton.1 hc)
      · exact hcall (List.mem_singleton.1 hc)
      · next k ins hnext =>
        simp only at hc
        split at hc
        · exact hcall (List.mem_singleton.1 hc)
        · next s' hdrain =>
          rcases List.mem_cons.1 hc with hc | hc
          · exact hcall hc
          · exact ih hc
    · cases hc

/-- If the counter is below the size, the loop begins with a call. -/
theorem streamCalls_head {bytes : Int32} {s : StreamState}
    (hbelow : belowSize s.totalBytes bytes = true) (fuel : Nat) :
    ⟨s.totalBytes, bytes.toInt⟩ ∈ (streamCalls bytes fuel s).1 := by
  cases fuel with
  | zero =>
    rw [streamCalls, if_pos hbelow]
    exact .head _
  | succ fuel =>
    rw [streamCalls, if_pos hbelow]
    split
    · exact .head _
    · exact .head _
    · simp only
      split <;> exact .head _

theorem belowSize_of_nonneg {bytes : Int32} (h : 0 ≤ bytes.toInt) {totalBytes : UInt64}
    (hbelow : belowSize totalBytes bytes = true) : (totalBytes.toNat : Int) < bytes.toInt := by
  have hlt := belowSize_iff.1 hbelow
  have hsize := toNat_toUInt64 bytes.toInt64
  rw [Int32.toInt_toInt64, if_neg (by omega)] at hsize
  omega

/-- A negative size is greater than any counter. -/
theorem belowSize_of_neg {bytes : Int32} (h : bytes.toInt < 0) {totalBytes : UInt64}
    (hsmall : totalBytes.toNat < 2 ^ 63) : belowSize totalBytes bytes = true := by
  have hsize := toNat_toUInt64 bytes.toInt64
  have hmin := Int32.le_toInt bytes
  rw [Int32.toInt_toInt64, if_pos h] at hsize
  rw [belowSize_iff]
  omega

/-- The first bytes off the connection come through the pipe, unless a splice fails. -/
theorem firstDrain_isSome (ins outs : List Answer) {stream : Bytes} (file : Bytes) {k : Nat}
    (hk : k + 1 ≤ stream.length) :
    (drainLoop (k + 1) (k + 1)
      { ins, outs, stream := stream.drop (k + 1), pipe := [] ++ stream.take (k + 1), file,
        offset := 0, totalBytes := 0 + .ofNat (k + 1), totalBytesTransferred := 0 }).isSome =
      movesAll outs (k + 1) := by
  apply drainLoop_isSome (Nat.le_refl (k + 1))
  rw [List.nil_append, List.length_take]
  omega

/-- Unless the first trip comes to its end, there is no call after the first one. -/
theorem receiveCalls_first {bytes : Int32} {ins outs : List Answer} {stream file : Bytes}
    (htrip : firstTrip ins outs stream = false) {c : BuildLineCall}
    (hc : c ∈ receiveCalls bytes ins outs stream file) : c = ⟨0, bytes.toInt⟩ := by
  unfold receiveCalls at hc
  cases hlen : stream.length with
  | zero =>
    rw [hlen, streamCalls] at hc
    split at hc
    · exact List.mem_singleton.1 hc
    · cases hc
  | succ fuel =>
    rw [hlen, streamCalls] at hc
    split at hc
    · simp only at hc
      split at hc
      · exact List.mem_singleton.1 hc
      · exact List.mem_singleton.1 hc
      · next k ins' hnext =>
        split at hc
        · exact List.mem_singleton.1 hc
        · next s' hdrain =>
          have hmoves := firstDrain_isSome ins' outs file (nextCall_le hnext).2
          rw [firstTrip, hnext] at htrip
          simp only [Nat.zero_lt_succ, decide_true, Bool.true_and] at htrip
          rw [hdrain, htrip] at hmoves
          cases hmoves
    · cases hc

/-- After it, the loop passes how much was taken, if the size is negative. -/
theorem receiveCalls_second {bytes : Int32} (hneg : bytes.toInt < 0) {ins outs : List Answer}
    {stream : Bytes} (htrip : firstTrip ins outs stream = true) (file : Bytes) :
    ∃ c ∈ receiveCalls bytes ins outs stream file,
      c.divisor = bytes.toInt ∧ 0 < c.numerator.toNat := by
  have hbelow : belowSize 0 bytes = true := belowSize_of_neg hneg (by decide)
  rw [firstTrip] at htrip
  split at htrip
  · next k ins' hnext =>
    obtain ⟨hwanted, havailable⟩ := nextCall_le hnext
    simp only [Bool.and_eq_true, decide_eq_true_eq] at htrip
    obtain ⟨hpos, hmoves⟩ := htrip
    obtain ⟨k, rfl⟩ := Nat.exists_eq_add_one.2 hpos
    obtain ⟨fuel, hfuel⟩ := Nat.exists_eq_add_one.2 (show 0 < stream.length by omega)
    obtain ⟨s', hdrain⟩ :=
      Option.isSome_iff_exists.1 ((firstDrain_isSome ins' outs file havailable).trans hmoves)
    have hbuffer : kSpliceBuffer = 16384 := rfl
    have htotal : s'.totalBytes.toNat = k + 1 := by
      have hpipe : ([] ++ stream.take (k + 1)).length = k + 1 := by
        rw [List.nil_append, List.length_take]
        omega
      have hkeeps := (@drainLoop_written _ _ file [] _ _ ⟨rfl, rfl⟩ hpipe hdrain).2.2.2
      rw [hkeeps, UInt64.toNat_add, UInt64.toNat_ofNat', UInt64.toNat_zero]
      omega
    have hagain : belowSize s'.totalBytes bytes = true := belowSize_of_neg hneg (by omega)
    refine ⟨⟨s'.totalBytes, bytes.toInt⟩, ?_, rfl, by simp only; omega⟩
    unfold receiveCalls
    rw [hfuel, streamCalls, if_pos hbelow]
    simp only [hnext, hdrain]
    exact List.mem_cons_of_mem _ (streamCalls_head hagain fuel)
  · cases htrip

theorem receiveCalls_inRange_iff (bytes : Int32) (ins outs : List Answer) (stream file : Bytes) :
    (∀ c ∈ receiveCalls bytes ins outs stream file, c.InRange) ↔
      0 ≤ bytes.toInt ∨ firstTrip ins outs stream = false := by
  constructor
  · intro h
    by_contra hbad
    rw [not_or, Int.not_le, Bool.not_eq_false] at hbad
    obtain ⟨hneg, htrip⟩ := hbad
    obtain ⟨c, hc, hdivisor, hpos⟩ := receiveCalls_second hneg htrip file
    rcases (BuildLineCall.inRange_iff.1 (h c hc)).2 with hzero | hle <;> omega
  · intro h c hc
    obtain ⟨hbelow, hdivisor⟩ := streamCalls_below hc
    rw [BuildLineCall.inRange_iff]
    by_cases hnonneg : 0 ≤ bytes.toInt
    · have hlt := belowSize_of_nonneg hnonneg hbelow
      exact ⟨by omega, .inr (by omega)⟩
    · obtain rfl := receiveCalls_first (h.resolve_left hnonneg) hc
      exact ⟨by simp only; omega, .inl rfl⟩

/-! ## The integrity check -/

theorem OpenFile.read_split {f f' : OpenFile} {count : Nat} {bytes : Bytes}
    (h : f.read count = (.ok bytes, f')) : bytes ++ f'.rest = f.rest := by
  unfold read at h
  split at h
  · cases h
  · next k answers hcall =>
    simp only [Prod.mk.injEq, Except.ok.injEq] at h
    obtain ⟨rfl, rfl⟩ := h
    exact List.take_append_drop k f.rest

/-- The counter and what is left of the file make up its size, as long as there is a size at all. -/
def Counted (totalBytes totalBytesProcessed : UInt64) (rest : Bytes) : Prop :=
  totalBytes.toNat = 2 ^ 64 - 1 ∨ totalBytesProcessed.toNat + rest.length = totalBytes.toNat

theorem Counted.le {totalBytes totalBytesProcessed : UInt64} {rest : Bytes}
    (h : Counted totalBytes totalBytesProcessed rest) :
    totalBytesProcessed.toNat ≤ totalBytes.toNat := by
  have hlt := totalBytesProcessed.toNat_lt
  rcases h with hmax | hsum <;> omega

theorem Counted.read {totalBytes totalBytesProcessed : UInt64} {f f' : OpenFile} {count : Nat}
    {bytes : Bytes} (h : Counted totalBytes totalBytesProcessed f.rest)
    (hread : f.read count = (.ok bytes, f')) :
    Counted totalBytes (totalBytesProcessed + .ofNat bytes.length) f'.rest := by
  refine h.imp_right fun hsum => ?_
  have hlt := totalBytes.toNat_lt
  rw [← OpenFile.read_split hread, List.length_append] at hsum
  rw [UInt64.toNat_add, UInt64.toNat_ofNat']
  omega

theorem counted_lseekEnd (file : Bytes) : Counted (lseekEnd file) 0 file := by
  unfold lseekEnd
  split
  · right
    rw [UInt64.toNat_ofNat', UInt64.toNat_zero]
    omega
  · exact .inl rfl

theorem lseekEnd_eq_zero {file : Bytes} : (lseekEnd file).toNat = 0 ↔ file = [] := by
  unfold lseekEnd
  split
  · rw [UInt64.toNat_ofNat', ← List.length_eq_zero_iff]
    omega
  · next hlarge =>
    constructor
    · rintro ⟨⟩
    · rintro rfl
      exact absurd (by decide) hlarge

theorem integrityCalls_le {totalBytes totalBytesProcessed : UInt64} {fuel : Nat} {f : OpenFile}
    {buffer : Bytes} {builder : Sha256Builder} (h : Counted totalBytes totalBytesProcessed f.rest)
    {c : BuildLineCall}
    (hc : c ∈ (integrityCalls totalBytes fuel f buffer builder totalBytesProcessed).1) :
    c.divisor = totalBytes.toNat ∧ c.numerator.toNat ≤ totalBytes.toNat := by
  induction fuel generalizing f buffer builder totalBytesProcessed with
  | zero => cases hc
  | succ fuel ih =>
    have hcall : c = ⟨totalBytesProcessed, totalBytes.toNat⟩ →
        c.divisor = totalBytes.toNat ∧ c.numerator.toNat ≤ totalBytes.toNat := by
      rintro rfl
      exact ⟨rfl, h.le⟩
    rw [integrityCalls] at hc
    split at hc
    · exact hcall (List.mem_singleton.1 hc)
    · next bytes f' hread =>
      simp only at hc
      split at hc
      · exact hcall (List.mem_singleton.1 hc)
      · rcases List.mem_cons.1 hc with hc | hc
        · exact hcall hc
        · exact ih (h.read hread) hc

/-- The loop begins with a call, whatever there is to read. -/
theorem checkCalls_head (fuel : Nat) (file : Bytes) (answers : List Answer) (buffer : Bytes) :
    ⟨0, (lseekEnd file).toNat⟩ ∈ checkCalls fuel file answers buffer := by
  unfold checkCalls
  rw [integrityCalls]
  split
  · exact .head _
  · simp only
    split <;> exact .head _

theorem checkCalls_inRange_iff (fuel : Nat) (file : Bytes) (answers : List Answer)
    (buffer : Bytes) : (∀ c ∈ checkCalls fuel file answers buffer, c.InRange) ↔ file ≠ [] := by
  constructor
  · rintro h rfl
    exact (h _ (checkCalls_head fuel [] answers buffer)).divisor rfl
  · intro hne c hc
    obtain ⟨hdivisor, hle⟩ := integrityCalls_le (counted_lseekEnd file) hc
    have hsize : (lseekEnd file).toNat ≠ 0 := fun hzero => hne (lseekEnd_eq_zero.1 hzero)
    rw [BuildLineCall.inRange_iff, hdivisor]
    exact ⟨by omega, .inr (by omega)⟩

/-- **The values passed to `BuildLine`** are in range in exactly these cases: the stream has a size
that is not negative, or does not come to the end of its first trip; and the file that is checked is
not empty. -/
theorem progress_inRange_iff (bytes : Int32) (ins outs : List Answer) (stream file : Bytes)
    (fuel : Nat) (checked : Bytes) (answers : List Answer) (buffer : Bytes) :
    ((∀ c ∈ receiveCalls bytes ins outs stream file, c.InRange) ↔
      0 ≤ bytes.toInt ∨ firstTrip ins outs stream = false) ∧
    ((∀ c ∈ checkCalls fuel checked answers buffer, c.InRange) ↔ checked ≠ []) :=
  ⟨receiveCalls_inRange_iff bytes ins outs stream file,
    checkCalls_inRange_iff fuel checked answers buffer⟩

/-- The check of an empty file divides zero by zero, and a file of 3000000000 bytes, of which the
first has come, has a negative progress. -/
theorem progress_out_of_range :
    ((∃ c ∈ checkCalls 0 [] [] (List.replicate kRecommendedBufferSize 0), c.divisor = 0) ∧
      ¬ ∀ c ∈ checkCalls 0 [] [] (List.replicate kRecommendedBufferSize 0), c.InRange) ∧
    (receiveCalls (transferBytes 3000000000) [.upTo 1] [] [0] [] =
        [⟨0, -1294967296⟩, ⟨1, -1294967296⟩] ∧
      ¬ ∀ c ∈ receiveCalls (transferBytes 3000000000) [.upTo 1] [] [0] [], c.InRange) := by
  have hsize : (transferBytes 3000000000).toInt = -1294967296 := rfl
  refine ⟨⟨⟨_, checkCalls_head 0 [] [] _, rfl⟩, ?_⟩, rfl, ?_⟩
  · rw [checkCalls_inRange_iff]
    exact not_not.2 rfl
  · rw [receiveCalls_inRange_iff, hsize]
    decide

end Netpull
