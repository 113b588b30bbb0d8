import Netpull.Crypto
import Netpull.Network.Socket

/-!
# The loops of the integrity tasks

The server hashes a file through an `ifstream`, the client with `read`; both pass an array to
`Sha256Builder::Update` that may hold bytes of an earlier read. `absorbs_file` says that each hashes
the file and nothing else, however the file is split into reads.
-/

namespace Netpull

def kRecommendedBufferSize : Nat := 64 * 1024

/-- An open file: what is left of it, and the answers to the calls of `read`. -/
structure OpenFile where
  rest : Bytes
  answers : List Answer
deriving DecidableEq, Repr

/-- `read`. -/
def OpenFile.read (f : OpenFile) (count : Nat) : Except Errno Bytes × OpenFile :=
  match nextCall f.answers count f.rest.length with
  | (.error errno, answers) => (.error errno, { f with answers := answers })
  | (.ok k, answers) => (.ok (f.rest.take k), ⟨f.rest.drop k, answers⟩)

/-- An array after a read has put some bytes at its front. -/
def fillFront (array bytes : Bytes) : Bytes := bytes ++ array.drop bytes.length

/-! ## The server -/

/-- `std::filebuf::xsgetn` of a size beyond its own buffer: `read` until the size is reached or the
file ends. -/
def xsgetn : Nat → OpenFile → Nat → Except Errno Bytes × OpenFile
  | 0, f, _ => (.ok [], f)
  | fuel + 1, f, size =>
    if size = 0 then (.ok [], f)
    else
      match f.read size with
      | (.error errno, f) => (.error errno, f)
      | (.ok bytes, f) =>
        if bytes = [] then (.ok [], f)
        else
          match xsgetn fuel f (size - bytes.length) with
          | (.error errno, f) => (.error errno, f)
          | (.ok more, f) => (.ok (bytes ++ more), f)

/-- A `std::ifstream` with its state bits; `fail` is what its conversion to `bool` tests. -/
structure Ifstream where
  file : OpenFile
  eof : Bool := false
  fail : Bool := false
deriving DecidableEq, Repr

/-- `std::istream::read`: what is written to the front of the array, as long as `gcount`. -/
def Ifstream.read (is : Ifstream) (size : Nat) : Bytes × Ifstream :=
  if is.fail then ([], is)
  else
    match xsgetn size is.file size with
    | (.error _, file) => ([], { is with file := file, fail := true })
    | (.ok bytes, file) =>
      if bytes.length < size then (bytes, ⟨file, true, true⟩) else (bytes, { is with file := file })

/-- What the server's task works with in its loop. -/
structure ServerHash where
  is : Ifstream
  buffer : Bytes
  builder : Sha256Builder := .init

/-- The body of the server's loop. -/
def ServerHash.trip (s : ServerHash) : ServerHash :=
  let (bytes, is) := s.is.read s.buffer.length
  let buffer := fillFront s.buffer bytes
  { is := is
    buffer := buffer
    builder := if bytes.length ≠ 0 then s.builder.updateArray buffer bytes.length else s.builder }

/-- The server's loop; `alive` answers the successive questions whether the connection is alive. The
number of questions asked is returned too. -/
def ServerHash.loop (alive : Nat → Bool) : Nat → Nat → ServerHash → Option (Nat × ServerHash)
  | 0, _, _ => none
  | fuel + 1, asked, s =>
    if s.is.fail then some (asked, s)
    else if alive asked then loop alive fuel (asked + 1) s.trip
    else some (asked + 1, s)

/-- The builder with which the server's task comes to `Finish`. -/
def serverAbsorbs (alive : Nat → Bool) (fuel : Nat) (buffer : Bytes) (file : OpenFile) :
    Option Sha256Builder := do
  let (asked, s) ← ServerHash.loop alive fuel 0 { is := { file := file }, buffer := buffer }
  if !alive asked then none
  else if !s.is.eof then none
  else some s.builder

/-! ## The client -/

/-- The client's loop; its array lives as long as the loop. -/
def clientLoop : Nat → OpenFile → Bytes → Sha256Builder → Option Sha256Builder
  | 0, _, _, _ => none
  | fuel + 1, f, buffer, builder =>
    match f.read buffer.length with
    | (.error _, _) => none
    | (.ok bytes, f) =>
      if bytes = [] then some builder
      else
        let buffer := fillFront buffer bytes
        clientLoop fuel f buffer (builder.updateArray buffer bytes.length)

/-- The builder with which the client's task comes to `Finish`. -/
def clientAbsorbs (fuel : Nat) (buffer : Bytes) (file : OpenFile) : Option Sha256Builder :=
  clientLoop fuel file buffer .init

/-! ## What a read takes -/

theorem take_fillFront (array bytes : Bytes) : (fillFront array bytes).take bytes.length = bytes :=
  List.take_left

theorem length_fillFront {array bytes : Bytes} (h : bytes.length ≤ array.length) :
    (fillFront array bytes).length = array.length := by
  rw [fillFront, List.length_append, List.length_drop]
  omega

/-- Of the array, no more is hashed than the last read has put there. -/
theorem updateArray_fillFront (b : Sha256Builder) {array bytes : Bytes} (h : bytes ≠ []) :
    b.updateArray (fillFront array bytes) bytes.length = b.update bytes := by
  have hlen : bytes.length ≠ 0 := fun hzero => h (List.length_eq_zero_iff.1 hzero)
  rw [Sha256Builder.updateArray, if_neg hlen, take_fillFront]

/-- What was read and what is left make up the file; nothing is read only at its end. -/
theorem OpenFile.read_ok {f f' : OpenFile} {count : Nat} {bytes : Bytes} (hcount : 0 < count)
    (h : f.read count = (.ok bytes, f')) :
    bytes ++ f'.rest = f.rest ∧ bytes.length ≤ count ∧ (bytes = [] → f.rest = []) := by
  unfold read at h
  split at h
  · cases h
  · next k answers hcall =>
    obtain ⟨hwanted, havailable⟩ := nextCall_le hcall
    have hpos := nextCall_pos hcall hcount
    simp only [Prod.mk.injEq, Except.ok.injEq] at h
    obtain ⟨rfl, rfl⟩ := h
    refine ⟨List.take_append_drop k f.rest, by rw [List.length_take]; omega, fun hnil => ?_⟩
    rw [← List.length_eq_zero_iff, List.length_take] at hnil
    rw [← List.length_eq_zero_iff]
    omega

theorem OpenFile.read_noFail {f : OpenFile} (h : NoFail f.answers) (count : Nat) :
    ∃ bytes f', f.read count = (.ok bytes, f') ∧ NoFail f'.answers := by
  obtain ⟨k, answers, hcall, hrest, _⟩ := nextCall_eq h count f.rest.length
  exact ⟨f.rest.take k, ⟨f.rest.drop k, answers⟩, by rw [read, hcall], hrest⟩

/-- The stream buffer reads as much as is asked for, or the file to its end. -/
theorem xsgetn_ok {fuel size : Nat} {f f' : OpenFile} {bytes : Bytes} (hfuel : size ≤ fuel)
    (h : xsgetn fuel f size = (.ok bytes, f')) :
    bytes ++ f'.rest = f.rest ∧ bytes.length ≤ size ∧ (bytes.length < size → f'.rest = []) := by
  induction fuel generalizing f size bytes with
  | zero =>
    simp only [xsgetn, Prod.mk.injEq, Except.ok.injEq] at h
    obtain ⟨rfl, rfl⟩ := h
    exact ⟨rfl, Nat.zero_le _, fun hlt => absurd hlt (by rw [List.length_nil]; omega)⟩
  | succ fuel ih =>
    rw [xsgetn] at h
    split at h
    · next hzero =>
      simp only [Prod.mk.injEq, Except.ok.injEq] at h
      obtain ⟨rfl, rfl⟩ := h
      exact ⟨rfl, Nat.zero_le _, fun hlt => absurd hlt (by rw [List.length_nil]; omega)⟩
    · next hpos =>
      split at h
      · cases h
      · next part f₁ hread =>
        obtain ⟨hpart, hle, hend⟩ := OpenFile.read_ok (Nat.pos_of_ne_zero hpos) hread
        split at h
        · next hnil =>
          simp only [Prod.mk.injEq, Except.ok.injEq] at h
          obtain ⟨rfl, rfl⟩ := h
          rw [hnil, List.nil_append] at hpart
          exact ⟨hpart, Nat.zero_le _, fun _ => hpart ▸ hend hnil⟩
        · next hne =>
          split at h
          · cases h
          · next more f₂ hmore =>
            have hpartpos := List.length_pos_iff.2 hne
            simp only [Prod.mk.injEq, Except.ok.injEq] at h
            obtain ⟨rfl, rfl⟩ := h
            obtain ⟨hsum, hle', hend'⟩ := ih (by omega) hmore
            rw [List.append_assoc, hsum, List.length_append]
            exact ⟨hpart, by omega, fun hlt => hend' (by omega)⟩

theorem xsgetn_noFail {fuel : Nat} (size : Nat) {f : OpenFile} (h : NoFail f.answers) :
    ∃ bytes f', xsgetn fuel f size = (.ok bytes, f') ∧ NoFail f'.answers := by
  induction fuel generalizing f size with
  | zero => exact ⟨[], f, rfl, h⟩
  | succ fuel ih =>
    rw [xsgetn]
    split
    · exact ⟨[], f, rfl, h⟩
    · obtain ⟨part, f₁, hread, h₁⟩ := OpenFile.read_noFail h size
      obtain ⟨more, f₂, hmore, h₂⟩ := ih (size - part.length) h₁
      simp only [hread, hmore]
      split
      · exact ⟨[], f₁, rfl, h₁⟩
      · exact ⟨part ++ more, f₂, rfl, h₂⟩

/-! ## The loops -/

/-- The stream is not past the end of the file before it is at it, and unless reading has failed, what
was hashed and what is left make up the file. -/
structure Absorbing (content : Bytes) (s : ServerHash) : Prop where
  buffer : 0 < s.buffer.length
  ended : s.is.eof = true → s.is.fail = true ∧ s.is.file.rest = []
  whole : s.is.fail = s.is.eof → s.builder.ctx ++ s.is.file.rest = content

/-- A trip hashes what it reads. -/
theorem Absorbing.trip {content : Bytes} {s : ServerHash} (h : Absorbing content s)
    (hfail : s.is.fail = false) : Absorbing content s.trip := by
  have heof : s.is.eof = false := by
    rw [Bool.eq_false_iff]
    exact fun heof => absurd (h.ended heof).1 (by rw [hfail]; decide)
  have hwhole := h.whole (by rw [hfail, heof])
  have hbuffer := h.buffer
  unfold ServerHash.trip Ifstream.read
  rw [hfail]
  cases hread : xsgetn s.buffer.length s.is.file s.buffer.length with
  | mk result file =>
    cases result with
    | error errno => exact ⟨hbuffer, fun h => absurd h (by simp [heof]), fun h => by simp [heof] at h⟩
    | ok bytes =>
      obtain ⟨hsum, hle, hend⟩ := xsgetn_ok (Nat.le_refl _) hread
      have hlen := length_fillFront hle
      have hctx : (if bytes.length ≠ 0 then
          s.builder.updateArray (fillFront s.buffer bytes) bytes.length else s.builder).ctx =
          s.builder.ctx ++ bytes := by
        split
        · next hne =>
          rw [updateArray_fillFront s.builder fun hnil => hne (by rw [hnil]; rfl)]
          rfl
        · next hzero =>
          rw [List.length_eq_zero_iff.1 (not_not.1 hzero), List.append_nil]
      have hnew : s.builder.ctx ++ bytes ++ file.rest = content := by
        rw [List.append_assoc, hsum, hwhole]
      simp only [Bool.false_eq_true, if_false]
      split
      · next hlt => exact ⟨hlen ▸ hbuffer, fun _ => ⟨rfl, hend hlt⟩, fun _ => hctx ▸ hnew⟩
      · exact ⟨hlen ▸ hbuffer, fun h => absurd h (by simp [heof]), fun _ => hctx ▸ hnew⟩

theorem Absorbing.loop {content : Bytes} {alive : Nat → Bool} {fuel asked asked' : Nat}
    {s s' : ServerHash} (h : Absorbing content s)
    (hloop : ServerHash.loop alive fuel asked s = some (asked', s')) : Absorbing content s' := by
  induction fuel generalizing asked s with
  | zero => cases hloop
  | succ fuel ih =>
    rw [ServerHash.loop] at hloop
    split at hloop
    · simp only [Option.some.injEq, Prod.mk.injEq] at hloop
      exact hloop.2 ▸ h
    · next hfail =>
      split at hloop
      · exact ih (h.trip (Bool.not_eq_true _ ▸ hfail)) hloop
      · simp only [Option.some.injEq, Prod.mk.injEq] at hloop
        exact hloop.2 ▸ h

/-- If no read fails, a trip comes to the end of the file or leaves less of it. -/
theorem trip_noFail {s : ServerHash} (hbuffer : 0 < s.buffer.length) (hfail : s.is.fail = false)
    (h : NoFail s.is.file.answers) :
    (s.trip.is.fail = true ∧ s.trip.is.eof = true) ∨
      s.trip.is.fail = false ∧ NoFail s.trip.is.file.answers ∧ 0 < s.trip.buffer.length ∧
        s.trip.is.file.rest.length < s.is.file.rest.length := by
  obtain ⟨bytes, file, hread, hfile⟩ := xsgetn_noFail s.buffer.length h
  obtain ⟨hsum, hle, _⟩ := xsgetn_ok (Nat.le_refl s.buffer.length) hread
  have hlen := length_fillFront hle
  have hsplit := congrArg List.length hsum
  rw [List.length_append] at hsplit
  unfold ServerHash.trip Ifstream.read
  simp only [hfail, hread, Bool.false_eq_true, if_false]
  split
  · exact .inl ⟨rfl, rfl⟩
  · exact .inr ⟨rfl, hfile, hlen ▸ hbuffer, by simp only; omega⟩

/-- If no read fails and the connection stays alive, the server's loop comes to the end of the
file. -/
theorem loop_noFail {alive : Nat → Bool} (halive : ∀ i, alive i = true) {fuel : Nat} (asked : Nat)
    {s : ServerHash} (hbuffer : 0 < s.buffer.length) (hfail : s.is.fail = false)
    (h : NoFail s.is.file.answers) (hfuel : s.is.file.rest.length + 2 ≤ fuel) :
    ∃ asked' s', ServerHash.loop alive fuel asked s = some (asked', s') ∧ s'.is.eof = true := by
  induction fuel generalizing asked s with
  | zero => omega
  | succ fuel ih =>
    rw [ServerHash.loop, if_neg (by rw [hfail]; decide), if_pos (halive asked)]
    rcases trip_noFail hbuffer hfail h with ⟨hfail', heof⟩ | ⟨hfail', hanswers, hbuffer', hlt⟩
    · obtain ⟨fuel, rfl⟩ := Nat.exists_eq_add_one.2 (show 0 < fuel by omega)
      exact ⟨asked + 1, s.trip, by rw [ServerHash.loop, if_pos hfail'], heof⟩
    · exact ih (asked + 1) hbuffer' hfail' hanswers (by omega)

theorem serverAbsorbs_noFail {alive : Nat → Bool} (halive : ∀ i, alive i = true) {fuel : Nat}
    {buffer : Bytes} {file : OpenFile} (hbuffer : 0 < buffer.length) (h : NoFail file.answers)
    (hfuel : file.rest.length + 2 ≤ fuel) :
    ∃ b, serverAbsorbs alive fuel buffer file = some b := by
  obtain ⟨asked, s, hloop, heof⟩ := loop_noFail halive 0
    (s := { is := { file := file }, buffer := buffer }) hbuffer rfl h hfuel
  refine ⟨s.builder, Option.bind_eq_some_iff.2 ⟨(asked, s), hloop, ?_⟩⟩
  simp only [halive, heof]
  rfl

/-- The server's loop has absorbed the file when it has come to its end. -/
theorem serverAbsorbs_some {alive : Nat → Bool} {fuel : Nat} {buffer : Bytes} {file : OpenFile}
    {b : Sha256Builder} (hbuffer : 0 < buffer.length)
    (h : serverAbsorbs alive fuel buffer file = some b) : b.ctx = file.rest := by
  obtain ⟨⟨asked, s⟩, hloop, h⟩ := Option.bind_eq_some_iff.1 h
  have hinit : Absorbing file.rest { is := { file := file }, buffer := buffer } :=
    ⟨hbuffer, (nomatch ·), fun _ => rfl⟩
  have hs := hinit.loop hloop
  simp only at h
  split at h
  · cases h
  · split at h
    · cases h
    · next heof =>
      have heof : s.is.eof = true := by simpa using heof
      obtain ⟨hfail, hrest⟩ := hs.ended heof
      have hwhole := hs.whole (hfail.trans heof.symm)
      rw [hrest, List.append_nil] at hwhole
      rw [← Option.some.inj h, hwhole]

/-- So has the client's. -/
theorem clientLoop_some {fuel : Nat} {f : OpenFile} {buffer : Bytes} {builder b : Sha256Builder}
    (hbuffer : 0 < buffer.length) (h : clientLoop fuel f buffer builder = some b) :
    b.ctx = builder.ctx ++ f.rest := by
  induction fuel generalizing f buffer builder with
  | zero => cases h
  | succ fuel ih =>
    rw [clientLoop] at h
    split at h
    · cases h
    · next bytes f' hread =>
      obtain ⟨hsum, hle, hend⟩ := OpenFile.read_ok hbuffer hread
      split at h
      · next hnil => rw [← Option.some.inj h, hend hnil, List.append_nil]
      · next hne =>
        have hlen := length_fillFront hle
        have hrest := ih (hlen ▸ hbuffer) h
        rw [updateArray_fillFront builder hne] at hrest
        rw [hrest, ← hsum, ← List.append_assoc]
        rfl

theorem clientLoop_noFail {fuel : Nat} {f : OpenFile} {buffer : Bytes} {builder : Sha256Builder}
    (hbuffer : 0 < buffer.length) (h : NoFail f.answers) (hfuel : f.rest.length < fuel) :
    ∃ b, clientLoop fuel f buffer builder = some b := by
  induction fuel generalizing f buffer builder with
  | zero => omega
  | succ fuel ih =>
    obtain ⟨bytes, f', hread, hf'⟩ := OpenFile.read_noFail h buffer.length
    obtain ⟨hsum, hle, hend⟩ := OpenFile.read_ok hbuffer hread
    simp only [clientLoop, hread]
    split
    · exact ⟨builder, rfl⟩
    · next hne =>
      have hlen := length_fillFront hle
      have hpos := List.length_pos_iff.2 hne
      have hsplit := congrArg List.length hsum
      rw [List.length_append] at hsplit
      exact ih (hlen ▸ hbuffer) hf' (by omega)

/-- What `IntegrityCalls` says of reads that make up the file is what the loops come to. -/
theorem builder_eq_of_ctx {calls : IntegrityCalls} {file : OpenFile} {b : Sha256Builder}
    (hreads : calls.reads.flatten = file.rest) (hctx : b.ctx = file.rest) : calls.builder = b := by
  have hcalls := calls.builder_ctx
  rw [hreads, ← hctx] at hcalls
  cases b
  exact congrArg Sha256Builder.mk hcalls

theorem builder_eq_of_serverAbsorbs {alive : Nat → Bool} {fuel : Nat} {buffer : Bytes}
    {file : OpenFile} {b : Sha256Builder} (hbuffer : 0 < buffer.length)
    (h : serverAbsorbs alive fuel buffer file = some b) {calls : IntegrityCalls}
    (hreads : calls.reads.flatten = file.rest) : calls.builder = b :=
  builder_eq_of_ctx hreads (serverAbsorbs_some hbuffer h)

theorem builder_eq_of_clientAbsorbs {fuel : Nat} {buffer : Bytes} {file : OpenFile}
    {b : Sha256Builder} (hbuffer : 0 < buffer.length) (h : clientAbsorbs fuel buffer file = some b)
    {calls : IntegrityCalls} (hreads : calls.reads.flatten = file.rest) : calls.builder = b :=
  builder_eq_of_ctx hreads (clientLoop_some hbuffer h)

/-- **Both loops hash the file**, and the texts of the two digests are equal exactly if the digests
are. The arrays hold anything when the loops begin. -/
theorem absorbs_file (alive : Nat → Bool) (fuel fuel' : Nat) {buffer buffer' : Bytes}
    (hbuffer : buffer.length = kRecommendedBufferSize)
    (hbuffer' : buffer'.length = kRecommendedBufferSize) (file file' : OpenFile)
    (sha256Final : Bytes → Option Bytes) :
    (∀ b, serverAbsorbs alive fuel buffer file = some b → b.ctx = file.rest) ∧
    ((∀ i, alive i = true) → NoFail file.answers → file.rest.length + 2 ≤ fuel →
      ∃ b, serverAbsorbs alive fuel buffer file = some b) ∧
    (∀ b, clientAbsorbs fuel' buffer' file' = some b → b.ctx = file'.rest) ∧
    (NoFail file'.answers → file'.rest.length < fuel' →
      ∃ b, clientAbsorbs fuel' buffer' file' = some b) ∧
    (∀ b b' hex hex', serverAbsorbs alive fuel buffer file = some b →
      clientAbsorbs fuel' buffer' file' = some b' → b.finish sha256Final = some hex →
      b'.finish sha256Final = some hex' →
      (hex = hex' ↔ sha256Final file.rest = sha256Final file'.rest)) := by
  have hpos : 0 < buffer.length := hbuffer ▸ Nat.zero_lt_succ _
  have hpos' : 0 < buffer'.length := hbuffer' ▸ Nat.zero_lt_succ _
  have hserver : ∀ b, serverAbsorbs alive fuel buffer file = some b → b.ctx = file.rest :=
    fun b h => serverAbsorbs_some hpos h
  have hclient : ∀ b, clientAbsorbs fuel' buffer' file' = some b → b.ctx = file'.rest :=
    fun b h => clientLoop_some hpos' h
  refine ⟨hserver, fun halive h hfuel => serverAbsorbs_noFail halive hpos h hfuel, hclient,
    fun h hfuel => clientLoop_noFail hpos' h hfuel, ?_⟩
  intro b b' hex hex' hb hb' hhex hhex'
  rw [Sha256Builder.finish, hserver b hb] at hhex
  rw [Sha256Builder.finish, hclient b' hb'] at hhex'
  obtain ⟨digest, hdigest, rfl⟩ := Option.map_eq_some_iff.1 hhex
  obtain ⟨digest', hdigest', rfl⟩ := Option.map_eq_some_iff.1 hhex'
  rw [hdigest, hdigest', Option.some_inj]
  exact ⟨hexlify_injective, congrArg hexlify⟩

/-- `abc` in reads of one byte and of two on the server, and an empty file on the client. -/
theorem absorbs_file_abc :
    let buffer := List.replicate kRecommendedBufferSize 0
    let sha256 : Bytes → Option Bytes := fun bytes =>
      if bytes = text "abc" then some abcDigest else if bytes = [] then some emptyDigest else none
    ∃ b b', serverAbsorbs (fun _ => true) 5 buffer ⟨text "abc", [.upTo 1, .upTo 2]⟩ = some b ∧
      clientAbsorbs 1 buffer ⟨[], []⟩ = some b' ∧ b.ctx = text "abc" ∧ b'.ctx = [] ∧
      b.finish sha256 = some (hexlify abcDigest) ∧ b'.finish sha256 = some (hexlify emptyDigest) ∧
      hexlify abcDigest ≠ hexlify emptyDigest := by
  intro buffer sha256
  have hbuffer : buffer.length = kRecommendedBufferSize := List.length_replicate
  have hnone : NoFail [.upTo 1, .upTo 2] := by simp [NoFail]
  obtain ⟨hserver, hserver', hclient, hclient', htexts⟩ :=
    absorbs_file (fun _ => true) 5 1 hbuffer hbuffer ⟨text "abc", [.upTo 1, .upTo 2]⟩ ⟨[], []⟩ sha256
  obtain ⟨b, hb⟩ := hserver' (fun _ => rfl) hnone (by decide)
  obtain ⟨b', hb'⟩ := hclient' (by simp [NoFail]) (by decide)
  have hctx := hserver b hb
  have hctx' := hclient b' hb'
  have hhex : b.finish sha256 = some (hexlify abcDigest) := by
    rw [Sha256Builder.finish, hctx]
    rfl
  have hhex' : b'.finish sha256 = some (hexlify emptyDigest) := by
    rw [Sha256Builder.finish, hctx']
    rfl
  refine ⟨b, b', hb, hb', hctx, hctx', hhex, hhex', fun heq => ?_⟩
  have hsame := (htexts b b' _ _ hb hb' hhex hhex').1 heq
  revert hsame
  decide

end Netpull
