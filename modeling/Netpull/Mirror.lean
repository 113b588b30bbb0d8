import Netpull.Client.Faultless
import Netpull.Client.ReportEnds
import Netpull.PullEnds
import Netpull.Resumed
import Netpull.StreamedContent

/-!
# A pull without faults

Where no call fails on either side, the connection holds and no progress line leaves its buffer, a
pull comes to its end under every schedule, however often the job was interrupted before, and what
lies in the destination is the tree itself (`pulls_mirror`): its directories, its files with what was
in them and its symlinks with their targets, and nothing else.
-/

namespace Netpull

open Inodes PullObject Transition

/-! ## A pull that is not cut short -/

/-- The client loses its connection, or a progress line leaves its buffer. -/
def DiskPullEvent.breaks : DiskPullEvent → Bool
  | .client (.client (.receive none)) | .client (.client (.overrun _ _)) => true
  | _ => false

/-- An event of a pull whose connection holds and whose progress lines stay in their buffers. -/
def steadyStep (cfg : PullConfig) (m : Mount) (s : DiskPull) (event : DiskPullEvent) :
    Option DiskPull :=
  if event.breaks then none else diskPullStep cfg m s event

namespace DiskPull

/-- The session and the client, without its reports and its disk. -/
def joint (s : DiskPull) : PullState := ⟨s.server, s.client.client, none⟩

/-- The steps that the workers of the client have left to report. -/
def left (s : DiskPull) : Nat := ReportingClient.left s.client.run.reports

end DiskPull

section Steady

variable {cfg : PullConfig} {m : Mount} {s s' : DiskPull} {event : DiskPullEvent}

theorem steadyStep_some (hs : steadyStep cfg m s event = some s') :
    event.breaks = false ∧ diskPullStep cfg m s event = some s' := by
  unfold steadyStep at hs
  split at hs
  · cases hs
  · next hkeeps => exact ⟨Bool.eq_false_iff.2 hkeeps, hs⟩

/-- The client takes its event, and it does not cut the pull short. -/
theorem steadyStep_client {event : ReportEvent}
    (hs : steadyStep cfg m s (.client event) = some s') :
    event ≠ .client (.receive none) ∧ (∀ j wsCol, event ≠ .client (.overrun j wsCol)) ∧
      s.arrives event = true ∧ s'.server = s.server ∧
      DiskClient.diskStep cfg.client m s.client event = some s'.client := by
  obtain ⟨hkeeps, hs⟩ := steadyStep_some hs
  refine ⟨?_, ?_, ?_⟩
  · rintro rfl
    cases hkeeps
  · rintro j wsCol rfl
    cases hkeeps
  · simp only [diskPullStep] at hs
    split at hs
    · next harrives =>
      obtain ⟨client, hclient, rfl⟩ := Option.map_eq_some_iff.1 hs
      exact ⟨harrives, rfl, hclient⟩
    · cases hs

/-- What comes in arrives, as nothing is cut off. -/
theorem DiskPull.incoming_joint {resp : PullResponse} :
    s.joint.incoming = some (some resp) ↔
      s.arrives (.client (.receive (some resp))) = true := by
  constructor
  · intro hin
    unfold PullState.incoming at hin
    split at hin
    · obtain ⟨resp', hget, hresp⟩ := Option.map_eq_some_iff.1 hin
      obtain rfl := Option.some.inj hresp
      exact decide_eq_true hget
    · split at hin <;> simp at hin
  · intro harrives
    have hget : s.server.stream[s.client.client.received.length]? = some resp :=
      of_decide_eq_true harrives
    have hlt : s.joint.client.received.length < s.joint.cut.getD s.joint.server.stream.length :=
      (List.getElem?_eq_some_iff.1 hget).1
    rw [PullState.incoming, if_pos hlt]
    exact congrArg (Option.map some) hget

/-- A step is one of the pull, or a worker of the client goes on with its report. -/
theorem steadyStep_joint (hs : steadyStep cfg m s event = some s') :
    (∃ e, (∀ j wsCol, e ≠ .client (.overrun j wsCol)) ∧ pullStep cfg s.joint e = some s'.joint ∧
        s'.left ≤ s.left + 2) ∨
      s'.joint = s.joint ∧ s'.left < s.left := by
  cases event with
  | server event =>
    obtain ⟨-, hs⟩ := steadyStep_some hs
    obtain ⟨server, hserver, rfl⟩ := Option.map_eq_some_iff.1 hs
    refine .inl ⟨.server event, fun _ _ => PullEvent.noConfusion, ?_, Nat.le_add_right _ _⟩
    simp only [pullStep, DiskPull.joint, hserver, Option.map_some]
  | client event =>
    obtain ⟨hkeeps, hfits, harrives, hserver, hclient⟩ := steadyStep_client hs
    rcases ReportingClient.reportStep_left (DiskClient.diskStep_run hclient) hkeeps with
      ⟨e, rfl, hstep, hleft⟩ | ⟨hsame, hleft⟩
    · refine .inl ⟨.client e, ?_, ?_, hleft⟩
      · rintro j wsCol hoverrun
        exact hfits j wsCol (congrArg ReportEvent.client (PullEvent.client.inj hoverrun))
      have hmap : (clientStep cfg.client s.joint.client e).map
          (fun client => ({ s.joint with client } : PullState)) = some s'.joint := by
        rw [show clientStep cfg.client s.joint.client e = some s'.client.client from hstep,
          Option.map_some, DiskPull.joint, DiskPull.joint, hserver]
      cases e with
      | receive resp =>
        cases resp with
        | none => exact absurd rfl hkeeps
        | some resp =>
          rw [pullStep, if_pos (DiskPull.incoming_joint.2 harrives)]
          exact hmap
      | main | pop | run | overrun => exact hmap
    · refine .inr ⟨?_, hleft⟩
      rw [DiskPull.joint, DiskPull.joint, hserver, DiskClient.client, hsame]

end Steady

/-! ## Calls that succeed -/

/-- A file that is streamed into one that is not longer, in whatever pieces. -/
structure Streams (content : Bytes) (stSize : Int64) (calls : StreamCalls) : Prop where
  opens : calls.opens = true
  pipes : calls.pipes = true
  connects : calls.connects = true
  sends : calls.sends = true
  ins : NoFail calls.ins
  outs : NoFail calls.outs
  stream : ∃ answers, NoFail answers ∧
    calls.stream = (sendfile content answers (readyBytes stSize)).2.sent
  file : calls.file.length ≤ content.length

/-- A file that is read to its end. -/
structure Reads (content : Bytes) (calls : IntegrityCalls) : Prop where
  opens : calls.opens = true
  eof : calls.eof = true
  reads : calls.reads.flatten = content

/-- No call that is made for an object fails on either side, and the object has what it takes: a
symlink has a relative target, and a file `content`, of fewer than 2^31 bytes. -/
structure FaultlessObject (cfg : PullConfig) (content : Bytes → Bytes) (o : FsObject) : Prop where
  creates : (cfg.client.calls o.relativePath).creates = true
  utimensat : (cfg.client.calls o.relativePath).metadata.utimensat = true
  fchmodat : (cfg.client.calls o.relativePath).metadata.fchmodat = true
  fchownat : (cfg.client.calls o.relativePath).metadata.fchownat = true
  link : o.type = .symlink → o.linkTarget ≠ [] ∧ isAbsolute o.linkTarget = false
  size : o.type = .file → 0 ≤ o.stat.stSize ∧
    (content o.path).length = o.stat.stSize.toNatClampNeg ∧ (content o.path).length < 2 ^ 31
  reads : o.type = .file → Reads (content o.path) (cfg.session.integrity o.path)
  streams : o.type = .file →
    Streams (content o.path) o.stat.stSize (cfg.client.calls o.relativePath).stream
  checks : o.type = .file →
    Reads (content o.path) (cfg.client.calls o.relativePath).integrity

section Works

variable {cfg : PullConfig} {content sha256 : Bytes → Bytes} {o : FsObject} {pull : PullObject}

/-- The end of the loop and the file it leaves. -/
theorem Streams.received {content : Bytes} {stSize : Int64} {calls : StreamCalls}
    (h : Streams content stSize calls) (hpos : 0 ≤ stSize)
    (hcontent : content.length = stSize.toNatClampNeg) (hsmall : content.length < 2 ^ 31) :
    (receive (transferBytes stSize) calls.ins calls.outs calls.stream calls.file).1 = .finished ∧
      (receive (transferBytes stSize) calls.ins calls.outs calls.stream calls.file).2.file =
        content := by
  have hstream : calls.stream = content := by
    obtain ⟨answers, hanswers, hstream⟩ := h.stream
    have hbytes : (readyBytes stSize).toNat = content.length :=
      (Int64.toNat_toUInt64_of_le hpos).trans hcontent.symm
    rw [hstream, (sendfile_complete hanswers hbytes.le).2, hbytes, List.take_length]
  rw [hstream]
  have hend : (receive (transferBytes stSize) calls.ins calls.outs content calls.file).1 =
      .finished := by
    have hreceived := receive_received hcontent h.ins h.outs calls.file
    exact (hreceived.of_small hpos (hcontent ▸ hsmall)).1
  refine ⟨hend, ?_⟩
  rw [receive_file hpos hcontent hsmall List.prefix_rfl hend, List.drop_eq_nil_of_le h.file,
    List.append_nil]

/-- What `Sha256Builder::Finish` says about a file. -/
theorem Reads.finish {content : Bytes} {calls : IntegrityCalls} (h : Reads content calls)
    (hsha : ∀ bytes, calls.sha256Final bytes = some (sha256 bytes)) :
    calls.finish = some (hexlify (sha256 content)) := by
  rw [IntegrityCalls.finish, Sha256Builder.finish, IntegrityCalls.builder_ctx, h.reads, hsha]
  rfl

theorem Reads.digest {content : Bytes} {calls : IntegrityCalls} (h : Reads content calls)
    (hsha : ∀ bytes, calls.sha256Final bytes = some (sha256 bytes)) :
    calls.digest = some (hexlify (sha256 content)) := by
  rw [IntegrityCalls.digest, h.opens, h.eof, h.finish hsha]
  rfl

/-- The target that a message has for a symlink is that of the symlink. -/
theorem Portrays.target (h : Portrays cfg.session o pull) (hlink : o.type = .symlink)
    (hrelative : isAbsolute o.linkTarget = false) :
    linkTarget cfg.client.dest pull.symlink = cstr o.linkTarget := by
  have hdata := h.data
  rw [objectData, if_pos hlink, symlinkData_relative hrelative] at hdata
  have hpull : pull.data = .symlink ⟨cstr o.linkTarget, false⟩ := (Except.ok.inj hdata).symm
  rw [PullObject.symlink, hpull]
  rfl

/-- **The calls for the message of a faultless object succeed.** -/
theorem FaultlessObject.works (h : FaultlessObject cfg content o)
    (hserver : ∀ bytes, (cfg.session.integrity o.path).sha256Final bytes = some (sha256 bytes))
    (hclient : ∀ bytes,
      (cfg.client.calls o.relativePath).integrity.sha256Final bytes = some (sha256 bytes))
    (hof : Portrays cfg.session o pull) (hpath : pull.path = o.relativePath)
    (hnul : cstr o.linkTarget = o.linkTarget) : cfg.client.Works pull := by
  -- What is transferred is a file, whose size and digest the message has.
  have htransfer : ∀ transfer ∈ pull.transfer, o.type = .file ∧
      transfer.bytes = transferBytes o.stat.stSize ∧
      transfer.sha256 = hexlify (sha256 (content o.path)) := by
    intro transfer hmem
    have hfile : o.type = .file := by
      by_contra hnot
      rw [hof.other hnot] at hmem
      cases hmem
    obtain ⟨digest, id, hdigest, hsome⟩ := hof.file hfile
    obtain rfl := Option.some.inj (hsome.symm.trans hmem)
    have hread := (h.reads hfile).digest hserver
    exact ⟨hfile, rfl, Option.some.inj (hdigest.symm.trans hread)⟩
  constructor
  · constructor
    · intro hfile
      obtain ⟨digest, id, -, hsome⟩ := hof.file (hof.of_type hfile)
      rw [hsome]
      rfl
    · intro hsome
      obtain ⟨transfer, hmem⟩ := Option.isSome_iff_exists.1 hsome
      rw [hof.type, (htransfer transfer hmem).1]
      rfl
  · rw [hpath]
    exact h.creates
  · rw [hpath, setMetadata, h.utimensat, h.fchmodat, h.fchownat]
    simp
  · intro hsymlink
    have hobject : o.type = .symlink := hof.of_type hsymlink
    obtain ⟨hsome, hrelative⟩ := h.link hobject
    rwa [hof.target hobject hrelative, hnul, hnul]
  all_goals
    intro hsome
    obtain ⟨transfer, hmem⟩ := Option.isSome_iff_exists.1 hsome
    obtain ⟨hfile, hbytes, hsha⟩ := htransfer transfer hmem
    obtain ⟨hpos, hlength, hsmall⟩ := h.size hfile
    have hstreams := h.streams hfile
    have hreceived := hstreams.received hpos hlength hsmall
    have hchecks := h.checks hfile
    rw [hpath]
  · rw [hmem, Option.getD_some, hbytes, StreamCalls.completes, hstreams.opens, hstreams.pipes,
      hstreams.connects, hstreams.sends, hreceived.1]
    rfl
  · rw [hmem, Option.getD_some, hbytes, hreceived.2, hchecks.reads]
  · rw [hmem, Option.getD_some, hsha, IntegrityCalls.verdict, hchecks.opens, hchecks.eof,
      hchecks.finish hclient]
    simp

end Works

/-- A pull of a job that is accepted, in which no call fails for what was not completed before. The
files that were begun before are not longer than those that are pulled. -/
structure Faultless (cfg : PullConfig) (m : Mount) (content sha256 : Bytes → Bytes)
    (disk : ClientDisk) : Prop where
  accepts : cfg.session.accepts = true
  id : cfg.session.ctx.job.id ≠ []
  serverWorkers : 0 < cfg.session.workers
  clientWorkers : 0 < cfg.client.workers
  objects : ∀ o ∈ cfg.session.unskipped, FaultlessObject cfg content o
  awaits : ∀ o ∈ cfg.session.unskipped, o.type = .file →
    DiskClient.Awaits cfg.client m disk o.relativePath
  serverSha256 : ∀ path bytes,
    (cfg.session.integrity path).sha256Final bytes = some (sha256 bytes)
  clientSha256 : ∀ path bytes,
    (cfg.client.calls path).integrity.sha256Final bytes = some (sha256 bytes)

theorem Faultless.hashes {cfg : PullConfig} {m : Mount} {content sha256 : Bytes → Bytes}
    {disk : ClientDisk} (h : Faultless cfg m content sha256 disk) : cfg.client.Hashes sha256 where
  sha256 path bytes digest hdigest :=
    (Option.some.inj ((h.clientSha256 path bytes).symm.trans hdigest)).symm
  hashes path := by
    rw [IntegrityCalls.hashes, h.clientSha256]
    rfl

theorem SessionConfig.mem_unskipped {cfg : SessionConfig} {o : FsObject} :
    o ∈ cfg.unskipped ↔
      o ∈ cfg.objects ∧ cfg.ctx.job.isCompleted o.relativePath = false := by
  rw [SessionConfig.unskipped, Netpull.unskipped, List.mem_filter, Bool.not_eq_true']

/-- What the crawler finds in a tree, of which only files were completed before. -/
structure Found (T : TreeObjects) (cfg : SessionConfig) : Prop extends TreeSession T cfg where
  named : TreeNamed cfg.objects
  first : ParentsFirst (cfg.objects.map FsObject.names)
  noNul : ∀ o ∈ cfg.objects, cstr o.linkTarget = o.linkTarget
  files : ∀ o ∈ cfg.objects, o ∉ cfg.unskipped → o.type = .file

/-- The paths of the files that are pulled. -/
def PullConfig.PullsFile (cfg : PullConfig) (path : Bytes) : Prop :=
  ∃ o ∈ cfg.session.unskipped, o.type = .file ∧ o.relativePath = path

/-! ## Every step -/

/-- What every step of a pull without faults keeps. -/
structure Steady (T : TreeObjects) (cfg : PullConfig) (m : Mount) (sha256 : Bytes → Bytes)
    (d₀ : ClientDisk) (s : DiskPull) : Prop where
  inv : DiskPullInv T cfg m sha256 d₀ s
  goes : Goes cfg s.joint
  parents : ParentsSent cfg.session s.server
  filled : DiskClient.Filled cfg.PullsFile cfg.client m s.client
  abreast : s.client.run.Abreast
  going : s.client.run.done = false
  alive : s.client.client.pc ≠ .dead

namespace Steady

variable {T : TreeObjects} {cfg : PullConfig} {m : Mount} {content sha256 : Bytes → Bytes}
  {d₀ disk : ClientDisk} {s s' : DiskPull}

theorem start (hfaultless : Faultless cfg m content sha256 disk)
    (hlaid : Laid (T.layout cfg.client.dest) d₀ m.dest disk)
    (hdest : ∃ parent entries, disk.nodes[m.dest]? = some (.dir parent entries)) :
    Steady T cfg m sha256 d₀ (.start cfg disk) where
  inv := .start cfg sha256 hlaid
  goes := .start cfg .empty
  parents := .start cfg.session .empty
  filled := .start hdest (by rintro path ⟨o, ho, hfile, rfl⟩; exact hfaultless.awaits o ho hfile)
  abreast := rfl
  going := rfl
  alive := ClientPc.noConfusion

/-- What the client has received. -/
theorem receives (h : Steady T cfg m sha256 d₀ s)
    (hfaultless : Faultless cfg m content sha256 disk) (hfound : Found T cfg.session) :
    DiskClient.Receives (T.layout cfg.client.dest) cfg.PullsFile cfg.client
      s.client.client.received := by
  have hof : ∀ pull ∈ objectsOf s.client.client.received, ∃ o ∈ cfg.session.unskipped,
      Portrays cfg.session o pull ∧ pull.path = o.relativePath := by
    intro pull hpull
    obtain ⟨haccepts, o, ho, hof, hpath⟩ := h.inv.object_of hfound.toServable hpull
    have hnot := hof.not_completed ((hfound.orderly haccepts).relative o ho)
    exact ⟨o, SessionConfig.mem_unskipped.2 ⟨ho, hnot⟩, hof.portrays, hpath⟩
  have hsent := h.inv.announced hfound.toTreeSession
  refine ⟨hsent.of_prefix h.inv.received,
    h.parents.stream.of_prefix ((h.inv.received.filterMap _).map _), ?_, ?_⟩
  · intro pull hpull
    obtain ⟨o, ho, hportrays, hpath⟩ := hof pull hpull
    exact (hfaultless.objects o ho).works (hfaultless.serverSha256 _) (hfaultless.clientSha256 _)
      hportrays hpath (hfound.noNul o (SessionConfig.mem_unskipped.1 ho).1)
  · intro pull hpull hfile
    obtain ⟨o, ho, hportrays, hpath⟩ := hof pull hpull
    exact ⟨o, ho, hportrays.of_type hfile, hpath.symm⟩

theorem exact (h : Steady T cfg m sha256 d₀ s) : s.client.client.Exact cfg.client :=
  h.goes.exact.resolve_left h.alive

/-- **Every step keeps it.** -/
theorem step (h : Steady T cfg m sha256 d₀ s) (hfaultless : Faultless cfg m content sha256 disk)
    (hfound : Found T cfg.session) {event : DiskPullEvent}
    (hs : steadyStep cfg m s event = some s') : Steady T cfg m sha256 d₀ s' := by
  obtain ⟨hgoes, halive⟩ : Goes cfg s'.joint ∧ s'.joint.client.pc ≠ .dead := by
    rcases steadyStep_joint hs with ⟨e, hfits, hstep, -⟩ | ⟨hsame, -⟩
    · refine ⟨h.goes.step hfaultless.id hfound.toServable hstep, fun hdead => ?_⟩
      obtain ⟨j, wsCol, rfl⟩ := h.goes.dies hfaultless.id hfound.toServable hstep h.alive hdead
      exact hfits j wsCol rfl
    · exact hsame ▸ ⟨h.goes, h.alive⟩
  have hinv := h.inv.step hfound.toTreeSession hfaultless.hashes (steadyStep_some hs).2
  cases event with
  | server event =>
    obtain ⟨server, hserver, rfl⟩ := Option.map_eq_some_iff.1 (steadyStep_some hs).2
    refine ⟨hinv, hgoes, ?_, h.filled, h.abreast, h.going, halive⟩
    apply sessionStep_parents h.parents (hfound.orderly hfaultless.accepts) hfound.named
      hfound.first _ hserver
    intro o ho hdirectory
    by_contra hskipped
    have hfile := hfound.files o ho fun hmem => hskipped (SessionConfig.mem_unskipped.1 hmem).2
    cases hdirectory.symm.trans hfile
  | client event =>
    obtain ⟨hkeeps, -, harrives, hserver, hclient⟩ := steadyStep_client hs
    have hrun := DiskClient.diskStep_run hclient
    have hstep := (h.inv.client_step hfound.toTreeSession harrives hclient).2
    refine ⟨hinv, hgoes, hserver ▸ h.parents, ?_, h.abreast.step hrun, ?_, halive⟩
    · exact h.filled.step h.inv.laid (h.receives hfaultless hfound) hstep halive hclient
    · rw [ReportingClient.reportStep_done hrun hkeeps]
      exact h.going

/-- A symlink that is announced has a relative target. -/
theorem relative (hfaultless : Faultless cfg m content sha256 disk) (hfound : Found T cfg.session)
    {o : FsObject} (ho : o ∈ cfg.session.objects) (hlink : o.type = .symlink) :
    isAbsolute o.linkTarget = false := by
  by_cases hunskipped : o ∈ cfg.session.unskipped
  · exact ((hfaultless.objects o hunskipped).link hlink).2
  · cases hlink.symm.trans (hfound.files o ho hunskipped)

/-- No read fails, and the session is not over before it is done. -/
theorem incoming (h : Steady T cfg m sha256 d₀ s)
    (hfaultless : Faultless cfg m content sha256 disk) (hfound : Found T cfg.session)
    (hpc : s.client.client.pc = .reading) : s.joint.incoming ≠ some none := by
  intro hin
  rcases h.goes.fails hpc hin with hcut | hends
  · cases hcut
  · rcases h.goes.pull.server.refused hends with hrefused | ⟨o, ho, hlink, habs⟩
    · exact absurd (hfaultless.accepts.symm.trans hrefused) Bool.noConfusion
    · exact absurd (habs.symm.trans (relative hfaultless hfound ho hlink)) Bool.noConfusion

/-- Until the client has ended something can happen. -/
theorem progress (h : Steady T cfg m sha256 d₀ s) (hfaultless : Faultless cfg m content sha256 disk)
    (hfound : Found T cfg.session) (hlive : s.client.client.pc.isOver = false) :
    ∃ event s', steadyStep cfg m s event = some s' := by
  obtain ⟨event, joint, hnotlost, hfits, hs⟩ :=
    h.goes.progress hfaultless.serverWorkers hfaultless.clientWorkers hlive
  cases event with
  | lose k => exact absurd rfl (hnotlost k)
  | server event =>
    obtain ⟨server, hserver, -⟩ := Option.map_eq_some_iff.1 hs
    have hserver : sessionStep cfg.session s.server event = some server := hserver
    refine ⟨.server event, { s with server }, ?_⟩
    simp only [steadyStep, DiskPullEvent.breaks, diskPullStep, hserver]
    rfl
  | client e =>
    -- The client can go on, so the client that reports can, and the disk lets it.
    obtain ⟨client, hclient, harrives⟩ : ∃ client, clientStep cfg.client s.client.client e =
        some client ∧ e ≠ .receive none ∧ s.arrives (.client e) = true := by
      cases e with
      | receive resp =>
        simp only [pullStep] at hs
        split at hs
        · next hin =>
          obtain ⟨client, hclient, -⟩ := Option.map_eq_some_iff.1 hs
          have hreading : s.client.client.pc = .reading := reading_of_receive hclient
          cases resp with
          | none => exact absurd hin (h.incoming hfaultless hfound hreading)
          | some resp =>
            exact ⟨client, hclient, by simp, DiskPull.incoming_joint.1 hin⟩
        · cases hs
      | main | pop i | run j | overrun j wsCol =>
        obtain ⟨client, hclient, -⟩ := Option.map_eq_some_iff.1 hs
        exact ⟨client, hclient, ClientEvent.noConfusion, rfl⟩
    obtain ⟨hkeeps, harrives⟩ := harrives
    have hfits : ∀ j wsCol, e ≠ .overrun j wsCol := by
      rintro j wsCol rfl
      exact hfits j wsCol rfl
    obtain ⟨event, run, hnotlost, hsame, hrun⟩ :=
      ReportingClient.reportStep_goes h.abreast h.going hclient hkeeps hfits
    have harrives : s.arrives event = true := by
      cases event with
      | client e' => exact hsame e' rfl ▸ harrives
      | connect j connects => rfl
      | send j => rfl
    obtain ⟨d, hd⟩ := h.filled.diskAfter_isSome h.inv.laid (h.receives hfaultless hfound)
      h.inv.report.client h.exact event
    have hbreaks : DiskPullEvent.breaks (.client event) = false := by
      unfold DiskPullEvent.breaks
      split
      · next heq => exact absurd (DiskPullEvent.client.inj heq) hnotlost
      · next j wsCol heq => exact absurd (hsame _ (DiskPullEvent.client.inj heq)).symm (hfits j wsCol)
      · rfl
    refine ⟨.client event, { s with client := ⟨run, d⟩ }, ?_⟩
    have hdisk : DiskClient.diskStep cfg.client m s.client event = some ⟨run, d⟩ := by
      rw [DiskClient.diskStep, show DiskClient.diskAfter cfg.client m s.client.run.client
        s.client.disk event = some d from hd, Option.bind_some, hrun, Option.map_some]
    rw [steadyStep, hbreaks, if_neg Bool.false_ne_true, diskPullStep, if_pos harrives, hdisk]
    rfl

/-! ## The end -/

def measure (cfg : PullConfig) (s : DiskPull) : Nat := 3 * s.joint.measure cfg + s.left

/-- A step of the pull lets two steps of reports come at most. -/
theorem measure_step (h : Steady T cfg m sha256 d₀ s)
    (hfaultless : Faultless cfg m content sha256 disk) (hfound : Found T cfg.session)
    {event : DiskPullEvent} (hs : steadyStep cfg m s event = some s') :
    measure cfg s' < measure cfg s := by
  unfold measure
  rcases steadyStep_joint hs with ⟨e, -, hstep, hleft⟩ | ⟨hsame, hleft⟩
  · have hless := h.goes.measure hfaultless.id hfound.toServable hstep
    omega
  · rw [hsame]
    omega

/-- A client that has ended reports nothing. -/
theorem reported (h : Steady T cfg m sha256 d₀ s) (hfaultless : Faultless cfg m content sha256 disk)
    (hfound : Found T cfg.session) (hover : s.client.client.pc.isOver = true) :
    s.client.client.pc = .reported ∅ := by
  have hended := h.goes.ended hfound.toServable hover
  unfold Ended at hended
  split at hended
  · next incomplete hpc =>
    obtain ⟨-, hreceived, hreports⟩ := hended
    have hpc : s.client.client.pc = .reported incomplete := hpc
    rw [hpc]
    congr 1
    refine Finset.eq_empty_of_forall_notMem fun path hpath => ?_
    obtain ⟨pull, hpull, -, hfails⟩ := (hreports path).1 hpath
    have hreceived : s.client.client.received = s.server.stream := hreceived
    have hworks := (h.receives hfaultless hfound).works pull (hreceived ▸ hpull)
    exact hworks.not_fails ((ClientConfig.fails_iff (hfaultless.hashes.finish _)).2 hfails)
  · next hfailed =>
    rcases hended with hcut | hrefused | ⟨o, ho, hlink, habs⟩
    · cases hcut
    · exact absurd (hfaultless.accepts.symm.trans hrefused) Bool.noConfusion
    · exact absurd (habs.symm.trans (relative hfaultless hfound ho hlink)) Bool.noConfusion
  · next hdead => exact absurd hdead h.alive
  · exact hended.elim

end Steady

/-! ## What is mirrored -/

/-- What lies in the destination is the object. -/
def Copies (content : Bytes → Bytes) (o : FsObject) : Inodes.Node Bytes Bytes Bytes → Prop
  | .dir _ _ => o.type = .directory
  | .file bytes => o.type = .file ∧ bytes = content o.path
  | .symlink target => o.type = .symlink ∧ target = o.linkTarget

/-- What a round leaves in a destination that was empty on the disk `d₀`: every directory, file and
symlink of the tree is an object of its session, and there is a copy of each object at its own path,
or a file with the hash of the object if it was completed before, and nothing else. -/
structure Mirrors (cfg : RoundsConfig) (fs : FileSystem) (session : SessionConfig)
    (content sha256 : Bytes → Bytes) (d₀ d : ClientDisk) : Prop where
  found : ∀ node ∈ cfg.tree.nodes [], ∀ o, fs.objectOf session.visitRoot node = some o →
    o ∈ session.objects ∧ o.names = node.names
  copied : ∀ o ∈ session.unskipped, ∃ i node, d.descend cfg.mount.dest o.names = some i ∧
    d.nodes[i]? = some node ∧ Copies content o node
  skipped : ∀ o ∈ session.objects, o ∉ session.unskipped → o.type = .file ∧ ∃ i bytes,
    d.descend cfg.mount.dest o.names = some i ∧ d.nodes[i]? = some (.file bytes) ∧
      sha256 bytes = sha256 (content o.path)
  nothingElse : ∀ ns i, ns ≠ [] → d.descend cfg.mount.dest ns = some i →
    ∃ node ∈ cfg.tree.nodes [], node.names = ns
  kept : ∀ i < d₀.nodes.length, i ≠ cfg.mount.dest → d.nodes[i]? = d₀.nodes[i]?

theorem Steady.copied {T : TreeObjects} {cfg : PullConfig} {m : Mount}
    {content sha256 : Bytes → Bytes} {d₀ disk : ClientDisk} {s : DiskPull}
    (h : Steady T cfg m sha256 d₀ s) (hfaultless : Faultless cfg m content sha256 disk)
    (hfound : Found T cfg.session) (hreported : s.client.client.pc = .reported ∅) {o : FsObject}
    (ho : o ∈ cfg.session.unskipped) :
    ∃ i node, s.client.disk.descend m.dest o.names = some i ∧
      s.client.disk.nodes[i]? = some node ∧ Copies content o node := by
  obtain ⟨hmem, hnot⟩ := SessionConfig.mem_unskipped.1 ho
  have hobject := hfaultless.objects o ho
  have hpulled : Pulled s.client.client o := by
    rcases h.goes.pull.pulled hreported hfaultless.hashes.hashes hmem with
      hpulled | ⟨hfile, hnone⟩ | ⟨-, hskipped⟩
    · exact hpulled
    · have hdigest := (hobject.reads hfile).digest (hfaultless.serverSha256 o.path)
      exact absurd (hdigest.symm.trans hnone) (by simp)
    · exact absurd (hskipped.symm.trans hnot) Bool.noConfusion
  obtain ⟨pull, hpull, hpath, -, hcompleted⟩ := hpulled
  obtain ⟨haccepts, o', ho', hof, hpath'⟩ := h.inv.object_of hfound.toServable hpull
  obtain rfl := List.inj_on_of_nodup_map (hfound.orderly haccepts).distinct ho' hmem
    (hpath'.symm.trans hpath)
  have hcreated : (.created, pull.path) ∈ s.client.client.deeds := by
    unfold Completed at hcompleted
    split at hcompleted
    · exact (h.inv.laid.disk.verified pull hpull hcompleted.2).1
    · exact hcompleted.1
  have hannounced := h.inv.announced hfound.toTreeSession
  have hreceived := hannounced.of_prefix h.inv.received
  obtain ⟨i, node, hdescends, hentry, hnode, hmatches⟩ := h.inv.laid.placed hreceived hpull hcreated
  have hnames : pull.names = o'.names := congrArg (·.splitOn slash) hpath
  refine ⟨i, node, hnames ▸ hdescends, hnode, ?_⟩
  cases node with
  | dir parent entries =>
    have hdirectory : pull.type = .kTypeDirectory := hmatches
    exact hof.portrays.of_type hdirectory
  | file bytes =>
    have hfile : pull.type = .kTypeFile := hmatches
    have hofile : o'.type = .file := hof.portrays.of_type hfile
    obtain ⟨k, hentry', hfile'⟩ := h.filled.content pull hpull hfile hcreated
    obtain rfl := Lookup.inode.inj (hentry.symm.trans hentry')
    obtain rfl := Node.file.inj (Option.some.inj (hnode.symm.trans hfile'))
    rw [Completed, if_pos hfile] at hcompleted
    refine ⟨hofile, ?_⟩
    rw [DiskClient.expected, if_pos hcompleted.1, hpath]
    exact (hobject.checks hofile).reads
  | symlink target =>
    obtain ⟨hsymlink, htarget⟩ := hmatches
    have holink : o'.type = .symlink := hof.portrays.of_type hsymlink
    refine ⟨holink, ?_⟩
    rw [htarget, hof.portrays.target holink (hobject.link holink).2, hfound.noNul o' hmem,
      hfound.noNul o' hmem]

/-- `readlinkat` gives a C string. -/
theorem FileSystem.cstr_linkTarget {fs : FileSystem} {root : Bytes} {node : Node} {o : FsObject}
    (h : fs.objectOf root node = some o) : cstr o.linkTarget = o.linkTarget := by
  obtain ⟨type, -, rfl⟩ := Option.map_eq_some_iff.1 h
  simp only
  split
  · exact List.takeWhile_idem
  · rfl

/-- A crawl of which no call fails finds the whole tree. -/
theorem onFileSystem_all (fs : FileSystem) (ctx : CrawlContext) {root : Bytes}
    (habs : isAbsolute root = true) (hres : isResolved root = true) {fuel : Nat}
    (hfuel : fs.tree.dirCount ≤ fuel) (integrity : Bytes → IntegrityCalls) (workers : Nat)
    (haccepts : (SessionConfig.onFileSystem fs fuel ctx root integrity workers).accepts = true)
    (hcrawl : fs.AllSucceed) {node : Node} (hnode : node ∈ fs.tree.nodes []) {o : FsObject}
    (hobject : fs.objectOf (SessionConfig.onFileSystem fs fuel ctx root integrity
      workers).visitRoot node = some o) :
    o ∈ (SessionConfig.onFileSystem fs fuel ctx root integrity workers).objects ∧
      o.names = node.names := by
  obtain ⟨l, hl⟩ := location_of_accepts fs ctx habs hres integrity workers haccepts
  have hobject : fs.objectOf l.path node = some o := by
    rw [hl]
    exact hobject
  refine ⟨?_, objectOf_names hnode hobject⟩
  have hfound : o ∈ (found fs.kernel fuel l.path).1 :=
    (FileSystem.mem_found_iff hfuel).2
      ⟨node, hnode, fs.unhindered_of_allSucceed hcrawl node.names, hobject⟩
  rw [hl] at hfound
  exact hfound

section Rounds

variable {T : TreeObjects} {cfg : RoundsConfig} {content sha256 : Bytes → Bytes}
  {d₀ disk : ClientDisk} {s : ResumedPull}

/-- What a round finds can be pulled. -/
theorem ResumedInv.found (h : ResumedInv T cfg sha256 content d₀ s)
    (hcfg : TreeSession T (cfg.pullOf s.round s.completedPaths).session)
    (habs : isAbsolute cfg.root = true) (hres : isResolved cfg.root = true)
    (haccepts : (cfg.pullOf s.round s.completedPaths).session.accepts = true) :
    Found T (cfg.pullOf s.round s.completedPaths).session where
  toTreeSession := hcfg
  named := onFileSystem_treeNamed _ _ habs hres (cfg.rounds s.round).fuel_le _ _ haccepts
  first := onFileSystem_parentsFirst _ _ habs hres (cfg.rounds s.round).fuel_le _ _ haccepts
  noNul := by
    intro o ho
    obtain ⟨l, hobjects⟩ := onFileSystem_objects _ _ habs hres _ _ haccepts
    have ho : o ∈ (Netpull.found _ _ l.path).1 := hobjects ▸ ho
    obtain ⟨node, -, -, hobject⟩ := (FileSystem.mem_found_iff (cfg.rounds s.round).fuel_le).1 ho
    exact FileSystem.cstr_linkTarget hobject
  files := by
    intro o ho hnot
    refine (h.skipped hcfg haccepts ho ?_).1
    by_contra hskipped
    exact hnot (SessionConfig.mem_unskipped.2 ⟨ho, Bool.eq_false_iff.2 hskipped⟩)

/-- What every step of a round without faults keeps. -/
structure SteadyRound (T : TreeObjects) (cfg : RoundsConfig) (sha256 content : Bytes → Bytes)
    (d₀ : ClientDisk) (round : Nat) (completedPaths : GuardedSet Bytes) (s : DiskPull) : Prop where
  steady : Steady T (cfg.pullOf round completedPaths) cfg.mount sha256 d₀ s
  rounds : ResumedInv T cfg sha256 content d₀ ⟨round, completedPaths, s⟩

theorem SteadyRound.step {round : Nat} {completedPaths : GuardedSet Bytes} {s s' : DiskPull}
    (h : SteadyRound T cfg sha256 content d₀ round completedPaths s)
    (hfaultless : Faultless (cfg.pullOf round completedPaths) cfg.mount content sha256 disk)
    (hfound : Found T (cfg.pullOf round completedPaths).session)
    (hkeeps : ∀ {s s' event}, ResumedInv T cfg sha256 content d₀ s →
      resumedStep cfg s event = some s' → ResumedInv T cfg sha256 content d₀ s')
    {event : DiskPullEvent}
    (hs : steadyStep (cfg.pullOf round completedPaths) cfg.mount s event = some s') :
    SteadyRound T cfg sha256 content d₀ round completedPaths s' where
  steady := h.steady.step hfaultless hfound hs
  rounds := by
    have hstep : resumedStep cfg ⟨round, completedPaths, s⟩ (.pull event) =
        some ⟨round, completedPaths, s'⟩ := by
      rw [resumedStep, (steadyStep_some hs).2]
      rfl
    exact hkeeps h.rounds hstep

end Rounds

/-- **A pull without faults mirrors the tree**, however often it was interrupted before. Take any
number of rounds of a job into a destination that was empty at first, each of them cut off anywhere,
and a round after them in which no call of the crawl or for an object fails, no connection is lost
and no progress line leaves its buffer, of a tree whose files have fewer than 2^31 bytes and whose
symlinks have relative targets. For every order in which the threads of the server, of the client and
of its reports take their steps, and in whatever pieces the files are streamed, this round comes to
its end. The client then reports nothing, every file, directory and symlink of the tree is an object
of the round, and the destination holds a copy of each object that it pulled, a file with the right
hash for each that was completed before, and nothing else. -/
theorem pulls_mirror (cfg : RoundsConfig) (habs : isAbsolute cfg.root = true)
    (hres : isResolved cfg.root = true) (content sha256 : Bytes → Bytes)
    (hserver : ∀ round, (cfg.pullOf round .empty).session.Hashes sha256 content)
    (hclient : ∀ round, (cfg.rounds round).client.Hashes sha256) {d₀ disk : ClientDisk}
    {parent : Nat} (hempty : d₀.nodes[cfg.mount.dest]? = some (.dir parent []))
    {events : List ResumedEvent} {round : Nat} {completedPaths : GuardedSet Bytes}
    (hrun : script (resumedStep cfg) (cfg.begin 0 .empty d₀) events =
      some (cfg.begin round completedPaths disk))
    (hcrawl : (cfg.rounds round).fs.AllSucceed)
    (hfaultless : Faultless (cfg.pullOf round completedPaths) cfg.mount content sha256 disk) :
    Inevitably (steadyStep (cfg.pullOf round completedPaths) cfg.mount)
      (fun s => s.client.client.pc = .reported ∅ ∧
        Mirrors cfg (cfg.rounds round).fs (cfg.pullOf round completedPaths).session content sha256
          d₀ s.client.disk)
      (.start (cfg.pullOf round completedPaths) disk) := by
  obtain ⟨T, hnodes, hcfg, hstep, hruns⟩ :=
    exists_resumedInv cfg habs hres sha256 content hserver hclient hempty
  have hbegin := hruns hrun
  have hfound : Found T (cfg.pullOf round completedPaths).session :=
    hbegin.found (hcfg _ _) habs hres hfaultless.accepts
  have hlaid := hbegin.pull.laid.laid
  -- The destination is a directory still.
  have hdest : ∃ parent entries, disk.nodes[cfg.mount.dest]? = some (.dir parent entries) := by
    obtain ⟨node, hnode, hgrows⟩ := hlaid.grows _ _ hempty
    cases node with
    | dir parent' entries => exact ⟨parent', entries, hnode⟩
    | file content | symlink target => exact hgrows.elim
  have hover : Inevitably (steadyStep (cfg.pullOf round completedPaths) cfg.mount)
      (fun s => SteadyRound T cfg sha256 content d₀ round completedPaths s ∧
        s.client.client.pc.isOver = true)
      (.start (cfg.pullOf round completedPaths) disk) := by
    apply inevitably_of_measure (Steady.measure (cfg.pullOf round completedPaths))
      (fun s event s' (h : SteadyRound T cfg sha256 content d₀ round completedPaths s) hs =>
        h.step hfaultless hfound hstep hs) _ _ ⟨.start hfaultless hlaid hdest, hbegin⟩
    · intro s h hnotover
      apply h.steady.progress hfaultless hfound
      exact Bool.eq_false_iff.2 fun hover => hnotover ⟨h, hover⟩
    · exact fun s event s' h hs => h.steady.measure_step hfaultless hfound hs
  refine hover.mono ?_
  rintro s ⟨⟨hsteady, hinv⟩, hover⟩
  have hreported := hsteady.reported hfaultless hfound hover
  refine ⟨hreported, ?_, fun o ho => hsteady.copied hfaultless hfound hreported ho, ?_,
    hinv.nothingElse hnodes, hinv.pull.laid.laid.kept⟩
  · intro node hnode o hobject
    rw [← (cfg.rounds round).tree_eq] at hnode
    exact onFileSystem_all _ _ habs hres (cfg.rounds round).fuel_le _ _ hfaultless.accepts hcrawl
      hnode hobject
  intro o ho hnot
  have hskipped : (cfg.pullOf round completedPaths).session.ctx.job.isCompleted
      o.relativePath = true := by
    by_contra hnotskipped
    exact hnot (SessionConfig.mem_unskipped.2 ⟨ho, Bool.eq_false_iff.2 hnotskipped⟩)
  obtain ⟨hfile, i, node, hdescends, hnode, hstands, hhash⟩ :=
    hinv.skipped (hcfg _ _) hfaultless.accepts ho hskipped
  refine ⟨hfile, i, ?_⟩
  cases node with
  | dir parent entries => cases hfile.symm.trans hstands
  | symlink target => cases hfile.symm.trans hstands.1
  | file bytes => exact ⟨bytes, hdescends, hnode, hhash bytes rfl⟩

/-! ## A file that was cut off -/

/-- The stream of `hello` is cut off after two bytes in the first round, and none is later. -/
def cutOffClient (round : Nat) : ClientConfig :=
  { hashingClient with calls := fun path =>
      { hashingClient.calls path with
        stream := ⟨true, true, true, true, [.upTo 5], [.upTo 5],
          if round = 0 then text "he" else text "hello", if round = 0 then [] else text "he"⟩ } }

def cutOffRounds : RoundsConfig :=
  { oneFileRounds with rounds := fun round =>
      { oneFileRounds.rounds round with client := cutOffClient round, dest_eq := rfl } }

/-- The client has the directory and the first two bytes of the file. -/
def cutOff : List ResumedEvent :=
  oneFileRound (cutOffRounds.pullOf 0 .empty) oneFileSession fun sent =>
    ((sent.take 2).flatMap reading ++
      (.receive sent[2]? :: List.replicate 4 .main ++ [.pop 0, .run 0] : List ClientEvent)).map
        .client

/-- The disk that the second client finds. -/
def cutOffDisk : ClientDisk :=
  ⟨[.dir 0 [(text "dest", 1)], .dir 0 [(text "d", 2)], .dir 1 [(text "f", 3)], .file (text "he")]⟩

theorem faultless_cutOff : Faultless (cutOffRounds.pullOf 1 .empty) abcMount
    (fun _ => text "hello") helloSha256 cutOffDisk where
  accepts := by decide
  id := by decide
  serverWorkers := by decide
  clientWorkers := by decide
  objects := by
    intro o ho
    have hshape : ∀ o ∈ (cutOffRounds.pullOf 1 .empty).session.unskipped,
        o.type ≠ .symlink ∧ (o.type = .file → o.stat.stSize = 5) := by decide
    obtain ⟨hnolink, hsize⟩ := hshape o ho
    have hnofail : NoFail [.upTo 5] := by simp [NoFail]
    have hstream : (sendfile (text "hello") [.upTo 5] (readyBytes 5)).2.sent = text "hello" := rfl
    refine ⟨rfl, rfl, rfl, rfl, ?_, ?_, fun _ => ⟨rfl, rfl, rfl⟩, ?_, fun _ => ⟨rfl, rfl, rfl⟩⟩
    · exact fun hlink => absurd hlink hnolink
    · intro hfile
      rw [hsize hfile]
      decide
    · intro hfile
      rw [hsize hfile]
      exact ⟨rfl, rfl, rfl, rfl, hnofail, hnofail, ⟨_, hnofail, hstream.symm⟩,
        show (text "he").length ≤ (text "hello").length by decide⟩
  awaits := by
    intro o ho hfile
    have hpath : ∀ o ∈ (cutOffRounds.pullOf 1 .empty).session.unskipped, o.type = .file →
        o.relativePath = text "d/f" := by decide
    rw [hpath o ho hfile]
    exact (rfl : cutOffDisk.nodes[3]? = some (.file (text "he")))
  serverSha256 _ _ := rfl
  clientSha256 _ _ := rfl

theorem pulls_mirror_cutOff :
    Inevitably (steadyStep (cutOffRounds.pullOf 1 .empty) abcMount)
      (fun s => s.client.client.pc = .reported ∅ ∧
        Mirrors cutOffRounds oneFile (cutOffRounds.pullOf 1 .empty).session (fun _ => text "hello")
          helloSha256 emptyDest s.client.disk)
      (.start (cutOffRounds.pullOf 1 .empty) cutOffDisk) := by
  have hcut : (script (resumedStep cutOffRounds) (cutOffRounds.begin 0 .empty emptyDest)
      cutOff).map (fun s => (s.round, s.pull.client.disk)) = some (0, cutOffDisk) := by
    decide +kernel
  obtain ⟨s, hrun, hs⟩ := Option.map_eq_some_iff.1 hcut
  obtain ⟨hround, hdisk⟩ := Prod.mk.inj hs
  have hresume : script (resumedStep cutOffRounds) (cutOffRounds.begin 0 .empty emptyDest)
      (cutOff ++ [.resume .empty]) = some (cutOffRounds.begin 1 .empty cutOffDisk) := by
    rw [script_append, hrun, Option.bind_some, script, resumedStep, if_pos, hround, hdisk]
    · rfl
    · rintro path ⟨⟩
  have hsha : ∀ bytes digest, helloHashed.sha256Final bytes = some digest →
      digest = helloSha256 bytes := fun _ _ hdigest => (Option.some.inj hdigest).symm
  exact pulls_mirror cutOffRounds rfl rfl (fun _ => text "hello") helloSha256
    (fun _ => ⟨fun _ => hsha, fun _ _ _ => rfl⟩) (fun _ => ⟨fun _ => hsha, fun _ => rfl⟩)
    (show emptyDest.nodes[abcMount.dest]? = some (.dir 0 []) from rfl) hresume
    (fun _ => ⟨rfl, rfl, rfl, rfl⟩) faultless_cutOff

end Netpull
