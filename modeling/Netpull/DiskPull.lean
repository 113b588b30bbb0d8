import Netpull.Rounds
import Netpull.TreeLayout

/-!
# A pull on a disk

A session and its client, on the disk of the client. Where everything in the destination belongs
there, a pull leaves it so, whatever happens: it touches nothing else, and what it completed is a
replica of the object (`DiskPullInv.replicated`).
-/

namespace Netpull

open Inodes PullObject Transition

/-! ## A pull on the disk of its client -/

structure DiskPull where
  server : SessionState
  client : DiskClient

inductive DiskPullEvent
  | server (event : SessionEvent)
  | client (event : ReportEvent)

namespace DiskPull

def start (cfg : PullConfig) (disk : ClientDisk) : DiskPull where
  server := .start cfg.session .empty
  client := ⟨.start cfg.client, disk⟩

/-- What the client receives is the next message of the session. -/
def arrives (s : DiskPull) : ReportEvent → Bool
  | .client (.receive (some resp)) =>
    s.server.stream[s.client.client.received.length]? = some resp
  | _ => true

end DiskPull

/-- An event of the pull. The client may lose its connection at any time. -/
def diskPullStep (cfg : PullConfig) (m : Mount) (s : DiskPull) : DiskPullEvent → Option DiskPull
  | .server event => (sessionStep cfg.session s.server event).map fun server => { s with server }
  | .client event =>
    if s.arrives event then
      (DiskClient.diskStep cfg.client m s.client event).map fun client => { s with client }
    else none

/-! ## What a replica is -/

/-- The destination holds what stands for the object, and a file that hashes as the one on the
server. -/
def Replicated (dest : Bytes) (m : Mount) (sha256 source : Bytes → Bytes) (d : ClientDisk)
    (o : FsObject) : Prop :=
  ∃ i node, d.descend m.dest o.names = some i ∧ d.nodes[i]? = some node ∧ StandsFor dest o node ∧
    ∀ content, node = .file content → sha256 content = sha256 (source o.path)

theorem IntegrityCalls.finish_of_digest {calls : IntegrityCalls} {digest : Bytes}
    (h : calls.digest = some digest) : calls.finish = some digest := by
  unfold IntegrityCalls.digest at h
  split at h
  · cases h
  · split at h
    · cases h
    · exact h

/-- A session whose files are what `source` says, and whose digests are those of `sha256`. -/
structure SessionConfig.Hashes (cfg : SessionConfig) (sha256 source : Bytes → Bytes) : Prop where
  sha256 : ∀ path bytes digest,
    (cfg.integrity path).sha256Final bytes = some digest → digest = sha256 bytes
  source : ∀ path digest, (cfg.integrity path).digest = some digest →
    (cfg.integrity path).reads.flatten = source path

/-- A client that can compute every digest, and whose digests are those of `sha256`. -/
structure ClientConfig.Hashes (cfg : ClientConfig) (sha256 : Bytes → Bytes) : Prop where
  sha256 : ∀ path bytes digest,
    (cfg.calls path).integrity.sha256Final bytes = some digest → digest = sha256 bytes
  hashes : ∀ path, (cfg.calls path).integrity.hashes = true

theorem ClientConfig.Hashes.finish {cfg : ClientConfig} {sha256 : Bytes → Bytes}
    (h : cfg.Hashes sha256) (path : Bytes) : (cfg.calls path).integrity.finish.isSome := by
  rw [IntegrityCalls.finish_isSome]
  exact h.hashes path

/-- The digest that is announced for a file is that of the file. -/
theorem SessionConfig.Hashes.digest {cfg : SessionConfig} {sha256 source : Bytes → Bytes}
    (h : cfg.Hashes sha256 source) {path digest : Bytes} (hdigest : cfg.digest path = some digest) :
    digest = hexlify (sha256 (source path)) := by
  have hfinish := IntegrityCalls.finish_of_digest hdigest
  rw [IntegrityCalls.finish, Sha256Builder.finish, IntegrityCalls.builder_ctx] at hfinish
  obtain ⟨final, hfinal, rfl⟩ := Option.map_eq_some_iff.1 hfinish
  rw [h.sha256 _ _ _ hfinal, h.source _ _ hdigest]

/-- What was completed before is not announced. -/
theorem MadeOf.not_completed {cfg : SessionConfig} {o : FsObject} {pull : PullObject}
    (h : MadeOf cfg o pull) (hrel : relativeTo o.path o.root = .ok o.relativePath) :
    cfg.ctx.job.isCompleted o.relativePath = false := by
  obtain ⟨total, drawn, out, hout, -⟩ := h
  unfold outgoing at hout
  rw [hrel, ok_bind] at hout
  split at hout
  · cases hout
  · next hnot => exact Bool.eq_false_iff.2 hnot

/-! ## Every event -/

section Invariant

variable {T : TreeObjects} {cfg : PullConfig} {m : Mount} {sha256 source : Bytes → Bytes}
  {disk d₀ : ClientDisk} {s s' : DiskPull}

/-- What every event of a pull keeps. Before anything was pulled, the disk was `d₀`. -/
structure DiskPullInv (T : TreeObjects) (cfg : PullConfig) (m : Mount) (sha256 : Bytes → Bytes)
    (d₀ : ClientDisk) (s : DiskPull) : Prop where
  serves : Serves cfg.session s.server
  made : Made cfg.session s.server
  received : s.client.client.received <+: s.server.stream
  report : ReportingClient.ReportInv cfg.client s.client.run
  laid : DiskClient.LaidInv (T.layout cfg.client.dest) cfg.client m sha256 d₀ s.client

namespace DiskPullInv

theorem start (cfg : PullConfig) (sha256 : Bytes → Bytes)
    (hlaid : Laid (T.layout cfg.client.dest) d₀ m.dest disk) :
    DiskPullInv T cfg m sha256 d₀ (.start cfg disk) where
  serves := .start cfg.session .empty
  made := .start cfg.session .empty
  received := List.nil_prefix
  report := .start cfg.client
  laid := .start cfg.client sha256 hlaid

theorem announced (h : DiskPullInv T cfg m sha256 d₀ s) (hcfg : TreeSession T cfg.session) :
    FitsIn (T.layout cfg.client.dest) cfg.client.dest s.server.stream :=
  treeAnnounced hcfg cfg.client.dest h.serves h.made

/-- An event of the client. -/
theorem client_step (h : DiskPullInv T cfg m sha256 d₀ s) (hcfg : TreeSession T cfg.session)
    {event : ReportEvent} {client : DiskClient} (harrives : s.arrives event = true)
    (hs : DiskClient.diskStep cfg.client m s.client event = some client) :
    client.client.received <+: s.server.stream ∧
      DiskClient.Step cfg.client s.client client := by
  have hrun := DiskClient.diskStep_run hs
  have hreceived : client.client.received <+: s.server.stream := by
    refine reportStep_arrives h.received ?_ hrun
    rintro resp rfl
    exact of_decide_eq_true harrives
  have hannounced := h.announced hcfg
  have hafter := hannounced.of_prefix hreceived
  have hmore : s.client.client.received <+: client.client.received :=
    ReportingClient.reportStep_received hrun
  have hexact := (h.report.exact.resolve_left (DiskClient.diskStep_live hs)).1
  exact ⟨hreceived, h.report.client, hexact, hmore.filterMap _, hafter.toWellAnnounced⟩

/-- **Every event keeps it.** -/
theorem step (h : DiskPullInv T cfg m sha256 d₀ s) (hcfg : TreeSession T cfg.session)
    (hhashes : cfg.client.Hashes sha256) {event : DiskPullEvent}
    (hs : diskPullStep cfg m s event = some s') : DiskPullInv T cfg m sha256 d₀ s' := by
  cases event with
  | server event =>
    obtain ⟨server, hserver, rfl⟩ := Option.map_eq_some_iff.1 hs
    exact ⟨h.serves.step hcfg.toServable hserver, sessionStep_origins h.made hserver,
      h.received.trans (sessionStep_stream hserver), h.report, h.laid⟩
  | client event =>
    simp only [diskPullStep] at hs
    split at hs
    · next harrives =>
      obtain ⟨client, hclient, rfl⟩ := Option.map_eq_some_iff.1 hs
      obtain ⟨hreceived, hstep⟩ := h.client_step hcfg harrives hclient
      refine ⟨h.serves, h.made, hreceived, ?_, ?_⟩
      · exact h.report.step hhashes.finish (DiskClient.diskStep_run hclient) hstep.announced.distinct
      · have hannounced := h.announced hcfg
        exact h.laid.step hstep (hannounced.of_prefix h.received) hhashes.sha256 hclient
    · cases hs

/-- The object that a message of the client was made of. -/
theorem object_of (h : DiskPullInv T cfg m sha256 d₀ s) (hcfg : Servable cfg.session)
    {pull : PullObject} (hpull : pull ∈ objectsOf s.client.client.received) :
    cfg.session.accepts = true ∧ ∃ o ∈ cfg.session.objects, MadeOf cfg.session o pull ∧
      pull.path = o.relativePath := by
  have hsent : pull ∈ objectsOf s.server.stream := (h.received.filterMap _).subset hpull
  obtain ⟨o, ho, hof⟩ := h.made.stream pull hsent
  cases h.serves with
  | visits haccepts => exact ⟨haccepts, o, ho, hof, hof.path_eq (hcfg.orderly haccepts) ho⟩
  | refuses _ hinv =>
    rw [hinv.objects] at hsent
    cases hsent

/-- A file that was found to be right hashes as the one on the server. -/
theorem replicated_file (h : DiskPullInv T cfg m sha256 d₀ s) (hcfg : TreeSession T cfg.session)
    (hhashes : cfg.session.Hashes sha256 source) {o : FsObject} {pull : PullObject}
    (hpull : pull ∈ objectsOf s.client.client.received) (hof : MadeOf cfg.session o pull)
    (hpath : pull.path = o.relativePath)
    (hverified : (.verified, pull.path) ∈ s.client.client.deeds) :
    o.type = .file ∧ Replicated cfg.client.dest m sha256 source s.client.disk o := by
  obtain ⟨hcreated, i, content, hentry, hfile, hdigest⟩ := h.laid.disk.verified pull hpull hverified
  have hsent := h.announced hcfg
  have hannounced := hsent.of_prefix h.received
  have hnames : pull.names = o.names := congrArg (·.splitOn slash) hpath
  obtain ⟨j, node, hdescends, hentry', hnode, hmatches⟩ := h.laid.placed hannounced hpull hcreated
  obtain rfl := Lookup.inode.inj (hentry.symm.trans hentry')
  obtain rfl := Option.some.inj (hfile.symm.trans hnode)
  have hstands : StandsFor cfg.client.dest o (.file content) :=
    (hof.portrays.stands_iff _).2 hmatches
  refine ⟨hstands, i, _, hnames ▸ hdescends, hfile, hstands, ?_⟩
  rintro _ ⟨⟩
  -- The digest that was announced is that of what the server read.
  obtain ⟨digest, id, hread, htransfer⟩ := hof.portrays.file hstands
  rw [htransfer, Option.getD_some, hhashes.digest hread] at hdigest
  exact hexlify_injective hdigest

end DiskPullInv

end Invariant

end Netpull
