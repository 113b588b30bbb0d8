import Netpull.Client.PullInvariant
import Netpull.Server.Finished
import Netpull.Server.SessionEnds

/-!
# From the tree to the destination

A session of the server and its client, joined by their main connection: the client reads, in their
order, the messages that the session sends, and may lose the connection at any time. What the server
does for a file goes unreported if it fails, so a client that reports nothing has pulled everything
exactly if no such failure occurs (`pull_complete_iff`).
-/

namespace Netpull

open PullObject Transition

structure PullConfig where
  session : SessionConfig
  client : ClientConfig

structure PullState where
  server : SessionState
  client : ClientState
  /-- The number of messages that can be read, if the connection was lost or a read fails. -/
  cut : Option Nat

def PullState.start (cfg : PullConfig) (readyFiles : ReadyFilesMap) : PullState where
  server := .start cfg.session readyFiles
  client := .start cfg.client
  cut := none

/-- The manager thread is gone, and with it the server's end of the connection. -/
def ManagerPc.isOver : ManagerPc → Bool
  | .done | .rejected | .dead => true
  | _ => false

/-- What a read of the client comes to, unless it blocks: the next message that arrives, or a
failure. -/
def PullState.incoming (s : PullState) : Option (Option PullResponse) :=
  if s.client.received.length < s.cut.getD s.server.stream.length then
    s.server.stream[s.client.received.length]?.map some
  else if s.cut.isSome || s.server.pc.isOver then some none
  else none

/-- The events of a pull. After `lose k` only the first `k` messages can be read: the connection is
lost, or protobuf does not take the next one, as one with a name that is not UTF-8. -/
inductive PullEvent
  | server (event : SessionEvent)
  | client (event : ClientEvent)
  | lose (k : Nat)
deriving DecidableEq

/-- An event of a pull. What the server sends on a lost connection does not arrive. -/
def pullStep (cfg : PullConfig) (s : PullState) : PullEvent → Option PullState
  | .server event => (sessionStep cfg.session s.server event).map fun server => { s with server }
  | .client (.receive resp) =>
    if s.incoming = some resp then
      (clientStep cfg.client s.client (.receive resp)).map fun client => { s with client }
    else none
  | .client event => (clientStep cfg.client s.client event).map fun client => { s with client }
  | .lose k =>
    if s.cut = none ∧ s.client.received.length ≤ k ∧ k ≤ s.server.stream.length then
      some { s with cut := some k }
    else none

/-- An object is completed in the destination directory: a file is streamed and its digest found to
be right, a directory or symlink is created and has its metadata. -/
def Completed (deeds : List (Deed × Bytes)) (pull : PullObject) : Prop :=
  if pull.type = .kTypeFile then (.streamed, pull.path) ∈ deeds ∧ (.verified, pull.path) ∈ deeds
  else (.created, pull.path) ∈ deeds ∧ (.settled, pull.path) ∈ deeds

/-- Every object the crawler handled and did not skip was received and completed, so every object
that `Finished` counts. -/
structure PulledCompletely (cfg : PullConfig) (s : PullState) : Prop where
  objects : ∀ o ∈ cfg.session.unskipped, ∃ pull ∈ objectsOf s.client.received,
    pull.path = o.relativePath ∧ pull.type = o.type.pullType ∧ Completed s.client.deeds pull
  numbers : ∀ total, .finished total ∈ s.client.received →
    ∀ n : Int, 1 ≤ n → n ≤ total.toInt → ∃ pull ∈ objectsOf s.client.received,
      pull.number.toInt = n ∧ Completed s.client.deeds pull

/-- The server can open every file and read it to its end, and both sides can compute its digest. -/
def TasksSucceed (cfg : PullConfig) : Prop :=
  ∀ o ∈ cfg.session.unskipped, o.type = .file →
    (cfg.session.integrity o.path).opens = true ∧ (cfg.session.integrity o.path).eof = true ∧
      (cfg.session.integrity o.path).hashes = true ∧
      (cfg.client.calls o.relativePath).integrity.hashes = true

instance (cfg : PullConfig) : Decidable (TasksSucceed cfg) :=
  inferInstanceAs (Decidable (∀ o ∈ cfg.session.unskipped, _ → _))

/-! ## What arrives -/

section Invariant

variable {cfg : PullConfig} {s s' : PullState}

/-- What every event of a pull keeps, if the events of the server keep `Inv`. -/
structure PullInv (cfg : PullConfig) (Inv : SessionState → Prop) (s : PullState) : Prop where
  server : Inv s.server
  client : ClientInv cfg.client s.client
  received : s.client.received <+: s.server.stream

/-- A message that is coming in continues what was received. -/
theorem PullState.incoming_some {resp : PullResponse}
    (harrived : s.client.received <+: s.server.stream)
    (h : s.incoming = some (some resp)) : s.client.received ++ [resp] <+: s.server.stream := by
  unfold incoming at h
  split at h
  · obtain ⟨resp', hget, hresp⟩ := Option.map_eq_some_iff.1 h
    obtain rfl := Option.some.inj hresp
    obtain ⟨rest, hrest⟩ := harrived
    rw [← hrest, List.getElem?_append_right (Nat.le_refl _), Nat.sub_self] at hget
    obtain ⟨rest, rfl⟩ : ∃ rest', rest = resp' :: rest' := by
      cases rest with
      | nil => cases hget
      | cons resp rest => exact ⟨rest, congrArg (· :: rest) (Option.some.inj hget)⟩
    exact ⟨rest, by rw [← hrest, List.append_assoc]; rfl⟩
  · split at h <;> simp at h

theorem PullInv.client_step {Inv : SessionState → Prop}
    (hdistinct : ∀ s, Inv s → ((objectsOf s.stream).map (·.path)).Nodup) (h : PullInv cfg Inv s)
    {event : ClientEvent} (hevent : ∀ resp, event = .receive resp → s.incoming = some resp)
    {client : ClientState} (hs : clientStep cfg.client s.client event = some client) :
    PullInv cfg Inv { s with client } := by
  have hreceived : (objectsOf s.client.received).Sublist (objectsOf s.server.stream) :=
    h.received.sublist.filterMap _
  refine ⟨h.server, h.client.step ((hdistinct _ h.server).sublist (hreceived.map _)) hs, ?_⟩
  rcases clientStep_received hs with hsame | ⟨resp, hresp, hmore⟩
  · exact hsame ▸ h.received
  · exact hmore ▸ PullState.incoming_some h.received (hevent _ hresp)

/-- An event of a pull. -/
theorem PullInv.step {Inv : SessionState → Prop}
    (hserver : ∀ s event s', Inv s → sessionStep cfg.session s event = some s' → Inv s')
    (hdistinct : ∀ s, Inv s → ((objectsOf s.stream).map (·.path)).Nodup) (h : PullInv cfg Inv s)
    {event : PullEvent} (hs : pullStep cfg s event = some s') : PullInv cfg Inv s' := by
  cases event with
  | server event =>
    obtain ⟨server, hserver', rfl⟩ := Option.map_eq_some_iff.1 hs
    exact ⟨hserver _ _ _ h.server hserver', h.client,
      h.received.trans (sessionStep_stream hserver')⟩
  | client event =>
    cases event with
    | receive resp =>
      simp only [pullStep] at hs
      split at hs
      · next hincoming =>
        obtain ⟨client, hclient, rfl⟩ := Option.map_eq_some_iff.1 hs
        refine h.client_step hdistinct ?_ hclient
        intro resp hresp
        cases hresp
        exact hincoming
      · cases hs
    | _ =>
      obtain ⟨client, hclient, rfl⟩ := Option.map_eq_some_iff.1 hs
      exact h.client_step hdistinct (fun _ => ClientEvent.noConfusion) hclient
  | lose k =>
    simp only [pullStep] at hs
    split at hs
    · obtain rfl := Option.some.inj hs
      exact ⟨h.server, h.client, h.received⟩
    · cases hs

theorem PullInv.run {Inv : SessionState → Prop}
    (hserver : ∀ s event s', Inv s → sessionStep cfg.session s event = some s' → Inv s')
    (hdistinct : ∀ s, Inv s → ((objectsOf s.stream).map (·.path)).Nodup)
    {readyFiles : ReadyFilesMap} (hstart : Inv (.start cfg.session readyFiles))
    {schedule : List PullEvent}
    (hrun : script (pullStep cfg) (.start cfg readyFiles) schedule = some s) :
    PullInv cfg Inv s := by
  refine script_invariant (fun _ _ _ h hs => h.step hserver hdistinct hs) ?_ hrun
  exact ⟨hstart, .start, List.nil_prefix⟩

end Invariant

/-! ## Pulls that report nothing -/

section Completeness

variable {cfg : PullConfig} {s : PullState} {seen : List FsObject} {handled : List Outgoing}
  {pulls : List PullObject}

theorem DigestsCompared.hashes {cfg : ClientConfig} {deeds : List (Deed × Bytes)} {path : Bytes}
    (h : DigestsCompared cfg deeds) (hverified : (.verified, path) ∈ deeds) :
    (cfg.calls path).integrity.hashes = true := by
  rw [← IntegrityCalls.finish_isSome]
  exact h.verified path hverified

/-- A settled object is completed, if the digest of a file can be computed. -/
theorem Settled.completed {cfg : ClientConfig} {deeds : List (Deed × Bytes)} {pull : PullObject}
    (h : Settled deeds pull) (hcompared : DigestsCompared cfg deeds)
    (htransfer : pull.type = .kTypeFile ↔ pull.transfer.isSome)
    (hhashes : pull.type = .kTypeFile → (cfg.calls pull.path).integrity.hashes = true) :
    Completed deeds pull := by
  unfold Completed
  split
  · next hfile =>
    rw [Settled, deedsFor, if_pos (htransfer.1 hfile)] at h
    have hchecked : (.checked, pull.path) ∈ deeds := h .checked (by decide)
    refine ⟨h .streamed (by decide), ?_⟩
    rcases hcompared.checked pull.path hchecked with hverified | hfinish
    · exact hverified
    · have hsome := hhashes hfile
      rw [← IntegrityCalls.finish_isSome, hfinish] at hsome
      cases hsome
  · next hfile =>
    rw [Settled, deedsFor, if_neg fun hsome => hfile (htransfer.2 hsome)] at h
    exact ⟨h .created (by decide), h .settled (by decide)⟩

/-- A pull that was complete needed the tasks to succeed. -/
theorem PulledCompletely.tasksSucceed (hcomplete : PulledCompletely cfg s)
    (horderly : Orderly cfg.session.objects)
    (hserver : SessionInv cfg.session s.server seen handled pulls)
    (hclient : ClientInv cfg.client s.client) (hreceived : objectsOf s.client.received = pulls) :
    TasksSucceed cfg := by
  intro o ho hfile
  obtain ⟨pull, hpull, hpath, htype, hcompleted⟩ := hcomplete.objects o ho
  have hkind : pull.type = .kTypeFile := by rw [htype, hfile, FsObject.Type.pullType]
  rw [Completed, if_pos hkind] at hcompleted
  have hhashes := hclient.compared.hashes hcompleted.2
  -- The item that was sent is that of `o`, whose digest was therefore computed.
  obtain ⟨out, hout, hmessage⟩ := hserver.sent_handled (hreceived ▸ hpull)
  obtain ⟨o', ho', hannounces⟩ := hserver.object_of hout
  have hsame : o'.relativePath = o.relativePath := by
    rw [← hannounces.path, ← (Outgoing.message_some hmessage).1, hpath]
  have hmem : o' ∈ cfg.session.objects :=
    hserver.seen_prefix.subset (List.mem_filter.1 ho').1
  obtain rfl := List.inj_on_of_nodup_map horderly.distinct hmem (List.mem_filter.1 ho).1 hsame
  have hdigest : (cfg.session.digest o'.path).isSome := by
    cases out with
    | send pull => exact absurd hfile (hannounces.sends pull rfl).1
    | submit id ready pull =>
      obtain ⟨-, hready, -⟩ := hannounces.submits id ready pull rfl
      obtain ⟨digest, hdigest, -⟩ := Option.map_eq_some_iff.1 hmessage
      rw [← hready]
      exact Option.isSome_of_eq_some hdigest
  rw [SessionConfig.digest, IntegrityCalls.digest_isSome, Bool.and_eq_true, Bool.and_eq_true]
    at hdigest
  exact ⟨hdigest.1.1, hdigest.1.2, hdigest.2, hpath ▸ hhashes⟩

/-- If the tasks succeed, every file has a digest. -/
theorem TasksSucceed.digest (h : TasksSucceed cfg) :
    ∀ o ∈ cfg.session.unskipped, o.type = .file → (cfg.session.digest o.path).isSome := by
  intro o ho hfile
  obtain ⟨hopens, heof, hhashes, -⟩ := h o ho hfile
  rw [SessionConfig.digest, IntegrityCalls.digest_isSome, hopens, heof, hhashes]
  rfl

/-- If the tasks succeed, a pull of which everything was received and settled is complete. -/
theorem TasksSucceed.pulledCompletely (hsucceed : TasksSucceed cfg)
    (hserver : SessionInv cfg.session s.server seen handled pulls) (hdone : s.server.pc = .done)
    (hclient : ClientInv cfg.client s.client) (hreceived : s.client.received = s.server.stream)
    (hsettled : ∀ pull ∈ pulls, Settled s.client.deeds pull) : PulledCompletely cfg s := by
  have hobjects : objectsOf s.client.received = pulls := hreceived ▸ hserver.objectsOf_stream
  obtain ⟨hunskipped, -⟩ := hserver.announced_all hdone
  -- What was sent for an item was completed.
  have hcompleted : ∀ {o out}, o ∈ unskipped cfg.session.ctx seen → Announces o out →
      out ∈ handled → ∃ pull ∈ objectsOf s.client.received,
        pull.path = out.pull.path ∧ pull.type = out.pull.type ∧
          pull.number = out.pull.number ∧ Completed s.client.deeds pull := by
    intro o out ho hannounces hout
    rw [← hunskipped] at ho
    obtain ⟨pull, hpull, hmessage⟩ := hserver.sent_all hdone hsucceed.digest ho hannounces hout
    obtain ⟨hpath, htype, hnumber⟩ := Outgoing.message_some hmessage
    refine ⟨pull, hobjects ▸ hpull, hpath, htype, hnumber, ?_⟩
    apply (hsettled pull hpull).completed hclient.compared (hserver.transfers pull hpull)
    intro hfile
    have hofile : o.type = .file := hannounces.file.1 (htype ▸ hfile)
    rw [hpath, hannounces.path]
    exact (hsucceed o ho hofile).2.2.2
  constructor
  · intro o ho
    rw [hunskipped] at ho
    obtain ⟨out, hout, hannounces⟩ := hserver.item_of ho
    obtain ⟨pull, hpull, hpath, htype, -, hdone⟩ := hcompleted ho hannounces hout
    exact ⟨pull, hpull, hpath.trans hannounces.path, htype.trans hannounces.type, hdone⟩
  · intro total htotal n hn hn'
    obtain ⟨-, rfl⟩ := hserver.finished_sent (hreceived ▸ htotal)
    obtain ⟨out, hout, hnumber⟩ := hserver.numbered hn hn'
    obtain ⟨o, ho, hannounces⟩ := hserver.object_of hout
    obtain ⟨pull, hpull, -, -, hsame, hdone⟩ := hcompleted ho hannounces hout
    exact ⟨pull, hpull, by rw [hsame, hnumber], hdone⟩

/-- If the client reports nothing, it has received everything and every object is settled. -/
theorem PullInv.reported {Inv : SessionState → Prop} (h : PullInv cfg Inv s)
    (hserver : SessionInv cfg.session s.server seen handled pulls)
    (hreported : s.client.pc = .reported ∅) :
    s.server.pc = .done ∧ s.client.received = s.server.stream ∧
      ∀ pull ∈ pulls, Settled s.client.deeds pull := by
  obtain ⟨total, htotal⟩ := h.client.finished (.inr ⟨∅, hreported⟩)
  have hreceived := hserver.received_all h.received htotal
  refine ⟨(hserver.finished_sent (hreceived ▸ htotal)).1, hreceived, ?_⟩
  intro pull hpull
  rw [← hserver.objectsOf_stream, ← hreceived] at hpull
  have hempty : s.client.toComplete.pull = ∅ := (h.client.reported ∅ hreported).symm
  rcases h.client.listed (by simp [hreported]) pull hpull with hmem | hinsert | hsettled
  · exact absurd (hempty ▸ hmem) (Finset.notMem_empty pull.path)
  · rw [hreported] at hinsert
    cases hinsert
  · exact hsettled

/-- **End-to-end completeness.** For every tree, every set of paths that were completed before and
every schedule of the threads of server and client, whatever their tasks come to and whenever the
connection is lost: when a client has ended without reporting a path, the pull was complete exactly
if the server could open and read every file and both sides could compute its digest. A directory or
a symlink counts as created if something has its name already. -/
theorem pull_complete_iff (fs : FileSystem) (ctx : CrawlContext) {root : Bytes}
    (habs : isAbsolute root = true) (hres : isResolved root = true) {fuel : Nat}
    (hfuel : fs.tree.dirCount ≤ fuel) (integrity : Bytes → IntegrityCalls) (workers : Nat)
    (client : ClientConfig) (readyFiles : ReadyFilesMap) {schedule : List PullEvent}
    {s : PullState} :
    let cfg : PullConfig := ⟨.onFileSystem fs fuel ctx root integrity workers, client⟩
    script (pullStep cfg) (.start cfg readyFiles) schedule = some s → s.client.pc = .reported ∅ →
      (PulledCompletely cfg s ↔ TasksSucceed cfg) := by
  intro cfg hrun hreported
  cases haccepts : cfg.session.accepts with
  | true =>
    have horderly : Orderly cfg.session.objects := orderly_of_accepts fs habs hres hfuel haccepts
    let Inv : SessionState → Prop := fun s =>
      ∃ seen handled pulls, SessionInv cfg.session s seen handled pulls
    have hstep : ∀ s event s', Inv s → sessionStep cfg.session s event = some s' → Inv s' := by
      intro s event s' hinv hs
      obtain ⟨seen, handled, pulls, hinv⟩ := hinv
      exact hinv.step horderly hs
    have hdistinct : ∀ s, Inv s → ((objectsOf s.stream).map (·.path)).Nodup := by
      intro s hinv
      obtain ⟨seen, handled, pulls, hinv⟩ := hinv
      rw [hinv.objectsOf_stream]
      exact hinv.distinctPaths horderly
    have hpull := PullInv.run hstep hdistinct ⟨[], [], [], .start cfg.session readyFiles⟩ hrun
    obtain ⟨seen, handled, pulls, hserver⟩ := hpull.server
    obtain ⟨hdone, hreceived, hsettled⟩ := hpull.reported hserver hreported
    constructor
    · intro hcomplete
      have hobjects : objectsOf s.client.received = pulls := hreceived ▸ hserver.objectsOf_stream
      exact hcomplete.tasksSucceed horderly hserver hpull.client hobjects
    · intro hsucceed
      exact hsucceed.pulledCompletely hserver hdone hpull.client hreceived hsettled
  | false =>
    have hdistinct : ∀ s, Unvisited s → ((objectsOf s.stream).map (·.path)).Nodup := by
      intro s hinv
      rw [hinv.objects]
      exact .nil
    have hpull := PullInv.run (fun _ _ _ h hs => h.step haccepts hs) hdistinct
      (.start readyFiles) hrun
    -- `Finished` never comes, so the client does not get to its report.
    obtain ⟨total, htotal⟩ := hpull.client.finished (.inr ⟨∅, hreported⟩)
    exact absurd (hpull.received.subset htotal) (hpull.server.unfinished total)

end Completeness

/-! ## The pull of one file -/

/-- A client whose calls succeed; a file it streams has five bytes. -/
def helloClient : ClientConfig where
  dest := text "/dest"
  calls _ :=
    { creates := true
      stream := ⟨true, true, true, true, [.upTo 5], [.upTo 5], text "hello", []⟩
      integrity := helloIntegrity []
      metadata := ⟨true, true, true⟩ }
  workers := 4
  disposition := .sigDfl
  wcwidth := latinWcwidth

def oneFilePull (integrity : Bytes → IntegrityCalls) : PullConfig :=
  ⟨.onFileSystem oneFile 1 srvContext (text "/") integrity 4, helloClient⟩

/-- The session for one file, to its end. -/
def oneFileSession : List SessionEvent :=
  List.replicate 7 .manager ++ [.pop 0, .run 0, .finish 0, .manager, .manager]

/-- All that the client does with a message. -/
def handling : PullResponse → List ClientEvent
  | .object pull =>
    match pull.transfer with
    | some _ =>
      List.replicate 4 .main ++ .pop 0 :: List.replicate 4 (.run 0) ++
        .pop 0 :: List.replicate 4 (.run 0)
    | none => List.replicate 4 .main
  | .finished _ => [.main]
  | _ => []

/-- First the session, then the client, which takes one message after the other. -/
def oneFileSchedule (cfg : PullConfig) : List PullEvent :=
  let sent := (script (sessionStep cfg.session) (.start cfg.session .empty) oneFileSession).elim []
    (·.stream)
  oneFileSession.map .server ++
    sent.flatMap fun resp => .client (.receive (some resp)) :: (handling resp).map .client

/-- The pull of one file, run to its end. -/
def oneFilePulled (integrity : Bytes → IntegrityCalls) : Option PullState :=
  script (pullStep (oneFilePull integrity)) (.start (oneFilePull integrity) .empty)
    (oneFileSchedule (oneFilePull integrity))

theorem pull_complete_iff_oneFile :
    ∃ s, oneFilePulled helloIntegrity = some s ∧ s.client.pc = .reported ∅ ∧
      PulledCompletely (oneFilePull helloIntegrity) s := by
  have hends : (oneFilePulled helloIntegrity).map (·.client.pc) = some (.reported ∅) := rfl
  obtain ⟨s, hrun, hreported⟩ := Option.map_eq_some_iff.1 hends
  refine ⟨s, hrun, hreported, ?_⟩
  exact (pull_complete_iff oneFile srvContext rfl rfl (Nat.le_refl 1)
    helloIntegrity 4 helloClient .empty hrun hreported).2 (by decide)

/-- Integrity tasks that cannot open their file. -/
def unopenedIntegrity : Bytes → IntegrityCalls := fun _ => ⟨false, [], false, fun _ => none⟩

/-- A file that the server cannot open is counted in `Finished` but never announced, and the client
reports nothing. -/
theorem unopened_file_goes_unreported :
    ∃ s, oneFilePulled unopenedIntegrity = some s ∧ s.client.pc = .reported ∅ ∧
      ¬ PulledCompletely (oneFilePull unopenedIntegrity) s := by
  have hends : (oneFilePulled unopenedIntegrity).map (fun s =>
      (s.client.pc, s.client.received.getLast?, (objectsOf s.client.received).map (·.number))) =
      some (.reported ∅, some (.finished 2), [1]) := rfl
  obtain ⟨s, hrun, hs⟩ := Option.map_eq_some_iff.1 hends
  obtain ⟨hreported, hrest⟩ := Prod.mk.inj hs
  obtain ⟨hlast, hnumbers⟩ := Prod.mk.inj hrest
  refine ⟨s, hrun, hreported, fun hcomplete => ?_⟩
  obtain ⟨pull, hpull, hnumber, -⟩ :=
    hcomplete.numbers 2 (List.mem_of_getLast? hlast) 2 (by decide) (by decide)
  have hone : pull.number ∈ [1] := hnumbers ▸ List.mem_map_of_mem hpull
  rw [List.mem_singleton.1 hone] at hnumber
  exact absurd hnumber (by decide)

end Netpull
