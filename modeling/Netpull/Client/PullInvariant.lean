import Netpull.Client.PullLoop

/-!
# What the client knows

The client works with the paths in `toComplete`: it lists an object before it does anything about
it, and erases it at the end. `ClientInv` says that at every time a received object is still listed
or settled: everything that has to be done for it was done. This rests on what each thread knows
about the object it is at, and on the objects having different paths.
-/

namespace Netpull

open scoped List

/-- An object with what was done for it so far. -/
abbrev Known := PullObject × List Deed

def ClientPc.known : ClientPc → Option Known
  | .inserting pull | .creating pull => some (pull, [])
  | .preparing pull | .submitting pull | .settling pull => some (pull, [.created])
  | .erasing pull => some (pull, [.created, .settled])
  | .reading | .waiting | .reported _ | .failed | .dead => none

def ClientTask.known : ClientTask → Option Known
  | .fileStream pull => some (pull, [.created])
  | .fileIntegrity pull => some (pull, [.created, .streamed])

def ClientRun.known : ClientRun → Option Known
  | .streaming pull => some (pull, [.created])
  | .preparing pull | .submitting pull | .checking pull => some (pull, [.created, .streamed])
  | .settling pull => some (pull, [.created, .streamed, .checked])
  | .erasing pull => some (pull, [.created, .streamed, .checked, .settled])
  | .returned => none

/-- The objects the threads are at. -/
def ClientState.known (s : ClientState) : List Known :=
  s.pc.known.toList ++ s.pool.work ClientTask.known ClientRun.known

/-- The directory or symlink the main thread is about to settle. -/
def ClientPc.entry : ClientPc → Option PullObject
  | .settling pull | .erasing pull => some pull
  | _ => none

/-- What has to be done for an object before its path is erased. -/
def deedsFor (pull : PullObject) : List Deed :=
  if pull.transfer.isSome then [.created, .streamed, .checked, .settled] else [.created, .settled]

/-- Everything that has to be done for the object was done. -/
def Settled (deeds : List (Deed × Bytes)) (pull : PullObject) : Prop :=
  ∀ deed ∈ deedsFor pull, (deed, pull.path) ∈ deeds

theorem deedsFor_subset (pull : PullObject) :
    deedsFor pull ⊆ [.created, .streamed, .checked, .settled] := by
  unfold deedsFor
  split
  · exact List.Subset.refl _
  · decide

theorem settled_mem_deedsFor (pull : PullObject) : .settled ∈ deedsFor pull := by
  unfold deedsFor
  split
  · exact .tail _ (.tail _ (.tail _ (.head _)))
  · exact .tail _ (.head _)

theorem mem_deedsFor_created (pull : PullObject) : .created ∈ deedsFor pull := by
  unfold deedsFor
  split <;> exact .head _

theorem mem_deedsFor_file {pull : PullObject} (h : pull.transfer.isSome) :
    .streamed ∈ deedsFor pull ∧ .checked ∈ deedsFor pull := by
  rw [deedsFor, if_pos h]
  exact ⟨.tail _ (.head _), .tail _ (.tail _ (.head _))⟩

theorem Settled.created {deeds : List (Deed × Bytes)} {pull : PullObject} (h : Settled deeds pull) :
    (.created, pull.path) ∈ deeds :=
  h .created (mem_deedsFor_created pull)

theorem Settled.checked {deeds : List (Deed × Bytes)} {pull : PullObject} (h : Settled deeds pull)
    (hfile : pull.transfer.isSome) : (.checked, pull.path) ∈ deeds :=
  h .checked (mem_deedsFor_file hfile).2

/-- An object that is known to the client holds what is said about it. -/
def Holds (received : List PullResponse) (deeds : List (Deed × Bytes)) (k : Known) : Prop :=
  k.1 ∈ objectsOf received ∧ ∀ deed ∈ k.2, (deed, k.1.path) ∈ deeds

/-- The digest of a file is compared, unless it could not be computed. -/
structure DigestsCompared (cfg : ClientConfig) (deeds : List (Deed × Bytes)) : Prop where
  checked : ∀ path, (.checked, path) ∈ deeds →
    (.verified, path) ∈ deeds ∨ (cfg.calls path).integrity.finish = none
  verified : ∀ path, (.verified, path) ∈ deeds → (cfg.calls path).integrity.finish.isSome

structure ClientInv (cfg : ClientConfig) (s : ClientState) : Prop where
  knows : ∀ k ∈ s.known, Holds s.received s.deeds k
  entry : ∀ pull ∈ s.pc.entry, pull.transfer = none
  /-- A received object is listed, about to be listed, or settled. -/
  listed : s.pc ≠ .dead → ∀ pull ∈ objectsOf s.received,
    pull.path ∈ s.toComplete ∨ s.pc = .inserting pull ∨ Settled s.deeds pull
  compared : DigestsCompared cfg s.deeds
  finished : s.pc = .waiting ∨ (∃ incomplete, s.pc = .reported incomplete) →
    ∃ total, .finished total ∈ s.received
  reported : ∀ incomplete, s.pc = .reported incomplete → incomplete = s.toComplete.pull

section Invariant

variable {cfg : ClientConfig} {s s' : ClientState}

theorem ClientInv.start : ClientInv cfg (.start cfg) where
  knows := by rintro k ⟨⟩
  entry := by rintro pull ⟨⟩
  listed := by rintro - pull ⟨⟩
  compared := ⟨by rintro path ⟨⟩, by rintro path ⟨⟩⟩
  finished := by simp [ClientState.start]
  reported := by rintro incomplete ⟨⟩

/-! ## One more deed -/

theorem Holds.mono {received : List PullResponse} {deeds deeds' : List (Deed × Bytes)} {k : Known}
    (h : Holds received deeds k) (hdeeds : ∀ x ∈ deeds, x ∈ deeds') : Holds received deeds' k :=
  ⟨h.1, fun deed hdeed => hdeeds _ (h.2 deed hdeed)⟩

theorem Holds.deed {received : List PullResponse} {deeds deeds' : List (Deed × Bytes)}
    {pull : PullObject} {known : List Deed} (h : Holds received deeds (pull, known))
    (hdeeds : ∀ x ∈ deeds, x ∈ deeds') {deed : Deed} (hdeed : (deed, pull.path) ∈ deeds') :
    Holds received deeds' (pull, known ++ [deed]) := by
  refine ⟨h.1, fun d hd => ?_⟩
  rcases List.mem_append.1 hd with hd | hd
  · exact hdeeds _ (h.2 d hd)
  · exact List.mem_singleton.1 hd ▸ hdeed

theorem mem_of_ne_deed {deeds : List (Deed × Bytes)} {deed deed' : Deed} {path path' : Bytes}
    (h : (deed, path) ∈ (deed', path') :: deeds) (hne : deed ≠ deed') : (deed, path) ∈ deeds :=
  (List.mem_cons.1 h).resolve_left fun heq => hne (Prod.mk.inj heq).1

namespace DigestsCompared

variable {deeds : List (Deed × Bytes)} {path : Bytes}

theorem other {deed : Deed} (h : DigestsCompared cfg deeds) (hchecked : deed ≠ .checked)
    (hverified : deed ≠ .verified) : DigestsCompared cfg ((deed, path) :: deeds) := by
  constructor
  · intro p hp
    have hold := h.checked p (mem_of_ne_deed hp hchecked.symm)
    exact hold.imp_left (List.mem_cons_of_mem _)
  · intro p hp
    exact h.verified p (mem_of_ne_deed hp hverified.symm)

theorem unchecked (h : DigestsCompared cfg deeds)
    (hfinish : (cfg.calls path).integrity.finish = none) :
    DigestsCompared cfg ((.checked, path) :: deeds) := by
  constructor
  · intro p hp
    rcases List.mem_cons.1 hp with e | hp
    · exact .inr ((Prod.mk.inj e).2 ▸ hfinish)
    · exact (h.checked p hp).imp_left (List.mem_cons_of_mem _)
  · intro p hp
    exact h.verified p (mem_of_ne_deed hp Deed.noConfusion)

theorem compare (h : DigestsCompared cfg deeds)
    (hfinish : (cfg.calls path).integrity.finish.isSome) :
    DigestsCompared cfg ((.verified, path) :: (.checked, path) :: deeds) := by
  constructor
  · intro p hp
    rcases List.mem_cons.1 (mem_of_ne_deed hp Deed.noConfusion) with e | hp
    · exact .inl ((Prod.mk.inj e).2 ▸ List.mem_cons_self)
    · apply (h.checked p hp).imp_left
      intro hmem
      exact List.mem_cons_of_mem _ (List.mem_cons_of_mem _ hmem)
  · intro p hp
    rcases List.mem_cons.1 hp with e | hp
    · exact (Prod.mk.inj e).2 ▸ hfinish
    · exact h.verified p (mem_of_ne_deed hp Deed.noConfusion)

/-- A digest that could be computed, was compared. -/
theorem verified_of_checked (h : DigestsCompared cfg deeds)
    (hfinish : (cfg.calls path).integrity.finish.isSome) (hchecked : (.checked, path) ∈ deeds) :
    (.verified, path) ∈ deeds := by
  refine (h.checked path hchecked).resolve_right fun hnone => ?_
  rw [hnone] at hfinish
  cases hfinish

end DigestsCompared

/-! ## What one event keeps -/

/-- A step that neither reads a message nor erases a path. -/
theorem ClientInv.advance (h : ClientInv cfg s) (hlive : s.pc.isOver = false)
    (hreceived : s'.received = s.received) (hdeeds : ∀ x ∈ s.deeds, x ∈ s'.deeds)
    (hknown : ∀ k ∈ s'.known, k ∈ s.known ∨ Holds s.received s'.deeds k)
    (hentry : ∀ pull ∈ s'.pc.entry, pull.transfer = none)
    (hlisted : ∀ path ∈ s.toComplete, path ∈ s'.toComplete)
    (hinserting : ∀ pull, s.pc = .inserting pull →
      s'.pc = .inserting pull ∨ pull.path ∈ s'.toComplete)
    (hcompared : DigestsCompared cfg s'.deeds)
    (hpc : s'.pc = s.pc ∨ s'.pc ≠ .waiting ∧ ∀ incomplete, s'.pc ≠ .reported incomplete) :
    ClientInv cfg s' := by
  refine ⟨?_, hentry, ?_, hcompared, ?_, ?_⟩
  · intro k hk
    rw [hreceived]
    rcases hknown k hk with hk | hk
    · exact (h.knows k hk).mono hdeeds
    · exact hk
  · intro _ pull hpull
    rw [hreceived] at hpull
    rcases h.listed (ClientPc.ne_dead_of_live hlive) pull hpull with hmem | hinsert | hsettled
    · exact .inl (hlisted _ hmem)
    · rcases hinserting pull hinsert with hinsert | hmem
      · exact .inr (.inl hinsert)
      · exact .inl hmem
    · exact .inr (.inr fun deed hdeed => hdeeds _ (hsettled deed hdeed))
  · intro hend
    rw [hreceived]
    rcases hpc with hpc | ⟨hwaiting, hreported⟩
    · exact h.finished (hpc ▸ hend)
    · rcases hend with hend | ⟨incomplete, hend⟩
      · exact absurd hend hwaiting
      · exact absurd hend (hreported incomplete)
  · intro incomplete hend
    rcases hpc with hpc | ⟨-, hreported⟩
    · rw [← hpc, hend] at hlive
      cases hlive
    · exact absurd hend (hreported incomplete)

/-- The path of a settled object is erased; no other object has it. -/
theorem ClientInv.erased (h : ClientInv cfg s) (hlive : s.pc.isOver = false)
    (hdistinct : ((objectsOf s.received).map (·.path)).Nodup) {pull : PullObject}
    (hpull : pull ∈ objectsOf s.received) (hsettled : Settled s.deeds pull) :
    ClientInv cfg { s with toComplete := s.toComplete.erase pull.path } := by
  refine ⟨h.knows, h.entry, ?_, h.compared, h.finished, ?_⟩
  · intro hnotdead q hq
    by_cases hpath : q.path = pull.path
    · obtain rfl := List.inj_on_of_nodup_map hdistinct hq hpull hpath
      exact .inr (.inr hsettled)
    · rcases h.listed hnotdead q hq with hmem | hinsert | hdone
      · exact .inl (GuardedSet.mem_erase.2 ⟨hpath, hmem⟩)
      · exact .inr (.inl hinsert)
      · exact .inr (.inr hdone)
  · intro incomplete hpc
    rw [show s.pc = .reported incomplete from hpc] at hlive
    cases hlive

theorem mem_known_work {k : Known} (h : k ∈ s.pool.work ClientTask.known ClientRun.known) :
    k ∈ s.known :=
  List.mem_append_right _ h

/-- What a thread of the pool is at, is known. -/
theorem ClientInv.holds_run (h : ClientInv cfg s) {j : Nat} {r : ClientRun}
    (hj : s.pool.running[j]? = some r) {k : Known} (hk : r.known = some k) :
    Holds s.received s.deeds k := by
  refine h.knows k (mem_known_work (List.mem_append_right _ ?_))
  exact List.mem_filterMap.2 ⟨r, List.mem_of_getElem? hj, hk⟩

/-- Going on leaves what is known, but for the thread itself. -/
theorem mem_known_goOn (pool : WorkerPool ClientTask ClientRun) {j : Nat} {r r' : ClientRun}
    (hj : pool.running[j]? = some r) {k : Known}
    (hk : k ∈ (pool.goOn j r').work ClientTask.known ClientRun.known) :
    k ∈ pool.work ClientTask.known ClientRun.known ∨ r'.known = some k := by
  have hmem := (WorkerPool.work_goOn (f := ClientTask.known) hj r').mem_iff.1
    (List.mem_append_right _ hk)
  rcases List.mem_append.1 hmem with hmem | hmem
  · exact .inr (Option.mem_toList.1 hmem)
  · exact .inl hmem

/-- A worker goes on, with at most some more deeds. -/
theorem ClientInv.worked (h : ClientInv cfg s) (hlive : s.pc.isOver = false)
    {pool : WorkerPool ClientTask ClientRun} {deeds : List (Deed × Bytes)}
    (hdeeds : ∀ x ∈ s.deeds, x ∈ deeds) (hcompared : DigestsCompared cfg deeds)
    (hknown : ∀ k ∈ pool.work ClientTask.known ClientRun.known,
      k ∈ s.pool.work ClientTask.known ClientRun.known ∨ Holds s.received deeds k) :
    ClientInv cfg { s with pool, deeds } := by
  refine h.advance hlive rfl hdeeds ?_ h.entry (fun _ hpath => hpath) (fun _ hpc => .inl hpc)
    hcompared (.inl rfl)
  intro k hk
  rcases List.mem_append.1 hk with hk | hk
  · exact .inl (List.mem_append_left _ hk)
  · exact (hknown k hk).imp_left mem_known_work

/-- The thread at `j` comes to `r'`, of which it knows everything. -/
theorem ClientInv.goOn (h : ClientInv cfg s) (hlive : s.pc.isOver = false) {j : Nat}
    {r r' : ClientRun} (hj : s.pool.running[j]? = some r) {deeds : List (Deed × Bytes)}
    (hdeeds : ∀ x ∈ s.deeds, x ∈ deeds) (hcompared : DigestsCompared cfg deeds)
    (hr' : ∀ k, r'.known = some k → Holds s.received deeds k) :
    ClientInv cfg { s with pool := s.pool.goOn j r', deeds } := by
  apply h.worked hlive hdeeds hcompared
  intro k hk
  exact (mem_known_goOn s.pool hj hk).imp_right (hr' k)

/-- The thread at `j` has done something for its object. -/
theorem ClientInv.didRun (h : ClientInv cfg s) (hlive : s.pc.isOver = false) {j : Nat}
    {r r' : ClientRun} (hj : s.pool.running[j]? = some r) {pull : PullObject} {known : List Deed}
    {deed : Deed} (hcompared : DigestsCompared cfg ((deed, pull.path) :: s.deeds))
    (hbefore : r.known = some (pull, known)) (hafter : r'.known = some (pull, known ++ [deed])) :
    ClientInv cfg { s with
      pool := s.pool.goOn j r', deeds := (deed, pull.path) :: s.deeds } := by
  have hcons : ∀ x ∈ s.deeds, x ∈ (deed, pull.path) :: s.deeds :=
    fun x hx => List.mem_cons_of_mem _ hx
  apply h.goOn hlive hj hcons hcompared
  intro k hk
  obtain rfl := Option.some.inj (hafter.symm.trans hk)
  exact (h.holds_run hj hbefore).deed hcons List.mem_cons_self

theorem IntegrityCalls.finish_of_verdict (calls : IntegrityCalls) (sha256 : Bytes) :
    (calls.verdict sha256 = .unchecked → calls.finish = none) ∧
      (calls.verdict sha256 = .verified → calls.finish.isSome) := by
  unfold IntegrityCalls.verdict
  split
  · exact ⟨Verdict.noConfusion, Verdict.noConfusion⟩
  · split
    · exact ⟨Verdict.noConfusion, Verdict.noConfusion⟩
    · cases calls.finish with
      | none => exact ⟨fun _ => rfl, Verdict.noConfusion⟩
      | some digest => exact ⟨by simp only; split <;> exact Verdict.noConfusion, fun _ => rfl⟩

/-- A step of a worker. -/
theorem ClientInv.run (h : ClientInv cfg s) (hlive : s.pc.isOver = false)
    (hdistinct : ((objectsOf s.received).map (·.path)).Nodup) {j : Nat} {r : ClientRun}
    (hj : s.pool.running[j]? = some r) : ClientInv cfg (clientRunStep cfg s j r) := by
  have hreturned : ∀ k, ClientRun.returned.known = some k → Holds s.received s.deeds k := by
    intro k hk
    cases hk
  cases r with
  | streaming pull =>
    rw [clientRunStep]
    split
    · exact h.didRun hlive hj (h.compared.other Deed.noConfusion Deed.noConfusion) rfl rfl
    · exact h.goOn hlive hj (fun _ hx => hx) h.compared hreturned
  | preparing pull =>
    apply h.worked hlive (fun _ hx => hx) h.compared
    intro k hk
    rcases mem_known_goOn s.pool.prepare hj hk with hk | hk
    · exact .inl hk
    · cases hk
      exact .inr (h.holds_run hj rfl)
  | submitting pull =>
    apply h.worked hlive (fun _ hx => hx) h.compared
    intro k hk
    rcases mem_known_goOn (s.pool.submit (.fileIntegrity pull)) hj hk with hk | hk
    · have hmem := (WorkerPool.work_submit s.pool (.fileIntegrity pull)).mem_iff.1 hk
      rcases List.mem_append.1 hmem with hk | hk
      · obtain rfl := List.mem_singleton.1 hk
        exact .inr (h.holds_run hj rfl)
      · exact .inl hk
    · cases hk
  | checking pull =>
    have hverdict := (cfg.calls pull.path).integrity.finish_of_verdict
      (pull.transfer.getD ⟨[], 0, []⟩).sha256
    rw [clientRunStep]
    split
    · exact h.goOn hlive hj (fun _ hx => hx) h.compared hreturned
    · next hunchecked =>
      exact h.didRun hlive hj (h.compared.unchecked (hverdict.1 hunchecked)) rfl rfl
    · next hverified =>
      have hcons₂ : ∀ x ∈ s.deeds,
          x ∈ (Deed.verified, pull.path) :: (Deed.checked, pull.path) :: s.deeds :=
        fun x hx => List.mem_cons_of_mem _ (List.mem_cons_of_mem _ hx)
      apply h.goOn hlive hj hcons₂ (h.compared.compare (hverdict.2 hverified))
      intro k hk
      cases hk
      exact (h.holds_run hj rfl).deed hcons₂ (List.mem_cons_of_mem _ List.mem_cons_self)
  | settling pull =>
    rw [clientRunStep]
    split
    · exact h.didRun hlive hj (h.compared.other Deed.noConfusion Deed.noConfusion) rfl rfl
    · exact h.goOn hlive hj (fun _ hx => hx) h.compared hreturned
  | erasing pull =>
    obtain ⟨hpull, hknown⟩ := h.holds_run hj rfl
    have hsettled : Settled s.deeds pull :=
      fun deed hdeed => hknown deed (deedsFor_subset pull hdeed)
    have herased := h.erased hlive hdistinct hpull hsettled
    exact herased.goOn hlive hj (fun _ hx => hx) h.compared hreturned
  | returned =>
    apply h.worked hlive (fun _ hx => hx) h.compared
    intro k hk
    exact .inl ((WorkerPool.work_removePending (f := ClientTask.known) hj rfl).mem_iff.1 hk)

/-- The main thread goes on in `HandleTransfer` or back to its loop. -/
theorem ClientInv.moved (h : ClientInv cfg s) (hlive : s.pc.isOver = false)
    (hnotinserting : ∀ pull, s.pc ≠ .inserting pull) {pc : ClientPc}
    {deeds : List (Deed × Bytes)} (hdeeds : ∀ x ∈ s.deeds, x ∈ deeds)
    (hcompared : DigestsCompared cfg deeds)
    (hknown : ∀ k, pc.known = some k → Holds s.received deeds k)
    (hentry : ∀ pull ∈ pc.entry, pull.transfer = none)
    (hpc : pc ≠ .waiting ∧ ∀ incomplete, pc ≠ .reported incomplete) :
    ClientInv cfg { s with pc, deeds } := by
  refine h.advance hlive rfl hdeeds ?_ hentry (fun _ hpath => hpath)
    (fun pull hinsert => absurd hinsert (hnotinserting pull)) hcompared (.inr hpc)
  intro k hk
  rcases List.mem_append.1 hk with hk | hk
  · exact .inr (hknown k (Option.mem_toList.1 hk))
  · exact .inl (mem_known_work hk)

/-- What the main thread is at, is known. -/
theorem ClientInv.holds_main (h : ClientInv cfg s) {k : Known} (hk : s.pc.known = some k) :
    Holds s.received s.deeds k :=
  h.knows k (List.mem_append_left _ (Option.mem_toList.2 hk))

theorem reading_ends : ClientPc.reading ≠ .waiting ∧
    ∀ incomplete, ClientPc.reading ≠ .reported incomplete :=
  ⟨ClientPc.noConfusion, fun _ => ClientPc.noConfusion⟩

/-- The main thread lets go of its object. -/
theorem ClientInv.letsGo (h : ClientInv cfg s) (hlive : s.pc.isOver = false)
    (hnotinserting : ∀ pull, s.pc ≠ .inserting pull) {pc : ClientPc} (hknown : pc.known = none)
    (hentry : pc.entry = none) (hpc : pc ≠ .waiting ∧ ∀ incomplete, pc ≠ .reported incomplete) :
    ClientInv cfg { s with pc } := by
  refine h.moved hlive hnotinserting (fun _ hx => hx) h.compared ?_ ?_ hpc
  · intro k hk
    rw [hknown] at hk
    cases hk
  · intro pull hpull
    rw [Option.mem_def, hentry] at hpull
    cases hpull

/-- The main thread has done something for its object. -/
theorem ClientInv.did (h : ClientInv cfg s) (hlive : s.pc.isOver = false)
    (hnotinserting : ∀ pull, s.pc ≠ .inserting pull) {pull : PullObject} {known : List Deed}
    {deed : Deed} (hchecked : deed ≠ .checked) (hverified : deed ≠ .verified) {pc : ClientPc}
    (hbefore : s.pc.known = some (pull, known)) (hafter : pc.known = some (pull, known ++ [deed]))
    (hentry : ∀ q ∈ pc.entry, q.transfer = none)
    (hpc : pc ≠ .waiting ∧ ∀ incomplete, pc ≠ .reported incomplete) :
    ClientInv cfg { s with pc, deeds := (deed, pull.path) :: s.deeds } := by
  have hcons : ∀ x ∈ s.deeds, x ∈ (deed, pull.path) :: s.deeds :=
    fun x hx => List.mem_cons_of_mem _ hx
  refine h.moved hlive hnotinserting hcons (h.compared.other hchecked hverified) ?_ hentry hpc
  intro k hk
  obtain rfl := Option.some.inj (hafter.symm.trans hk)
  exact (h.holds_main hbefore).deed hcons List.mem_cons_self

/-- A step of the main thread. -/
theorem ClientInv.main (h : ClientInv cfg s) (hlive : s.pc.isOver = false)
    (hdistinct : ((objectsOf s.received).map (·.path)).Nodup)
    (hs : clientMainStep cfg s = some s') : ClientInv cfg s' := by
  cases clientMainStep_cases hs with
  | inserts pull hpc =>
    refine h.advance hlive rfl (fun _ hx => hx) ?_ ?_ ?_ ?_ h.compared
      (.inr ⟨ClientPc.noConfusion, fun _ => ClientPc.noConfusion⟩)
    · intro k hk
      rcases List.mem_append.1 hk with hk | hk
      · obtain rfl := List.mem_singleton.1 hk
        exact .inr (h.holds_main (by rw [hpc]; rfl))
      · exact .inl (mem_known_work hk)
    · intro q hq
      cases hq
    · intro path hpath
      exact GuardedSet.mem_insert.2 (.inr hpath)
    · intro q hq
      obtain rfl := ClientPc.inserting.inj (hpc.symm.trans hq)
      exact .inr (GuardedSet.mem_insert.2 (.inl rfl))
  | asserts pull fault hpc =>
    exact h.letsGo hlive (by simp [hpc]) rfl rfl
      ⟨ClientPc.noConfusion, fun _ => ClientPc.noConfusion⟩
  | createsFile pull call hpc =>
    refine h.did hlive (by simp [hpc]) Deed.noConfusion Deed.noConfusion (by rw [hpc]; rfl) rfl ?_
      ⟨ClientPc.noConfusion, fun _ => ClientPc.noConfusion⟩
    intro q hq
    cases hq
  | createsEntry pull call hpc _ _ htransfer =>
    refine h.did hlive (by simp [hpc]) Deed.noConfusion Deed.noConfusion (by rw [hpc]; rfl) rfl ?_
      ⟨ClientPc.noConfusion, fun _ => ClientPc.noConfusion⟩
    intro q hq
    cases hq
    exact htransfer
  | notCreated pull call hpc => exact h.letsGo hlive (by simp [hpc]) rfl rfl reading_ends
  | prepares pull hpc =>
    have hholds := h.holds_main (by rw [hpc]; rfl : s.pc.known = some (pull, [.created]))
    refine h.advance hlive rfl (fun _ hx => hx) ?_ ?_ (fun _ hpath => hpath) ?_ h.compared
      (.inr ⟨ClientPc.noConfusion, fun _ => ClientPc.noConfusion⟩)
    · intro k hk
      rcases List.mem_append.1 hk with hk | hk
      · obtain rfl := List.mem_singleton.1 hk
        exact .inr hholds
      · exact .inl (mem_known_work hk)
    · intro q hq
      cases hq
    · intro q hq
      rw [hpc] at hq
      cases hq
  | submits pull hpc =>
    have hholds := h.holds_main (by rw [hpc]; rfl : s.pc.known = some (pull, [.created]))
    refine h.advance hlive rfl (fun _ hx => hx) ?_ ?_ (fun _ hpath => hpath) ?_ h.compared
      (.inr reading_ends)
    · intro k hk
      have hmem := (WorkerPool.work_submit s.pool (.fileStream pull)).mem_iff.1
        (List.mem_append.1 hk |>.resolve_left List.not_mem_nil)
      rcases List.mem_append.1 hmem with hk | hk
      · obtain rfl := List.mem_singleton.1 hk
        exact .inr hholds
      · exact .inl (mem_known_work hk)
    · intro q hq
      cases hq
    · intro q hq
      rw [hpc] at hq
      cases hq
  | settles pull hpc =>
    have hentry := h.entry pull (by rw [hpc]; rfl)
    refine h.did hlive (by simp [hpc]) Deed.noConfusion Deed.noConfusion (by rw [hpc]; rfl) rfl ?_
      ⟨ClientPc.noConfusion, fun _ => ClientPc.noConfusion⟩
    intro q hq
    cases hq
    exact hentry
  | notSettled pull hpc => exact h.letsGo hlive (by simp [hpc]) rfl rfl reading_ends
  | erases pull hpc =>
    obtain ⟨hpull, hknown⟩ :=
      h.holds_main (by rw [hpc]; rfl : s.pc.known = some (pull, [.created, .settled]))
    have hentry := h.entry pull (by rw [hpc]; rfl)
    have hsettled : Settled s.deeds pull := by
      intro deed hdeed
      rw [deedsFor, hentry] at hdeed
      exact hknown deed hdeed
    have herased := h.erased hlive hdistinct hpull hsettled
    exact herased.letsGo hlive (by simp [hpc]) rfl rfl reading_ends
  | reports hpc =>
    refine ⟨?_, ?_, ?_, h.compared, fun _ => h.finished (.inl hpc), ?_⟩
    · intro k hk
      exact h.knows k (mem_known_work hk)
    · intro q hq
      cases hq
    · intro _ q hq
      rcases h.listed (by simp [hpc]) q hq with hmem | hinsert | hdone
      · exact .inl hmem
      · rw [hpc] at hinsert
        cases hinsert
      · exact .inr (.inr hdone)
    · intro incomplete hend
      cases hend
      rfl

/-- The main thread reads a message. -/
theorem ClientInv.receive (h : ClientInv cfg s) (hpc : s.pc = .reading) (resp : PullResponse) :
    ClientInv cfg { handleResponse s resp with received := s.received ++ [resp] } := by
  have hlisted : ∀ pull ∈ objectsOf s.received,
      pull.path ∈ s.toComplete ∨ Settled s.deeds pull := by
    intro pull hpull
    rcases h.listed (by simp [hpc]) pull hpull with hmem | hinsert | hsettled
    · exact .inl hmem
    · rw [hpc] at hinsert
      cases hinsert
    · exact .inr hsettled
  have hholds : ∀ k ∈ s.pool.work ClientTask.known ClientRun.known,
      Holds (s.received ++ [resp]) s.deeds k := by
    intro k hk
    obtain ⟨hobject, hdeeds⟩ := h.knows k (mem_known_work hk)
    exact ⟨by rw [objectsOf_append]; exact List.mem_append_left _ hobject, hdeeds⟩
  -- The cases differ in where the main thread stands and whether there is a new object.
  have hgo : ∀ pc jobId sigint totalItems, (∀ k, pc.known = some k →
        Holds (s.received ++ [resp]) s.deeds k) → pc.entry = none →
      (pc ≠ .dead → ∀ pull ∈ objectsOf [resp], pc = .inserting pull) →
      (pc = .waiting → ∃ total, resp = .finished total) →
      (∀ incomplete, pc ≠ .reported incomplete) →
      ClientInv cfg
        { s with pc, jobId, sigint, totalItems, received := s.received ++ [resp] } := by
    intro pc jobId sigint totalItems hknown hentry hnew hwaiting hreported
    refine ⟨?_, ?_, ?_, h.compared, ?_, fun incomplete e => absurd e (hreported incomplete)⟩
    · intro k hk
      rcases List.mem_append.1 hk with hk | hk
      · exact hknown k (Option.mem_toList.1 hk)
      · exact hholds k hk
    · intro pull hpull
      rw [Option.mem_def, hentry] at hpull
      cases hpull
    · intro hlive pull hpull
      rw [objectsOf_append] at hpull
      rcases List.mem_append.1 hpull with hpull | hpull
      · exact (hlisted pull hpull).imp_right .inr
      · exact .inr (.inl (hnew hlive pull hpull))
    · rintro (hend | ⟨incomplete, hend⟩)
      · obtain ⟨total, rfl⟩ := hwaiting hend
        exact ⟨total, List.mem_append_right _ List.mem_cons_self⟩
      · exact absurd hend (hreported incomplete)
  have hsame : ∀ jobId sigint totalItems, objectsOf [resp] = [] →
      ClientInv cfg { s with jobId, sigint, totalItems, received := s.received ++ [resp] } := by
    intro jobId sigint totalItems hnone
    have hreading := hgo .reading jobId sigint totalItems (by rintro k ⟨⟩) rfl (by simp [hnone])
      ClientPc.noConfusion (fun _ => ClientPc.noConfusion)
    rwa [← hpc] at hreading
  have hdead : ∀ jobId sigint totalItems, ClientInv cfg
      { s with pc := .dead, jobId, sigint, totalItems, received := s.received ++ [resp] } := by
    intro jobId sigint totalItems
    exact hgo .dead jobId sigint totalItems (by rintro k ⟨⟩) rfl (fun e => absurd rfl e)
      ClientPc.noConfusion (fun _ => ClientPc.noConfusion)
  cases resp with
  | unset => exact hdead s.jobId s.sigint s.totalItems
  | started job =>
    rw [handleResponse_started]
    split
    · exact hsame job _ s.totalItems rfl
    · exact hdead job _ s.totalItems
  | error message => exact hsame s.jobId s.sigint s.totalItems rfl
  | finished total =>
    exact hgo .waiting s.jobId s.sigint s.totalItems (by rintro k ⟨⟩) rfl (by rintro - pull ⟨⟩)
      (fun _ => ⟨total, rfl⟩) (fun _ => ClientPc.noConfusion)
  | object pull =>
    have hnew : pull ∈ objectsOf (s.received ++ [.object pull]) := by
      rw [objectsOf_append]
      exact List.mem_append_right _ List.mem_cons_self
    rw [handleResponse_object]
    split
    · exact hdead s.jobId s.sigint _
    · refine hgo (.inserting pull) s.jobId s.sigint (max s.totalItems pull.number) ?_ rfl ?_
        ClientPc.noConfusion (fun _ => ClientPc.noConfusion)
      · intro k hk
        cases hk
        exact ⟨hnew, by rintro deed ⟨⟩⟩
      · intro _ q hq
        obtain rfl := List.mem_singleton.1 hq
        rfl

/-- The process dies of a progress line. -/
theorem ClientInv.dies (h : ClientInv cfg s) : ClientInv cfg { s with pc := .dead } where
  knows k hk := h.knows k (mem_known_work hk)
  entry := by rintro pull ⟨⟩
  listed hnotdead := absurd rfl hnotdead
  compared := h.compared
  finished := by simp
  reported := by rintro incomplete ⟨⟩

/-- An event of the client. -/
theorem ClientInv.step (h : ClientInv cfg s)
    (hdistinct : ((objectsOf s.received).map (·.path)).Nodup) {event : ClientEvent}
    (hs : clientStep cfg s event = some s') : ClientInv cfg s' := by
  have hlive := clientStep_live hs
  cases clientStep_cases hs with
  | receives resp hpc => exact h.receive hpc resp
  | loses hpc =>
    exact h.letsGo hlive (by simp [hpc]) rfl rfl
      ⟨ClientPc.noConfusion, fun _ => ClientPc.noConfusion⟩
  | main hmain => exact h.main hlive hdistinct hmain
  | pops i pool hpop =>
    have hwork := WorkerPool.work_waitForTaskAndPop (f := ClientTask.known)
      (g := ClientRun.known) (by rintro (_ | _) <;> rfl) hpop
    exact h.worked hlive (fun _ hx => hx) h.compared fun k hk => .inl (hwork.mem_iff.1 hk)
  | runs j r hj => exact h.run hlive hdistinct hj
  | overruns => exact h.dies

theorem clientMainStep_received (hs : clientMainStep cfg s = some s') :
    s'.received = s.received := by
  cases clientMainStep_cases hs <;> rfl

/-- Only the main thread receives messages, and it keeps them. -/
theorem clientStep_received {event : ClientEvent} (hs : clientStep cfg s event = some s') :
    s'.received = s.received ∨
      ∃ resp, event = .receive (some resp) ∧ s'.received = s.received ++ [resp] := by
  cases clientStep_cases hs with
  | receives resp => exact .inr ⟨resp, rfl, rfl⟩
  | loses => exact .inl rfl
  | main hmain => exact .inl (clientMainStep_received hmain)
  | pops i pool => exact .inl rfl
  | runs j r =>
    left
    cases r <;> simp only [clientRunStep] <;> split <;> rfl
  | overruns => exact .inl rfl

end Invariant

end Netpull
