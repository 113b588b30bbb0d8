import Netpull.Server.FileIntegrity

/-!
# What a crawl announces

Handling an object either skips it, or makes one item that announces it, or fails; it fails only for
a symlink with an absolute target (`outgoing_cases`). The objects of a file system come in an order
and with paths that make this work (`found_orderly`).
-/

namespace Netpull

open PullObject Separated

/-- The path of an object below its visit root. -/
def FsObject.relativePath (o : FsObject) : Bytes := o.path.drop (o.root.length + 1)

/-- The objects that were not completed before. -/
def unskipped (ctx : CrawlContext) (objects : List FsObject) : List FsObject :=
  objects.filter fun o => !ctx.job.isCompleted o.relativePath

/-- The item of an object: a task if it is a file. -/
structure Announces (o : FsObject) (out : Outgoing) : Prop where
  path : out.pull.path = o.relativePath
  type : out.pull.type = o.type.pullType
  sends : ∀ pull, out = .send pull → o.type ≠ .file ∧ pull.transfer = none
  submits : ∀ id ready pull, out = .submit id ready pull →
    o.type = .file ∧ ready.path = o.path ∧ pull.transfer.isSome

/-- Objects whose relative paths are different C strings, in the order of their depths. -/
structure Orderly (objects : List FsObject) : Prop where
  relative : ∀ o ∈ objects, relativeTo o.path o.root = .ok o.relativePath
  no_nul : ∀ o ∈ objects, 0 ∉ o.relativePath
  distinct : (objects.map FsObject.relativePath).Nodup
  sorted : objects.Pairwise fun o o' => o.relativePath.count slash ≤ o'.relativePath.count slash

/-! ## Handling one object -/

section Outgoing

variable {o : FsObject}

theorem pullObject_cases (hnul : 0 ∉ o.relativePath) (users : Users) (number : Int32) :
    (∃ e, pullObject users number o.relativePath o = .error e ∧ o.type = .symlink ∧
      isAbsolute o.linkTarget = true) ∨
    ∃ pull, pullObject users number o.relativePath o = .ok pull ∧ pull.path = o.relativePath ∧
      pull.type = o.type.pullType ∧ pull.number = number.toInt64 ∧ pull.transfer = none := by
  have hpath := cstr_eq_self hnul
  unfold pullObject objectData
  split
  · next hsymlink =>
    cases habs : isAbsolute o.linkTarget with
    | false =>
      rw [symlinkData_relative habs]
      exact .inr ⟨_, rfl, hpath, rfl, rfl, rfl⟩
    | true =>
      cases symlinkData o.root o.linkTarget with
      | error e => exact .inl ⟨e, rfl, hsymlink, rfl⟩
      | ok data => exact .inr ⟨_, rfl, hpath, rfl, rfl, rfl⟩
  · exact .inr ⟨_, rfl, hpath, rfl, rfl, rfl⟩

/-- What comes of handling an object. -/
theorem outgoing_cases (ctx : CrawlContext) (hrel : relativeTo o.path o.root = .ok o.relativePath)
    (hnul : 0 ∉ o.relativePath) (total : Int32) (drawn : Nat) :
    (outgoing ctx total drawn o = .ok none ∧ ctx.job.isCompleted o.relativePath = true) ∨
    (∃ e, outgoing ctx total drawn o = .error e ∧ o.type = .symlink ∧
      isAbsolute o.linkTarget = true) ∨
    ∃ out, outgoing ctx total drawn o = .ok (some out) ∧
      ctx.job.isCompleted o.relativePath = false ∧ Announces o out ∧
      out.pull.number = (total + 1).toInt64 := by
  unfold outgoing
  rw [hrel, ok_bind]
  cases hcompleted : ctx.job.isCompleted o.relativePath with
  | true => exact .inl ⟨rfl, rfl⟩
  | false =>
    right
    rw [if_neg Bool.false_ne_true]
    rcases pullObject_cases hnul ctx.users (total + 1) with
      ⟨e, hpull, hlink⟩ | ⟨pull, hpull, hpath, htype, hnumber, htransfer⟩
    · rw [hpull, error_bind]
      exact .inl ⟨e, rfl, hlink⟩
    · rw [hpull, ok_bind]
      right
      by_cases hfile : o.type = .file
      · rw [if_pos hfile]
        refine ⟨_, rfl, rfl, ⟨hpath, htype, ?_, ?_⟩, hnumber⟩
        · intro pull hpull
          cases hpull
        · rintro id ready pull ⟨⟩
          exact ⟨hfile, rfl, rfl⟩
      · rw [if_neg hfile]
        refine ⟨_, rfl, rfl, ⟨hpath, htype, ?_, ?_⟩, hnumber⟩
        · intro pull hpull
          cases hpull
          exact ⟨hfile, htransfer⟩
        · rintro id ready pull ⟨⟩

theorem Announces.file {out : Outgoing} (h : Announces o out) :
    out.pull.type = .kTypeFile ↔ o.type = .file := by
  rw [h.type]
  cases o.type <;> simp [FsObject.Type.pullType]

/-- A message has information about a transfer exactly if it announces a file. -/
theorem Announces.transfer {out : Outgoing} (h : Announces o out)
    {digest : Bytes → Option Bytes} {q : PullObject} (hq : out.message digest = some q) :
    q.type = .kTypeFile ↔ q.transfer.isSome := by
  rw [(Outgoing.message_some hq).2.1, h.file]
  cases out with
  | send pull =>
    obtain rfl := Option.some.inj hq
    obtain ⟨hfile, htransfer⟩ := h.sends pull rfl
    simp [hfile, htransfer]
  | submit id ready pull =>
    obtain ⟨d, -, rfl⟩ := Option.map_eq_some_iff.1 hq
    simp [(h.submits id ready pull rfl).1, PullObject.setSha256]

end Outgoing

/-- The messages of the items announce the objects that are to be announced. -/
theorem map_messages_announced {digest : Bytes → Option Bytes} {objects : List FsObject}
    {outs : List Outgoing} (h : List.Forall₂ Announces objects outs) :
    (outs.filterMap (Outgoing.message digest)).map (fun p => (p.path, p.type)) =
      (objects.filter fun o => o.type ≠ .file ∨ (digest o.path).isSome).map
        fun o => (o.relativePath, o.type.pullType) := by
  induction h with
  | nil => rfl
  | @cons o out objects outs ho _ ih =>
    rw [List.filterMap_cons]
    cases out with
    | send pull =>
      rw [List.filter_cons_of_pos (by simp [(ho.sends pull rfl).1]), List.map_cons, ← ho.path,
        ← ho.type]
      exact congrArg (_ :: ·) ih
    | submit id ready pull =>
      obtain ⟨hfile, hpath, -⟩ := ho.submits id ready pull rfl
      simp only [Outgoing.message, IntegrityTask.message, hpath]
      cases hdigest : digest o.path with
      | none =>
        rw [List.filter_cons_of_neg (by simp [hfile, hdigest])]
        exact ih
      | some d =>
        rw [List.filter_cons_of_pos (by simp [hdigest]), List.map_cons, ← ho.path, ← ho.type]
        exact congrArg (_ :: ·) ih

/-- What messages keep of their items, they keep in order. -/
theorem map_messages_sublist {β : Type} {f : PullObject → β} {g : Outgoing → β}
    {digest : Bytes → Option Bytes} (hfg : ∀ out q, out.message digest = some q → f q = g out)
    (outs : List Outgoing) :
    ((outs.filterMap (Outgoing.message digest)).map f).Sublist (outs.map g) := by
  induction outs with
  | nil => exact .refl _
  | cons out outs ih =>
    rw [List.filterMap_cons, List.map_cons]
    cases hmessage : out.message digest with
    | none => exact ih.cons _
    | some q =>
      rw [← hfg out q hmessage]
      exact ih.cons_cons _

/-! ## The objects of a file system -/

section Found

variable {fs : FileSystem} {l : Location} {fuel : Nat}

theorem objectOf_relativePath {node : Node} {o : FsObject}
    (h : fs.objectOf l.path node = some o) :
    o.relativePath = [slash].intercalate node.names := by
  rw [FsObject.relativePath, (objectOf_symlink h).1, FileSystem.objectOf_path h, ← List.drop_drop,
    List.drop_left, List.drop_one, tail_spell]

/-- What the path of a found object consists of. -/
theorem found_path (hfuel : fs.tree.dirCount ≤ fuel) {o : FsObject}
    (ho : o ∈ (found fs.kernel fuel l.path).1) :
    o.path = l.path ++ slash :: o.relativePath ∧ 0 ∉ o.relativePath := by
  obtain ⟨node, hnode, -, hobj⟩ := (FileSystem.mem_found_iff hfuel).1 ho
  obtain ⟨ns, hne, hns, hnames⟩ := fs.wf.node_names hnode
  rw [List.nil_append] at hns
  subst hns
  rw [FileSystem.objectOf_path hobj, objectOf_relativePath hobj, spell_eq hne]
  refine ⟨rfl, ?_⟩
  rw [← tail_spell]
  intro hmem
  obtain ⟨n, hn, hzero⟩ := List.mem_flatMap.1 (List.mem_of_mem_tail hmem)
  rcases List.mem_cons.1 hzero with hzero | hzero
  · exact absurd hzero (by decide)
  · exact (hnames n hn).no_nul hzero

theorem found_relativeTo (hfuel : fs.tree.dirCount ≤ fuel) {o : FsObject}
    (ho : o ∈ (found fs.kernel fuel l.path).1) :
    o.root = l.path ∧ relativeTo o.path l.path = .ok o.relativePath := by
  obtain ⟨node, hnode, -, hobj⟩ := (FileSystem.mem_found_iff hfuel).1 ho
  rw [objectOf_relativePath hobj]
  exact ⟨(objectOf_symlink hobj).1, (FileSystem.object_paths hnode hobj).2.2.1⟩

theorem found_orderly (hfuel : fs.tree.dirCount ≤ fuel) :
    Orderly (found fs.kernel fuel l.path).1 where
  relative o ho := by
    obtain ⟨hroot, hrel⟩ := found_relativeTo hfuel ho
    rw [hroot, hrel]
  no_nul o ho := (found_path hfuel ho).2
  distinct := by
    have hperm := (fs.found_perm (l := l) hfuel).map fun o => relativeTo o.path l.path
    have hnodup := hperm.nodup_iff.2
      ((fs.distinct_relativePaths l).sublist ((List.filter_sublist.filterMap _).map _))
    have hmap : (found fs.kernel fuel l.path).1.map (fun o => relativeTo o.path l.path) =
        ((found fs.kernel fuel l.path).1.map FsObject.relativePath).map Except.ok := by
      rw [List.map_map]
      exact List.map_congr_left fun o ho => (found_relativeTo hfuel ho).2
    rw [hmap] at hnodup
    exact hnodup.of_map _
  sorted := by
    refine (fs.found_sorted (l := l) fuel).imp_of_mem fun {o o'} ho ho' h => ?_
    rw [(found_path hfuel ho).1, (found_path hfuel ho').1] at h
    simp only [List.count_append, List.count_cons_self] at h
    omega

/-- If no symlink of the tree has an absolute target, no found object has. -/
theorem found_links (hfuel : fs.tree.dirCount ≤ fuel)
    (hlinks : ∀ node ∈ fs.tree.nodes [], modeType node.entry.stat.stMode = .lnk →
      isAbsolute (cstr node.entry.target) = false) {o : FsObject}
    (ho : o ∈ (found fs.kernel fuel l.path).1) (hsymlink : o.type = .symlink) :
    isAbsolute o.linkTarget = false := by
  obtain ⟨node, hnode, -, hobj⟩ := (FileSystem.mem_found_iff hfuel).1 ho
  obtain ⟨-, htype, htarget⟩ := objectOf_symlink hobj
  rw [htarget]
  split
  · exact hlinks node hnode (htype.1 hsymlink)
  · rfl

end Found

end Netpull
