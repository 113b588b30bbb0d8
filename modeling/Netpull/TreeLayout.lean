import Netpull.Client.Layout
import Netpull.Server.Origins
import Netpull.Server.Serves

/-!
# The layout of a tree

A tree says what belongs where in the destination (`TreeObjects.layout`). In whatever order it is
listed and whatever calls fail while it is crawled, what a session announces fits in
(`treeAnnounced`).
-/

namespace Netpull

open Inodes PullObject

/-! ## What belongs where -/

/-- What the destination may hold for an object: a directory, a symlink with the target that its own
comes to in the destination, or a file, whatever is in it. -/
def StandsFor (dest : Bytes) (o : FsObject) : Inodes.Node Bytes Bytes Bytes → Prop
  | .dir _ _ => o.type = .directory
  | .file _ => o.type = .file
  | .symlink target => o.type = .symlink ∧ ∃ data, symlinkData o.root o.linkTarget = .ok data ∧
    target = cstr (linkTarget dest data)

theorem StandsFor.grows {dest : Bytes} {o : FsObject} {node node' : Inodes.Node Bytes Bytes Bytes}
    (h : StandsFor dest o node) (hgrows : node.Grows node') : StandsFor dest o node' := by
  cases node <;> cases node' <;> first | exact hgrows.elim | skip
  · exact h
  · exact h
  · rw [show _ = _ from hgrows]
    exact h

/-- The objects of a tree, each at its own place. -/
structure TreeObjects where
  objects : List FsObject
  named : TreeNamed objects
  distinct : (objects.map FsObject.names).Nodup

namespace TreeObjects

def layout (T : TreeObjects) (dest : Bytes) : Layout Bytes Bytes Bytes where
  Place ns := ∃ o ∈ T.objects, o.names = ns
  Right ns node := ∃ o ∈ T.objects, o.names = ns ∧ StandsFor dest o node
  grows := by
    rintro ns node node' hgrows ⟨o, ho, hnames, hstands⟩
    exact ⟨o, ho, hnames, hstands.grows hgrows⟩
  directory := by
    rintro ns ms - ⟨o', ho', rfl⟩ hne hpre node ⟨o, ho, rfl, hstands⟩
    have hdirectory := T.named.directories o ho o' ho' hne hpre
    cases node with
    | dir parent entries => exact ⟨parent, entries, rfl⟩
    | file content => cases hdirectory.symm.trans hstands
    | symlink target => cases hdirectory.symm.trans hstands.1

/-- The tree has the object, though the crawler may have failed to read the target of a symlink. -/
def Shows (T : TreeObjects) (o : FsObject) : Prop :=
  ∃ target, { o with linkTarget := target } ∈ T.objects ∧
    (o.linkTarget = target ∨ o.linkTarget = [])

theorem Shows.place {T : TreeObjects} {o : FsObject} (h : T.Shows o) (dest : Bytes) :
    (T.layout dest).Place o.names := by
  obtain ⟨target, hmem, -⟩ := h
  exact ⟨_, hmem, rfl⟩

/-- What is right for an object is what stands for it, if its target was not lost. -/
theorem Shows.right_iff {T : TreeObjects} {o : FsObject} (h : T.Shows o) {dest : Bytes}
    (hlink : o.type = .symlink → o.linkTarget ≠ []) (node : Inodes.Node Bytes Bytes Bytes) :
    (T.layout dest).Right o.names node ↔ StandsFor dest o node := by
  obtain ⟨target, hmem, htarget⟩ := h
  have hstands : StandsFor dest { o with linkTarget := target } node ↔ StandsFor dest o node := by
    cases node with
    | dir parent entries | file content => exact Iff.rfl
    | symlink t =>
      by_cases hsymlink : o.type = .symlink
      · obtain rfl := htarget.resolve_right (hlink hsymlink)
        exact Iff.rfl
      · exact ⟨fun h => absurd h.1 hsymlink, fun h => absurd h.1 hsymlink⟩
  constructor
  · rintro ⟨o', ho', hnames, hright⟩
    obtain rfl := List.inj_on_of_nodup_map T.distinct ho' hmem hnames
    exact hstands.1 hright
  · exact fun hright => ⟨_, hmem, rfl, hstands.2 hright⟩

end TreeObjects

/-! ## The messages of a tree -/

section Announced

variable {T : TreeObjects} {cfg : SessionConfig} {s : SessionState} {dest : Bytes} {o : FsObject}
  {pull : PullObject}

/-- What stands for an object matches its message. -/
theorem Portrays.stands_iff (h : Portrays cfg o pull) (node : Inodes.Node Bytes Bytes Bytes) :
    StandsFor dest o node ↔ Matches dest pull node := by
  have htype : ∀ type : FsObject.Type, o.type = type ↔ pull.type = type.pullType := by
    intro type
    refine ⟨fun heq => heq ▸ h.type, fun heq => h.of_type heq⟩
  cases node with
  | dir parent entries => exact htype .directory
  | file content => exact htype .file
  | symlink target =>
    refine (and_congr_right fun hsymlink => ?_).trans (and_congr_left' (htype .symlink))
    have hdata := h.data
    rw [objectData, if_pos hsymlink] at hdata
    cases hmade : symlinkData o.root o.linkTarget with
    | error e =>
      rw [hmade] at hdata
      cases hdata
    | ok data =>
      rw [hmade] at hdata
      have hpulldata : pull.data = .symlink data := (Except.ok.inj hdata).symm
      rw [PullObject.symlink, hpulldata]
      simp

/-- A symlink without a target has none in the destination either. -/
theorem Portrays.link (h : Portrays cfg o pull) (hsymlink : o.type = .symlink)
    (hnil : o.linkTarget = []) : cstr (linkTarget dest pull.symlink) = [] := by
  have hdata := h.data
  rw [objectData, if_pos hsymlink, hnil] at hdata
  have hpulldata : pull.data = .symlink ⟨[], false⟩ := (Except.ok.inj hdata).symm
  rw [PullObject.symlink, hpulldata]
  rfl

/-- The path of a message is that of the object it was made of. -/
theorem MadeOf.path_eq (horderly : Orderly cfg.objects) (ho : o ∈ cfg.objects)
    (h : MadeOf cfg o pull) : pull.path = o.relativePath := by
  obtain ⟨relativePath, hrel, hpath⟩ := h.portrays.path
  obtain rfl := Except.ok.inj (hrel.symm.trans (horderly.relative o ho))
  rw [hpath, cstr_eq_self (horderly.no_nul o ho)]

/-- A session that visits the tree. -/
structure TreeSession (T : TreeObjects) (cfg : SessionConfig) : Prop extends Servable cfg where
  shows : cfg.accepts = true → ∀ o ∈ cfg.objects, T.Shows o

/-- **What a session announces fits in.** -/
theorem treeAnnounced (hcfg : TreeSession T cfg) (dest : Bytes) (hserves : Serves cfg s)
    (hmade : Made cfg s) : FitsIn (T.layout dest) dest s.stream := by
  have hdistinct := hserves.distinct hcfg.toServable
  cases hserves with
  | visits haccepts seen handled pulls hinv =>
    have horderly := hcfg.orderly haccepts
    have hstream := hinv.objectsOf_stream
    have hof : ∀ pull ∈ objectsOf s.stream, ∃ o, T.Shows o ∧ Portrays cfg o pull ∧
        pull.names = o.names := by
      intro pull hpull
      obtain ⟨o, ho, hof⟩ := hmade.stream pull hpull
      exact ⟨o, hcfg.shows haccepts o ho, hof.portrays,
        congrArg (·.splitOn slash) (hof.path_eq horderly ho)⟩
    refine ⟨⟨hdistinct, ?_, ?_⟩, ?_, ?_, ?_⟩
    · intro pull hpull hfile
      exact (hinv.transfers pull (hstream ▸ hpull)).1 hfile
    · intro pull hpull hsymlink
      obtain ⟨o, -, hportrays, -⟩ := hof pull hpull
      refine hportrays.other fun hfile => ?_
      have htype := hportrays.type
      rw [hsymlink, hfile] at htype
      cases htype
    · intro pull hpull
      obtain ⟨o, ⟨target, hmem, -⟩, -, hnames⟩ := hof pull hpull
      have hentries := T.named.names _ hmem
      rw [hnames]
      exact hentries
    · intro pull hpull
      obtain ⟨o, ho, -, hnames⟩ := hof pull hpull
      rw [hnames]
      exact ho.place dest
    · intro pull hpull hlink node
      obtain ⟨o, ho, hportrays, hnames⟩ := hof pull hpull
      rw [hnames, ho.right_iff, hportrays.stands_iff]
      intro hsymlink hnil
      refine hlink ?_ (hportrays.link hsymlink hnil)
      rw [hportrays.type, hsymlink]
      rfl
  | refuses _ hinv =>
    have hnone := hinv.objects
    refine ⟨⟨hdistinct, ?_, ?_⟩, ?_, ?_, ?_⟩ <;> rw [hnone] <;> rintro pull ⟨⟩

end Announced

/-! ## The objects below a directory -/

section Contents

variable {tree : Contents} {l : Location}

/-- The objects of the nodes below a directory. -/
def Contents.treeObjects (tree : Contents) (wf : tree.WF) (l : Location) : TreeObjects where
  objects := (tree.nodes []).filterMap ((FileSystem.ofTree tree wf).objectOf l.path)
  named := by
    have hof : ∀ o ∈ (tree.nodes []).filterMap ((FileSystem.ofTree tree wf).objectOf l.path),
        ∃ node ∈ tree.nodes [], (FileSystem.ofTree tree wf).objectOf l.path node = some o ∧
          o.names = node.names := by
      intro o ho
      obtain ⟨node, hnode, hobject⟩ := List.mem_filterMap.1 ho
      exact ⟨node, hnode, hobject, objectOf_names hnode hobject⟩
    refine ⟨?_, ?_⟩
    · intro o ho
      obtain ⟨node, hnode, -, hnames⟩ := hof o ho
      obtain ⟨ns, -, hns, hentries⟩ := wf.node_names hnode
      rw [hnames, hns]
      exact hentries
    · intro o ho o' ho' hne hpre
      obtain ⟨node, hnode, hobject, hnames⟩ := hof o ho
      obtain ⟨node', hnode', -, hnames'⟩ := hof o' ho'
      rw [hnames, hnames'] at hne hpre
      have hmode := wf.dir_of_above hnode hnode' hpre hne
      obtain ⟨type, htype, rfl⟩ := Option.map_eq_some_iff.1 hobject
      exact (objectType_directory htype).1 hmode
  distinct := by
    have hnodup := wf.nodup_nodes []
    rw [List.Nodup, List.pairwise_map] at hnodup
    rw [List.Nodup, List.pairwise_map, List.pairwise_filterMap]
    refine hnodup.imp_of_mem fun {node node'} hnode hnode' hne o ho o' ho' heq => ?_
    rw [objectOf_names hnode ho,
      objectOf_names hnode' ho'] at heq
    exact hne heq

/-- Whatever fails on the way, what is found is in the tree. -/
theorem found_shows {fs : FileSystem} (htree : fs.tree = tree) (wf : tree.WF) {fuel : Nat}
    (hfuel : fs.tree.dirCount ≤ fuel) {o : FsObject}
    (ho : o ∈ (found fs.kernel fuel l.path).1) : (tree.treeObjects wf l).Shows o := by
  subst htree
  obtain ⟨node, hnode, -, hobject⟩ := (FileSystem.mem_found_iff hfuel).1 ho
  obtain ⟨type, htype, rfl⟩ := Option.map_eq_some_iff.1 hobject
  refine ⟨if type = .symlink then cstr node.entry.target else [], ?_, ?_⟩
  · refine List.mem_filterMap.2 ⟨node, hnode, ?_⟩
    rw [FileSystem.objectOf, htype, Option.map_some]
    simp [FileSystem.ofTree]
  · simp only
    split
    · next h => exact .inl (if_pos h.1).symm
    · exact .inr rfl

end Contents

end Netpull
