import Netpull.Client.HandleTransfer
import Netpull.Server.ClientSendCrawler

/-!
# Re-rooting symlinks

The server cuts the root off a target below it, and the client puts its destination there instead.
`ReRooted` says what the two are meant to do together, in terms of components; `reRooted_iff` says
for which targets they do.
-/

namespace Netpull

open PullObject Separated

/-- The symlink with the target `target` in the directory `linkDir` leads to `place`. -/
def Designates (linkDir target place : Bytes) : Prop :=
  components (resolveFrom linkDir target) = components place

/-- The client, in the directory `cwd` and pulling to `dest`, makes of the symlink data a link that
leads to the object at `rel` in the destination, from whatever directory below it. -/
def LeadsInside (cwd dest : Bytes) (symlink : SymlinkData) (rel : List Bytes) : Prop :=
  ∀ dirs : List Bytes, (∀ n ∈ dirs, ProperName n) →
    Designates (resolveFrom cwd dest ++ spell slash dirs) (cstr (linkTarget dest symlink))
      (resolveFrom cwd dest ++ spell slash rel)

/-- What re-rooting is for: a target strictly below the root is sent relative to it and leads to the
same place in the destination, and a target outside is created as it is. -/
structure ReRooted (root target cwd dest : Bytes) : Prop where
  inside : ∀ rel, rel ≠ [] → components target = components root ++ rel →
    symlinkData root target = .ok ⟨[slash].intercalate rel, true⟩ ∧
      LeadsInside cwd dest ⟨[slash].intercalate rel, true⟩ rel
  outside : ¬ components root <+: components target →
    symlinkData root target = .ok ⟨target, false⟩ ∧ cstr (linkTarget dest ⟨target, false⟩) = target

/-- Given the right data, the link leads inside the destination exactly if the destination was given
as an absolute path. -/
theorem leadsInside_iff {cwd dest : Bytes} (hdest : dest ≠ []) (hnul : 0 ∉ dest) {rel : List Bytes}
    (hne : rel ≠ []) (hrel : ∀ n ∈ rel, ProperName n) (hrelnul : 0 ∉ [slash].intercalate rel) :
    LeadsInside cwd dest ⟨[slash].intercalate rel, true⟩ rel ↔ isAbsolute dest = true := by
  have hlink : cstr (linkTarget dest ⟨[slash].intercalate rel, true⟩) =
      dest ++ slash :: [slash].intercalate rel := by
    have e : linkTarget dest ⟨[slash].intercalate rel, true⟩ =
        dest ++ slash :: [slash].intercalate rel := by simp [linkTarget]
    rw [e]
    apply cstr_eq_self
    simp only [List.mem_append, List.mem_cons, not_or]
    exact ⟨hnul, by decide, hrelnul⟩
  have hhead : isAbsolute (dest ++ slash :: [slash].intercalate rel) = isAbsolute dest := by
    obtain ⟨b, bs, rfl⟩ := List.exists_cons_of_ne_nil hdest
    rfl
  unfold LeadsInside Designates
  rw [hlink]
  cases habs : isAbsolute dest with
  | true =>
    have hsame : dest ++ slash :: [slash].intercalate rel = dest ++ spell slash rel := by
      rw [spell_eq hne]
    simp only [iff_true]
    intro dirs _
    rw [resolveFrom, if_pos (hhead.trans habs), resolveFrom, if_pos habs, hsame]
  | false =>
    -- From a directory below the destination the relative target comes to a longer path.
    simp only [Bool.false_eq_true, iff_false]
    intro h
    have hx : ∀ n ∈ [text "x"], ProperName n := by decide
    have hlen := congrArg List.length (h [text "x"] hx)
    rw [resolveFrom, if_neg (by simp [hhead, habs]), components_append, components_append,
      components_append_spell _ hx, components_intercalate hrel,
      components_append_spell _ hrel] at hlen
    simp only [List.length_append, List.length_singleton] at hlen
    omega

/-- A target that begins with the root is another place, or below the root. -/
theorem exists_location_of_prefix {l : Location} {target : Bytes} (habs : isAbsolute target = true)
    (hres : isResolved target = true) (h : l.path <+: target) :
    ∃ m : Location, m.path = target := by
  apply exists_location habs hres
  rintro rfl
  exact l.not_prefix_root h

/-- **Re-rooting works** for a target that is the root itself or does not begin with the bytes of
the root, and for no other. -/
theorem reRooted_iff {root target : Bytes} (habs : isAbsolute root = true)
    (hres : isResolved root = true) (hroot : root ≠ [slash]) (htabs : isAbsolute target = true)
    (htres : isResolved target = true) (hnul : 0 ∉ target) (cwd dest : Bytes) :
    ReRooted root target cwd dest ↔ target = root ∨ ¬ root <+: target := by
  obtain ⟨l, rfl⟩ := exists_location habs hres hroot
  constructor
  · intro h
    by_contra hbad
    obtain ⟨hneq, hpre⟩ : target ≠ l.path ∧ l.path <+: target := by tauto
    obtain ⟨m, rfl⟩ := exists_location_of_prefix htabs htres hpre
    have hdata := symlinkData_inside l htabs htres hpre
    by_cases hbelow : components l.path <+: components m.path
    · obtain ⟨rel, hrel⟩ := hbelow
      have hne : rel ≠ [] := by
        rintro rfl
        rw [List.append_nil, l.components_path, m.components_path] at hrel
        exact hneq (by rw [Location.path, Location.path, hrel])
      rw [(h.inside rel hne hrel.symm).1] at hdata
      have hlen : m.path.length = l.path.length + 1 + ([slash].intercalate rel).length := by
        rw [l.components_path, m.components_path] at hrel
        rw [Location.path, ← hrel, spell_append, spell_eq hne]
        simp [Location.path, Nat.add_assoc, Nat.add_comm 1]
      split at hdata
      · -- The first byte of the relative path is missing in what is sent.
        have htarget : [slash].intercalate rel = cstr (m.path.drop (l.path.length + 2)) :=
          congrArg SymlinkData.target (Except.ok.inj hdata)
        have hcut : (cstr (m.path.drop (l.path.length + 2))).length ≤
            m.path.length - (l.path.length + 2) := by
          rw [← List.length_drop]
          exact (List.takeWhile_prefix _).length_le
        rw [← htarget] at hcut
        omega
      · cases hdata
    · rw [(h.outside hbelow).1] at hdata
      split at hdata
      · cases congrArg SymlinkData.relativeToRoot (Except.ok.inj hdata)
      · cases hdata
  · intro h
    refine ⟨fun rel hne hrel => ?_, fun hout => ?_⟩
    · have htroot : target ≠ [slash] := by
        rintro rfl
        have hnil : components [slash] = [] := rfl
        rw [hnil] at hrel
        exact hne (List.append_eq_nil_iff.1 hrel.symm).2
      have hspell : target = l.path ++ spell slash rel := by
        rw [← spell_components htabs htres htroot, hrel, l.components_path, spell_append,
          Location.path]
      rcases h with h | h
      · rw [h] at hspell
        exact absurd (List.append_right_eq_self.1 hspell.symm) (spell_ne_nil hne)
      · exact absurd ⟨_, hspell.symm⟩ h
    · rcases h with rfl | h
      · exact absurd (List.prefix_refl _) hout
      · have hself : cstr target = target := cstr_eq_self hnul
        refine ⟨?_, hself⟩
        rw [symlinkData_outside l htabs htres h, hself]

theorem reRooted_iff_outside :
    ReRooted (text "/srv") (text "/etc/hosts") (text "/home") (text "out") ↔
      text "/etc/hosts" = text "/srv" ∨ ¬ text "/srv" <+: text "/etc/hosts" :=
  reRooted_iff (by decide) (by decide) (by decide) (by decide) (by decide) (by decide)
    (text "/home") (text "out")

/-- The target `/srv/data` below `/srv` is sent as `ata`, and `/srvdata/x`, which is not below it, is
re-rooted as well. -/
theorem reRooting_drops_byte :
    ¬ ReRooted (text "/srv") (text "/srv/data") (text "/home") (text "/out") ∧
      ¬ ReRooted (text "/srv") (text "/srvdata/x") (text "/home") (text "/out") := by
  constructor
  · intro h
    have hsent := (h.inside [text "data"] (by decide) (by decide)).1
    have hcut : symlinkData (text "/srv") (text "/srv/data") = .ok ⟨text "ata", true⟩ := rfl
    rw [hcut] at hsent
    exact absurd (congrArg SymlinkData.target (Except.ok.inj hsent)) (by decide)
  · intro h
    have hsent := (h.outside (by decide)).1
    have hcut : symlinkData (text "/srv") (text "/srvdata/x") = .ok ⟨text "ta/x", true⟩ := rfl
    rw [hcut] at hsent
    exact absurd (congrArg SymlinkData.relativeToRoot (Except.ok.inj hsent)) (by decide)

end Netpull
